import BuildInProgress.Lib.First
import BuildInProgress.Project

/-!
# Unanswered questions

`Project#step_with_question` takes the step with a question that was updated last, and looks at the answer of this
one only.  Among steps that were updated at the same time the database returns any.
-/

namespace Database

/-- `Step.joins(:question).where(:project_id => p)` -/
def questioned (db : Database) (p : Nat) : List Step :=
  (db.projectSteps p).filter fun s => (db.stepQuestion s.id).isSome

/-- `step.question` is there and not `answered?`. -/
def unanswered (db : Database) (s : Step) : Bool := (db.stepQuestion s.id).any fun q => !q.answered

/-- A step of the list that was updated last. -/
def Latest (ss : List Step) (s : Step) : Prop := s ∈ ss ∧ ∀ s' ∈ ss, s'.updatedAt ≤ s.updatedAt

/-- What `order("updated_at").last` promises of a query. -/
structure IsLast (last : List Step → Option Step) : Prop where
  latest : ∀ ss s, last ss = some s → Latest ss s
  nonempty : ∀ ss, ss ≠ [] → last ss ≠ none

/-- `Project#step_with_question`; nothing is the empty string. -/
def stepWithQuestion (last : List Step → Option Step) (p : Nat) (db : Database) : Option Nat :=
  if db.steps.rows.any fun s => s.projectId == some p && (db.stepQuestion s.id).isSome then
    match last (db.questioned p) with
    | none => none
    | some step => if db.unanswered step then some step.id else none
  else none

/-- The id of the unanswered step that was updated last, if any step is unanswered. -/
structure FindsUnanswered (db : Database) (p : Nat) (r : Option Nat) : Prop where
  found : (∃ s ∈ db.projectSteps p, db.unanswered s = true) →
    ∃ s, r = some s.id ∧ Latest ((db.projectSteps p).filter db.unanswered) s
  none : (∀ s ∈ db.projectSteps p, db.unanswered s = false) → r = none

/-! ## When the last question decides -/

/-- A query that sorts and takes the first row. -/
def newest (ss : List Step) : Option Step := (ss.insertionSort fun a b => b.updatedAt ≤ a.updatedAt).head?

theorem newest_latest {ss : List Step} {s : Step} (h : newest ss = some s) : Latest ss s := by
  have htotal : Std.Total fun a b : Step => b.updatedAt ≤ a.updatedAt := ⟨fun _ _ => Nat.le_total _ _⟩
  have htrans : IsTrans Step fun a b => b.updatedAt ≤ a.updatedAt := ⟨fun _ _ _ hab hbc => Nat.le_trans hbc hab⟩
  exact First.of_head h

/-- Any of the steps that were updated last may be the one that a query returns. -/
theorem isLast_choose {ss : List Step} {s : Step} (h : Latest ss s) :
    IsLast fun l => if l = ss then some s else newest l := by
  constructor
  · intro l s' hl
    split at hl
    · rename_i heq
      obtain rfl := Option.some.inj hl
      exact heq ▸ h
    · exact newest_latest hl
  · intro l hl
    split
    · exact Option.some_ne_none s
    · exact fun hnone => hl (First.head_eq_none.mp hnone)

variable {db : Database} {p : Nat}

theorem mem_questioned_of_unanswered {s : Step} (hs : s ∈ db.projectSteps p) (h : db.unanswered s = true) :
    s ∈ db.questioned p := by
  refine List.mem_filter.mpr ⟨hs, ?_⟩
  rw [unanswered] at h
  cases hq : db.stepQuestion s.id with
  | none =>
    rw [hq] at h
    cases h
  | some q => rfl

/-- The last query runs over all the steps with a question. -/
theorem stepWithQuestion_eq (db : Database) (p : Nat) {last : List Step → Option Step} (hlast : IsLast last) :
    (db.questioned p = [] ∧ stepWithQuestion last p db = none) ∨ ∃ s, Latest (db.questioned p) s ∧
      last (db.questioned p) = some s ∧
      stepWithQuestion last p db = if db.unanswered s then some s.id else none := by
  have hany : (db.steps.rows.any fun s => s.projectId == some p && (db.stepQuestion s.id).isSome) = true ↔
      db.questioned p ≠ [] := by
    rw [List.any_eq_true, Ne, List.eq_nil_iff_forall_not_mem, not_forall]
    simp only [questioned, projectSteps, List.mem_filter, Bool.and_eq_true, beq_iff_eq, decide_eq_true_eq, and_assoc,
      not_not]
  rw [stepWithQuestion]
  by_cases hempty : db.questioned p = []
  · rw [if_neg fun h => hany.mp h hempty]
    exact Or.inl ⟨hempty, rfl⟩
  · rw [if_pos (hany.mpr hempty)]
    obtain ⟨s, hs⟩ := Option.ne_none_iff_exists'.mp (hlast.nonempty _ hempty)
    rw [hs]
    exact Or.inr ⟨s, hlast.latest _ _ hs, rfl, rfl⟩

/-- Whichever of the latest steps the database returns, the answer is right exactly if all questions are answered
or each of the latest steps with a question is unanswered. -/
theorem step_with_question_iff (db : Database) (p : Nat) :
    (∀ last, IsLast last → FindsUnanswered db p (stepWithQuestion last p db)) ↔
      (∀ s ∈ db.projectSteps p, db.unanswered s = false) ∨
        ∀ s, Latest (db.questioned p) s → db.unanswered s = true := by
  constructor
  · intro h
    refine or_iff_not_imp_left.mpr fun hsome s hs => ?_
    have hexists : ∃ s ∈ db.projectSteps p, db.unanswered s = true := by simpa using hsome
    -- let the database return this step
    have hchoose := isLast_choose hs
    obtain ⟨t, ht, -⟩ := (h _ hchoose).found hexists
    rcases stepWithQuestion_eq db p hchoose with ⟨hempty, -⟩ | ⟨s', -, hs', heq⟩
    · rw [hempty] at hs
      cases hs.1
    · rw [if_pos rfl] at hs'
      obtain rfl := Option.some.inj hs'
      rw [heq] at ht
      by_contra hanswered
      rw [if_neg hanswered] at ht
      cases ht
  · intro h last hlast
    rcases stepWithQuestion_eq db p hlast with ⟨hempty, heq⟩ | ⟨s, hs, -, heq⟩
    · refine ⟨?_, fun _ => heq⟩
      rintro ⟨s, hs, hunanswered⟩
      have hmem := mem_questioned_of_unanswered hs hunanswered
      rw [hempty] at hmem
      cases hmem
    · have hsmem : s ∈ db.projectSteps p := List.mem_of_mem_filter hs.1
      refine ⟨?_, fun hnone => heq.trans (if_neg ?_)⟩
      · rintro ⟨t, ht, hunanswered⟩
        have hlatest : db.unanswered s = true := by
          refine h.resolve_left (fun hall => ?_) s hs
          rw [hall t ht] at hunanswered
          cases hunanswered
        refine ⟨s, heq.trans (if_pos hlatest), List.mem_filter.mpr ⟨hsmem, hlatest⟩, ?_⟩
        intro s' hs'
        obtain ⟨hs', hun⟩ := List.mem_filter.mp hs'
        exact hs.2 s' (mem_questioned_of_unanswered hs' hun)
      · rw [hnone s hsmem]
        exact Bool.false_ne_true

end Database

/-- The lamp with an open question on its first step and an answered one on the step that was updated last. -/
theorem step_with_question_missed :
    let db : Database := { Database.oneProject "Lamp".toList none with
      steps := .ofRows [⟨1, some 1, "Saw".toList, none, 0, none, none, none, none, none, none, none, none, 0, 1⟩,
        ⟨2, some 1, "Glue".toList, none, 1, none, none, none, none, none, none, none, none, 0, 2⟩] 3 (by decide)
      questions := .ofRows [⟨1, 1, "How?".toList, false, none⟩, ⟨2, 2, "Which?".toList, true, none⟩] 3 (by decide) }
    Database.stepWithQuestion Database.newest 1 db = none ∧
      ¬ db.FindsUnanswered 1 (Database.stepWithQuestion Database.newest 1 db) := by
  intro db
  refine ⟨by decide, fun h => ?_⟩
  obtain ⟨s, hs, -⟩ := h.found ⟨_, List.mem_cons_self, by decide⟩
  have hnone : Database.stepWithQuestion Database.newest 1 db = none := by decide
  rw [hnone] at hs
  cases hs
