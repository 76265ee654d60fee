import BuildInProgress.Lib.Numbering
import BuildInProgress.ProjectPages
import BuildInProgress.StepMap
import BuildInProgress.StepRuns

/-!
# The repair of the positions

`index` puts the steps at position `-1` one below the other, under the last step of the project.  An update that
would make a step its own ancestor is refused without an exception, and then nothing stands where the next turn
of the loop looks for the last step.
-/

open Text Ancestry Numbering

namespace Database

def hasPosition (s : Step) : Bool := s.position ≠ -1

/-- The steps with a position. -/
def placed (db : Database) (p : Nat) : List Step := (db.projectSteps p).filter hasPosition

/-- The steps without one, in the order of the repair. -/
def displaced (db : Database) (p : Nat) : List Step :=
  ((db.projectSteps p).filter (·.position = -1)).insertionSort (·.createdAt ≤ ·.createdAt)

/-- Some steps stand at `-1`, the others have the positions 0, 1, 2, …; every ancestry is nil or a path, and every
row has passed the validations. -/
structure Damaged (db : Database) (p : Nat) : Prop where
  some_displaced : db.displaced p ≠ []
  numbered : Numbered (fun s => some s.position) (db.placed p)
  paths : ∀ s ∈ db.projectSteps p, s.ancestry = none ∨ ∃ l, l ≠ [] ∧ s.ancestry = some (render l)
  valid : ∀ s ∈ db.projectSteps p, s.valid = true

/-- What the repair is for: `db'` has the steps of `db` in a row again. -/
structure Repaired (db db' : Database) (p : Nat) : Prop where
  same : (db'.projectSteps p).map Step.id = (db.projectSteps p).map Step.id
  numbered : Numbered (fun s => some s.position) (db'.projectSteps p)
  kept : ∀ s ∈ db.placed p, s ∈ db'.projectSteps p
  ordered : ∀ s ∈ db.displaced p, ∀ t ∈ db.displaced p, s.createdAt < t.createdAt →
    ∀ s' ∈ db'.projectSteps p, ∀ t' ∈ db'.projectSteps p, s'.id = s.id → t'.id = t.id → s'.position < t'.position
  below : ∀ s ∈ db.displaced p, ∀ s' ∈ db'.projectSteps p, s'.id = s.id →
    ∃ q ∈ db'.projectSteps p, q.position = s'.position - 1 ∧ (ancestorIds s'.ancestry).getLast? = some q.id
  proper : ∀ s' ∈ db'.projectSteps p, s'.id ∉ ancestorIds s'.ancestry

/-- The last step with a position has an ancestry, and no step without a position is on it. -/
def Repairable (db : Database) (p : Nat) : Prop :=
  ∃ q ∈ db.placed p, (∀ s ∈ db.projectSteps p, s.position ≤ q.position) ∧ q.ancestry ≠ none ∧
    ∀ s ∈ db.displaced p, s.id ∉ ancestorIds q.ancestry

theorem mem_placed {db : Database} {p : Nat} {s : Step} :
    s ∈ db.placed p ↔ s ∈ db.projectSteps p ∧ s.position ≠ -1 := by
  rw [placed, List.mem_filter, hasPosition, decide_eq_true_eq]

theorem mem_displaced {db : Database} {p : Nat} {s : Step} :
    s ∈ db.displaced p ↔ s ∈ db.projectSteps p ∧ s.position = -1 := by
  rw [displaced, List.mem_insertionSort, List.mem_filter, decide_eq_true_eq]

theorem nodup_displaced (db : Database) (p : Nat) : ((db.displaced p).map Step.id).Nodup := by
  refine ((List.perm_insertionSort _ _).map Step.id).nodup_iff.mpr ?_
  exact (db.nodup_projectSteps p).sublist (List.filter_sublist.map _)

/-- Every step is in one of the two lists. -/
theorem perm_placed_displaced (db : Database) (p : Nat) :
    (db.projectSteps p).Perm (db.placed p ++ db.displaced p) := by
  have hrest : (db.projectSteps p).filter (fun s => !hasPosition s) = (db.projectSteps p).filter (·.position = -1) := by
    apply List.filter_congr
    intro s _
    simp [hasPosition]
  refine (List.filter_append_perm hasPosition (db.projectSteps p)).symm.trans ?_
  rw [hrest]
  exact List.Perm.append_left _ (List.perm_insertionSort _ _).symm

/-- The position the repair starts from is the greatest. -/
theorem greatest_position {db : Database} {p : Nat} (hne : db.projectSteps p ≠ []) :
    ∃ q ∈ db.projectSteps p, ((db.orderedSteps p).map (·.position)).getLast?.getD 0 = q.position ∧
      ∀ s ∈ db.projectSteps p, s.position ≤ q.position := by
  have hsorted : (db.orderedSteps p).Pairwise (·.position ≤ ·.position) := List.pairwise_insertionSort _ _
  have hordered : db.orderedSteps p ≠ [] := fun hnil => hne ((hnil ▸ db.perm_orderedSteps p).nil_eq.symm)
  refine ⟨(db.orderedSteps p).getLast hordered, mem_orderedSteps.mp (List.getLast_mem hordered), ?_, ?_⟩
  · rw [List.getLast?_map, List.getLast?_eq_some_getLast hordered]
    rfl
  · intro s hs
    rcases List.mem_append.mp (List.dropLast_append_getLast hordered ▸ mem_orderedSteps.mpr hs) with hin | hin
    · rw [← List.dropLast_append_getLast hordered] at hsorted
      exact (List.pairwise_append.mp hsorted).2.2 s hin _ List.mem_cons_self
    · rw [List.mem_singleton.mp hin]

end Database

namespace StepsController

open Database

/-- A step that the repair has put at a position, on the path `l`. -/
def settled (now : Nat) (l : List Nat) (position : Int) (s : Step) : Step :=
  { s with ancestry := some (render l), position, updatedAt := now }

/-- One turn of the loop: the row is written with both values or with neither. -/
theorem fixPositions_cons (now : Nat) {db : Database} {p : Nat} {s q : Step} (ss : List Step) {start : Int} {l : List Nat}
    (hq : findByPosition db p start = some q) (hl : q.ancestry = some (render l)) (hne : l ≠ []) (hs : s.valid = true) :
    ∃ db₁, fixPositions now p (s :: ss) start db = fixPositions now p ss (start + 1) db₁ ∧
      db₁.steps.rows = if s.id ∈ l ++ [q.id] then db.steps.rows
        else db.steps.rows.map fun r => if r.id = s.id then settled now (l ++ [q.id]) (start + 1) s else r := by
  have hpath : render l ++ '/' :: toS q.id = render (l ++ [q.id]) := (render_concat hne).symm
  rw [fixPositions, hq]
  dsimp only
  rw [hl]
  dsimp only
  rw [hpath]
  refine ⟨_, rfl, ?_⟩
  -- neither value has a say in the other's validation
  have hfirst : ({ s with ancestry := some (render (l ++ [q.id])) } : Step).valid = true ↔ s.id ∉ l ++ [q.id] :=
    Step.valid_path hs rfl rfl rfl (by simp)
  have hsecond : ({ s with ancestry := some (render (l ++ [q.id])), position := start + 1 } : Step).valid = true ↔
      s.id ∉ l ++ [q.id] := Step.valid_path hs rfl rfl rfl (by simp)
  rw [saveStep, saveStep]
  by_cases hin : s.id ∈ l ++ [q.id]
  · rw [if_pos hin, if_neg fun hc => hfirst.mp hc hin, if_neg fun hc => hsecond.mp hc hin]
    rfl
  · rw [if_neg hin, if_pos (hfirst.mpr hin), if_pos (hsecond.mpr hin), Option.getD_some, Option.getD_some,
      rows_storeStep, rows_storeStep, List.map_map]
    apply List.map_congr_left
    intro r _
    rw [Function.comp]
    by_cases hid : r.id = s.id
    · rw [if_pos (show r.id = _ from hid), if_pos (by rfl), if_pos hid]
      rfl
    · rw [if_neg (show ¬ r.id = _ from hid), if_neg (show ¬ r.id = _ from hid), if_neg hid]

/-- The rows after the loop, when every turn is written. -/
def resettled (now : Nat) : List Nat → Int → List Step → Step → Step
  | _, _, [], r => r
  | l, position, s :: ss, r =>
    if r.id = s.id then settled now l position s else resettled now (l ++ [s.id]) (position + 1) ss r

theorem resettled_of_notMem (now : Nat) {ss : List Step} {r : Step} (h : r.id ∉ ss.map Step.id) (l : List Nat)
    (position : Int) : resettled now l position ss r = r := by
  induction ss generalizing l position with
  | nil => rfl
  | cons s ss ih =>
    rw [List.map_cons, List.mem_cons, not_or] at h
    rw [resettled, if_neg h.1, ih h.2]

/-- Each step goes below the one in front of it. -/
theorem resettled_getElem (now : Nat) {ss : List Step} (hn : (ss.map Step.id).Nodup) (l : List Nat) (position : Int)
    {i : Nat} (hi : i < ss.length) :
    resettled now l position ss ss[i] = settled now (l ++ (ss.take i).map Step.id) (position + i) ss[i] := by
  induction ss generalizing l position i with
  | nil => cases hi
  | cons s ss ih =>
    rw [List.map_cons, List.nodup_cons] at hn
    cases i with
    | zero =>
      rw [List.getElem_cons_zero, resettled, if_pos rfl, List.take_zero, List.map_nil, List.append_nil]
      simp
    | succ i =>
      have hi' : i < ss.length := Nat.lt_of_succ_lt_succ hi
      have hne : ¬ ss[i].id = s.id := fun heq =>
        hn.1 (heq ▸ List.mem_map_of_mem (List.getElem_mem hi'))
      rw [List.getElem_cons_succ, resettled, if_neg hne, ih hn.2 _ _ hi', List.take_succ_cons, List.map_cons,
        List.append_assoc, List.singleton_append]
      congr 1
      push_cast
      omega

theorem resettled_rest (now : Nat) (l : List Nat) (position : Int) {ss : List Step}
    (r : Step) (hss : ∀ s ∈ ss, s.id = r.id → s = r) :
    (resettled now l position ss r).id = r.id ∧ (resettled now l position ss r).projectId = r.projectId := by
  induction ss generalizing l position with
  | nil => exact ⟨rfl, rfl⟩
  | cons s ss ih =>
    rw [resettled]
    by_cases hid : r.id = s.id
    · rw [if_pos hid, ← hss s List.mem_cons_self hid.symm]
      exact ⟨rfl, rfl⟩
    · rw [if_neg hid]
      exact ih _ _ fun t ht => hss t (List.mem_cons_of_mem s ht)

/-- The steps of the project after the row of `s` is written. -/
theorem mem_projectSteps_write {db db₁ : Database} {p : Nat} {s s' : Step} (hs : s ∈ db.projectSteps p)
    (hproject : s'.projectId = s.projectId)
    (hrows : db₁.steps.rows = db.steps.rows.map fun r => if r.id = s.id then s' else r) (x : Step) :
    x ∈ db₁.projectSteps p ↔ x = s' ∨ (x ∈ db.projectSteps p ∧ x.id ≠ s.id) := by
  obtain ⟨hrow, hp⟩ := mem_projectSteps.mp hs
  rw [mem_projectSteps, mem_projectSteps, hrows, List.mem_map_replace ⟨s, hrow, rfl⟩]
  constructor
  · intro h
    obtain ⟨heq | ⟨hx, hne⟩, hxp⟩ := h
    · exact Or.inl heq
    · exact Or.inr ⟨⟨hx, hxp⟩, hne⟩
  · intro h
    rcases h with heq | ⟨⟨hx, hxp⟩, hne⟩
    · rw [heq]
      exact ⟨Or.inl rfl, hproject.trans hp⟩
    · exact ⟨Or.inr ⟨hx, hne⟩, hxp⟩

/-- From a last step with a path that no displaced step is on, every turn is written. -/
theorem fixPositions_spec (now : Nat) {db : Database} {p : Nat} {q : Step} {ss : List Step} {start : Int} {l : List Nat}
    (hq : q ∈ db.projectSteps p) (hpos : q.position = start) (hstart : 0 ≤ start)
    (hmax : ∀ s ∈ db.projectSteps p, s.position ≤ start)
    (honly : ∀ s ∈ db.projectSteps p, s.position = start → s = q) (hl : q.ancestry = some (render l)) (hne : l ≠ [])
    (hss : ∀ s ∈ ss, s ∈ db.projectSteps p ∧ s.position = -1 ∧ s.valid = true ∧ s.id ∉ l)
    (hn : (ss.map Step.id).Nodup) :
    (fixPositions now p ss start db).1 = true ∧ (fixPositions now p ss start db).2.steps.rows =
      db.steps.rows.map (resettled now (l ++ [q.id]) (start + 1) ss) := by
  -- over the loop: the step written last is the one at the greatest position, and its path grows by one
  induction ss generalizing start db q l with
  | nil =>
    refine ⟨rfl, (List.map_eq_self_of_forall fun r _ => ?_).symm⟩
    rfl
  | cons s ss ih =>
    rw [List.map_cons, List.nodup_cons] at hn
    obtain ⟨hs, hs0, hvalid, hsl⟩ := hss s List.mem_cons_self
    have hfind : findByPosition db p start = some q := by
      rw [findByPosition]
      cases hfind : (db.projectSteps p).find? (·.position = start) with
      | none => exact absurd (List.find?_eq_none.mp hfind q hq) (by simp [hpos])
      | some q' =>
        have hq' := List.find?_some hfind
        rw [decide_eq_true_eq] at hq'
        rw [honly q' (List.mem_of_find?_eq_some hfind) hq']
    -- a path with the step itself on it would not be saved
    have hnot : s.id ∉ l ++ [q.id] := by
      rw [List.mem_append, List.mem_singleton, not_or]
      refine ⟨hsl, fun hid => ?_⟩
      have hsq : s = q := eq_of_id hs hq hid
      rw [hsq] at hs0
      omega
    obtain ⟨db₁, heq, hrows⟩ := fixPositions_cons now ss hfind hl hne hvalid
    rw [if_neg hnot] at hrows
    have hmem := mem_projectSteps_write hs (show (settled now (l ++ [q.id]) (start + 1) s).projectId = _ from rfl) hrows
    have hrest : ∀ t ∈ ss, t.id ≠ s.id := fun t ht hid => hn.1 (hid ▸ List.mem_map_of_mem ht)
    obtain ⟨hdone, hall⟩ := @ih db₁ (settled now (l ++ [q.id]) (start + 1) s) (start + 1) (l ++ [q.id])
      ((hmem _).mpr (Or.inl rfl)) rfl (by omega)
      (fun x hx => by
        rcases (hmem x).mp hx with hx | ⟨hx, -⟩
        · rw [hx]
          exact Int.le_refl _
        · have hle := hmax x hx
          omega)
      (fun x hx hx₁ => by
        rcases (hmem x).mp hx with hx | ⟨hx, -⟩
        · exact hx
        · have hle := hmax x hx
          omega)
      rfl (by simp)
      (fun t ht => by
        obtain ⟨ht₁, ht₂, ht₃, htl⟩ := hss t (List.mem_cons_of_mem s ht)
        refine ⟨(hmem t).mpr (Or.inr ⟨ht₁, hrest t ht⟩), ht₂, ht₃, ?_⟩
        rw [List.mem_append, List.mem_singleton, not_or]
        refine ⟨htl, fun hid => ?_⟩
        have htq : t = q := eq_of_id ht₁ hq hid
        rw [htq] at ht₂
        omega)
      hn.2
    rw [heq]
    refine ⟨hdone, ?_⟩
    rw [hall, hrows, List.map_map]
    apply List.map_congr_left
    intro r _
    rw [Function.comp, resettled]
    by_cases hid : r.id = s.id
    · rw [if_pos hid, if_pos hid]
      exact resettled_of_notMem now (r := settled now (l ++ [q.id]) (start + 1) s) hn.1 _ _
    · rw [if_neg hid, if_neg hid]
      rfl

/-- A row that the loop is not about stays. -/
theorem fixPositions_untouched (now p : Nat) {ss : List Step} {r : Step} (hr : r.id ∉ ss.map Step.id) (start : Int)
    {db : Database} (hrow : r ∈ db.steps.rows) : r ∈ (fixPositions now p ss start db).2.steps.rows := by
  have hsave : ∀ (db : Database) (s : Step), r.id ≠ s.id → r ∈ db.steps.rows →
      r ∈ ((db.saveStep (some now) s).getD db).steps.rows := by
    intro db s hid hrow
    rw [saveStep]
    split
    · rw [Option.getD_some, rows_storeStep]
      exact List.mem_map.mpr ⟨r, hrow, if_neg hid⟩
    · exact hrow
  induction ss generalizing start db with
  | nil => exact hrow
  | cons s ss ih =>
    rw [List.map_cons, List.mem_cons, not_or] at hr
    unfold fixPositions
    split
    · exact hrow
    · split
      · exact hrow
      · exact ih hr.2 _ (hsave _ _ hr.1 (hsave _ _ hr.1 hrow))

/-- A loop that ends and leaves no step at `-1` has found a last step with a path, and no step of the loop on it. -/
theorem fixPositions_last {db : Database} {p now : Nat} {ss : List Step} {start : Int}
    (hmax : ∀ s ∈ db.projectSteps p, s.position ≤ start)
    (hpaths : ∀ s ∈ db.projectSteps p, s.ancestry = none ∨ ∃ l, l ≠ [] ∧ s.ancestry = some (render l))
    (hss : ∀ s ∈ ss, s ∈ db.projectSteps p ∧ s.position = -1 ∧ s.valid = true) (hn : (ss.map Step.id).Nodup)
    (hne : ss ≠ []) (hdone : (fixPositions now p ss start db).1 = true)
    (hfull : ∀ s ∈ (fixPositions now p ss start db).2.projectSteps p, s.position ≠ -1) :
    ∃ q l, findByPosition db p start = some q ∧ q.ancestry = some (render l) ∧ ∀ s ∈ ss, s.id ∉ l ++ [q.id] := by
  induction ss generalizing start db with
  | nil => exact absurd rfl hne
  | cons s ss ih =>
    rw [List.map_cons, List.nodup_cons] at hn
    obtain ⟨hs, hs0, hvalid⟩ := hss s List.mem_cons_self
    cases hfind : findByPosition db p start with
    | none =>
      rw [fixPositions, hfind] at hdone
      cases hdone
    | some q =>
    have hq : q ∈ db.projectSteps p := List.mem_of_find?_eq_some hfind
    rcases hpaths q hq with hnil | ⟨l, hl, ha⟩
    · rw [fixPositions, hfind] at hdone
      dsimp only at hdone
      rw [hnil] at hdone
      cases hdone
    · obtain ⟨db₁, heq, hrows⟩ := fixPositions_cons now ss hfind ha hl hvalid
      rw [heq] at hdone hfull
      -- a turn that is not saved leaves its step at `-1`, and no later turn comes back to it
      have hnot : s.id ∉ l ++ [q.id] := by
        intro hin
        rw [if_pos hin] at hrows
        obtain ⟨hrow, hp⟩ := mem_projectSteps.mp hs
        have hstays := fixPositions_untouched now p hn.1 (start + 1) (hrows ▸ hrow)
        exact hfull s (mem_projectSteps.mpr ⟨hstays, hp⟩) hs0
      refine ⟨q, l, rfl, ha, ?_⟩
      rw [if_neg hnot] at hrows
      have hmem := mem_projectSteps_write hs (show (settled now (l ++ [q.id]) (start + 1) s).projectId = _ from rfl) hrows
      have hrest : ∀ t ∈ ss, t.id ≠ s.id := fun t ht hid => hn.1 (hid ▸ List.mem_map_of_mem ht)
      intro t ht
      rcases List.mem_cons.mp ht with ht | ht
      · rw [ht]
        exact hnot
      obtain ⟨q₁, l₁, hfind₁, ha₁, hoff⟩ := @ih db₁ (start + 1)
        (fun x hx => by
          rcases (hmem x).mp hx with hx | ⟨hx, -⟩
          · rw [hx]
            exact Int.le_refl _
          · have hle := hmax x hx
            omega)
        (fun x hx => by
          rcases (hmem x).mp hx with hx | ⟨hx, -⟩
          · rw [hx]
            exact Or.inr ⟨l ++ [q.id], by simp, rfl⟩
          · exact hpaths x hx)
        (fun x hx => by
          obtain ⟨hx₁, hx₂⟩ := hss x (List.mem_cons_of_mem s hx)
          exact ⟨(hmem x).mpr (Or.inr ⟨hx₁, hrest x hx⟩), hx₂⟩)
        hn.2 (List.ne_nil_of_mem ht) hdone hfull
      -- the step just written is the only one at the next position
      have hq₁ : q₁ = settled now (l ++ [q.id]) (start + 1) s := by
        rcases (hmem q₁).mp (List.mem_of_find?_eq_some hfind₁) with hq₁ | ⟨hq₁, -⟩
        · exact hq₁
        · have hpos := List.find?_some hfind₁
          rw [decide_eq_true_eq] at hpos
          have hle := hmax q₁ hq₁
          omega
      rw [hq₁] at ha₁
      have hl₁ : l ++ [q.id] = l₁ := render_injective (Option.some.inj ha₁)
      rw [← hl₁] at hoff
      exact fun hin => hoff t ht (List.mem_append_left _ hin)

end StepsController

namespace Database.Damaged

open StepsController

variable {db : Database} {p now : Nat} {q : Step} {l : List Nat}

theorem ne_nil (h : db.Damaged p) : db.projectSteps p ≠ [] := by
  intro hnil
  apply h.some_displaced
  rw [displaced, hnil]
  rfl

theorem eq_of_position (h : db.Damaged p) {s t : Step} (hs : s ∈ db.placed p) (ht : t ∈ db.placed p)
    (heq : s.position = t.position) : s = t :=
  h.numbered.inj hs ht (congrArg some heq)

theorem position_nonneg (h : db.Damaged p) (hq : q ∈ db.placed p) :
    0 ≤ q.position ∧ q.position < (db.placed p).length := by
  obtain ⟨i, hi, heq⟩ := (numbered_iff.mp h.numbered).2 q hq
  rw [Option.some.injEq] at heq
  omega

/-- The last of the placed steps carries the last number. -/
theorem position_last (h : db.Damaged p) (hq : q ∈ db.placed p) (hmax : ∀ s ∈ db.projectSteps p, s.position ≤ q.position) :
    q.position + 1 = (db.placed p).length := by
  obtain ⟨hnonneg, hlt⟩ := h.position_nonneg hq
  obtain ⟨a, ha, heq⟩ := h.numbered.exists_number (i := (db.placed p).length - 1) (by omega)
  rw [Option.some.injEq] at heq
  have hle := hmax a (mem_placed.mp ha).1
  omega

/-- The rows of the project when every turn of the loop is written. -/
theorem projectSteps_resettled {db' : Database} {position : Int}
    (hrows : db'.steps.rows = db.steps.rows.map (resettled now l position (db.displaced p))) :
    db'.projectSteps p = (db.projectSteps p).map (resettled now l position (db.displaced p)) := by
  rw [projectSteps, hrows, List.filter_map, projectSteps]
  congr 1
  apply List.filter_congr
  intro r hr
  rw [Function.comp, (resettled_rest now l position r fun s hs hid =>
    Table.eq_of_key (mem_projectSteps.mp (mem_displaced.mp hs).1).1 hr hid).2]

theorem resettled_placed (hq : q ∈ db.placed p) (position : Int) :
    resettled now l position (db.displaced p) q = q := by
  apply resettled_of_notMem
  intro hmem
  obtain ⟨s, hs, hid⟩ := List.mem_map.mp hmem
  have heq : s = q := eq_of_id (mem_displaced.mp hs).1 (mem_placed.mp hq).1 hid
  exact (mem_placed.mp hq).2 (heq ▸ (mem_displaced.mp hs).2)

section Rewritten

variable {db' : Database} {position : Int}
  (hrows : db'.steps.rows = db.steps.rows.map (resettled now l position (db.displaced p)))

include hrows

/-- The row of the step at place `i` of the loop. -/
theorem settled_mem {i : Nat} (hi : i < (db.displaced p).length) :
    settled now (l ++ ((db.displaced p).take i).map Step.id) (position + i) (db.displaced p)[i] ∈ db'.projectSteps p := by
  rw [projectSteps_resettled hrows, ← resettled_getElem now (db.nodup_displaced p) _ _ hi]
  exact List.mem_map_of_mem (mem_displaced.mp (List.getElem_mem hi)).1

theorem placed_mem {s : Step} (hs : s ∈ db.placed p) : s ∈ db'.projectSteps p := by
  rw [projectSteps_resettled hrows]
  exact List.mem_map.mpr ⟨s, (mem_placed.mp hs).1, resettled_placed hs _⟩

theorem map_id_resettled : (db'.projectSteps p).map Step.id = (db.projectSteps p).map Step.id := by
  rw [projectSteps_resettled hrows, List.map_map]
  apply List.map_congr_left
  intro r hr
  exact (resettled_rest now _ _ r fun s hs hid => eq_of_id (mem_displaced.mp hs).1 hr hid).1

/-- The loop goes through the steps from the oldest on. -/
theorem ordered_resettled {s t s' t' : Step} (hs : s ∈ db.displaced p) (ht : t ∈ db.displaced p)
    (hlt : s.createdAt < t.createdAt) (hs' : s' ∈ db'.projectSteps p) (ht' : t' ∈ db'.projectSteps p)
    (hsid : s'.id = s.id) (htid : t'.id = t.id) : s'.position < t'.position := by
  obtain ⟨i, hi, rfl⟩ := List.mem_iff_getElem.mp hs
  obtain ⟨j, hj, rfl⟩ := List.mem_iff_getElem.mp ht
  have hsorted : (db.displaced p).Pairwise (·.createdAt ≤ ·.createdAt) := List.pairwise_insertionSort _ _
  have hij : i < j := by
    by_contra hge
    rcases Nat.lt_or_eq_of_le (Nat.le_of_not_lt hge) with hji | hji
    · have hle := List.pairwise_iff_getElem.mp hsorted j i hj hi hji
      omega
    · subst hji
      omega
  rw [eq_of_id hs' (settled_mem hrows hi) hsid, eq_of_id ht' (settled_mem hrows hj) htid]
  show position + i < position + j
  omega

end Rewritten

section Repair

variable {db' : Database}
  (hrows : db'.steps.rows = db.steps.rows.map (resettled now (l ++ [q.id]) (q.position + 1) (db.displaced p)))

include hrows

/-- Each step of the loop hangs below the one before it, the first below the last placed step. -/
theorem below_resettled (hq : q ∈ db.placed p) {s s' : Step} (hs : s ∈ db.displaced p) (hs' : s' ∈ db'.projectSteps p)
    (hsid : s'.id = s.id) :
    ∃ q ∈ db'.projectSteps p, q.position = s'.position - 1 ∧ (ancestorIds s'.ancestry).getLast? = some q.id := by
  obtain ⟨i, hi, rfl⟩ := List.mem_iff_getElem.mp hs
  rw [eq_of_id hs' (settled_mem hrows hi) hsid]
  cases i with
  | zero =>
    refine ⟨q, placed_mem hrows hq, ?_, ?_⟩
    · show q.position = q.position + 1 + (0 : Nat) - 1
      omega
    · show (ancestorIds (some (render _))).getLast? = _
      rw [ancestorIds_render, List.take_zero, List.map_nil, List.append_nil, List.getLast?_concat]
  | succ i =>
    refine ⟨_, settled_mem hrows (Nat.lt_of_succ_lt hi), ?_, ?_⟩
    · show q.position + 1 + i = q.position + 1 + (i + 1 : Nat) - 1
      omega
    · show (ancestorIds (some (render _))).getLast? = some (db.displaced p)[i].id
      rw [ancestorIds_render, List.take_succ_eq_append_getElem (Nat.lt_of_succ_lt hi), List.map_append,
        List.map_singleton, ← List.append_assoc, List.getLast?_concat]

/-- No step comes onto its own path. -/
theorem proper_resettled (h : db.Damaged p) (hq : q ∈ db.placed p) (hoff : ∀ s ∈ db.displaced p, s.id ∉ l) {s' : Step}
    (hs' : s' ∈ db'.projectSteps p) : s'.id ∉ ancestorIds s'.ancestry := by
  rw [projectSteps_resettled hrows] at hs'
  obtain ⟨s, hs, rfl⟩ := List.mem_map.mp hs'
  rcases List.mem_append.mp ((db.perm_placed_displaced p).mem_iff.mp hs) with hs | hs
  · rw [resettled_placed hs]
    have hvalid := h.valid s (mem_placed.mp hs).1
    rw [Step.valid, Bool.and_eq_true, List.contains_eq_mem, Bool.not_eq_true', decide_eq_false_iff_not] at hvalid
    exact hvalid.2
  · have hn := db.nodup_displaced p
    obtain ⟨i, hi, rfl⟩ := List.mem_iff_getElem.mp hs
    rw [resettled_getElem now hn _ _ hi]
    show (db.displaced p)[i].id ∉ ancestorIds (some (render _))
    rw [ancestorIds_render, List.mem_append, List.mem_append, List.mem_singleton, not_or, not_or]
    refine ⟨⟨hoff _ (List.getElem_mem hi), fun hid => ?_⟩, fun hin => ?_⟩
    · have heq := eq_of_id (mem_displaced.mp (List.getElem_mem hi)).1 (mem_placed.mp hq).1 hid
      exact (mem_placed.mp hq).2 (heq ▸ (mem_displaced.mp (List.getElem_mem hi)).2)
    · rw [List.map_take] at hin
      obtain ⟨j, hj, heq⟩ := List.mem_take_iff_getElem.mp hin
      rw [List.length_map] at hj
      have hji := (List.getElem_inj hn).mp (heq.trans (List.getElem_map Step.id (h := by simpa using hi)).symm)
      omega

/-- With every turn written the steps are in a row again. -/
theorem repaired (h : db.Damaged p) (hq : q ∈ db.placed p) (hmax : ∀ s ∈ db.projectSteps p, s.position ≤ q.position)
    (hoff : ∀ s ∈ db.displaced p, s.id ∉ l) : db.Repaired db' p where
  same := map_id_resettled hrows
  numbered := by
    rw [projectSteps_resettled hrows]
    refine Numbered.of_perm ?_ ((db.perm_placed_displaced p).map _)
    rw [List.map_append, List.map_congr_left fun s hs => resettled_placed hs _, List.map_id']
    refine h.numbered.append fun i hi => ?_
    rw [List.length_map] at hi
    rw [List.getElem_map, resettled_getElem now (db.nodup_displaced p) _ _ hi, ← h.position_last hq hmax]
    rfl
  kept _ hs := placed_mem hrows hs
  ordered _ hs _ ht hlt _ hs' _ ht' hsid htid := ordered_resettled hrows hs ht hlt hs' ht' hsid htid
  below _ hs _ hs' hsid := below_resettled hrows hq hs hs' hsid
  proper _ hs' := proper_resettled hrows h hq hoff hs'

end Repair

end Database.Damaged

namespace StepsController

open Database

/-- What `index` does for a viewer who may read a damaged project. -/
theorem index_damaged {db : Database} {p : Nat} (h : db.Damaged p) {project : Project}
    (hproject : db.projects.find? p = some project) {viewer : Option User}
    (hread : Ability.readProject db viewer project = true) (now : Nat) :
    ∃ q ∈ db.projectSteps p, (∀ s ∈ db.projectSteps p, s.position ≤ q.position) ∧
      ((index viewer now p db).1 ≠ .error ↔ (fixPositions now p (db.displaced p) q.position db).1 = true) ∧
      (index viewer now p db).2 = (fixPositions now p (db.displaced p) q.position db).2 := by
  obtain ⟨q, hq, hstart, hmax⟩ := greatest_position h.ne_nil
  refine ⟨q, hq, hmax, ?_⟩
  have hempty : (db.displaced p).isEmpty = false := by
    rw [List.isEmpty_eq_false_iff]
    exact h.some_displaced
  rw [index, hproject]
  dsimp only
  rw [hread, Bool.not_true, if_neg Bool.false_ne_true, ← displaced, hempty, if_neg Bool.false_ne_true, hstart]
  cases hdone : (fixPositions now p (db.displaced p) q.position db).1 with
  | false => simp
  | true => simp

end StepsController

open StepsController Database

/-- Steps 1 and 2 stand at 0 and 1; of the steps at `-1`, 4 was created before 3. -/
def Database.twoDisplaced : Database :=
  let step (i createdAt : Nat) (position : Int) (ancestry : Text) : Step :=
    { blankStep i 1 createdAt with name := "Saw".toList, position, ancestry := some ancestry }
  { oneProject "Lamp".toList none with
    steps := .ofRows [step 1 0 0 ['0'], step 2 1 1 ['1'], step 3 3 (-1) ['1'], step 4 2 (-1) "1/2".toList] 5
      (by decide) }

theorem twoDisplaced_damaged : twoDisplaced.Damaged 1 where
  some_displaced := by decide +kernel
  numbered := by decide +kernel
  paths := by
    have hpaths : ∀ s ∈ twoDisplaced.projectSteps 1,
        ancestorIds s.ancestry ≠ [] ∧ s.ancestry = some (render (ancestorIds s.ancestry)) := by decide +kernel
    exact fun s hs => Or.inr ⟨_, hpaths s hs⟩
  valid := by decide +kernel

/-- The only step of a project stands at `-1`, without an ancestry. -/
def Database.oneDisplaced : Database :=
  { oneProject "Lamp".toList none with
    steps := .ofRows [{ blankStep 1 1 0 with name := "Saw".toList, position := -1 }] 2 (by decide) }
