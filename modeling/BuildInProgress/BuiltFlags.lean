import BuildInProgress.Lib.Run
import BuildInProgress.RemixReading
import BuildInProgress.StepAuthorization

/-!
# The built flag

`built` is stored with a project although it can be read off the steps.  The step actions write it after each
change of the steps below the project of the URL; a remix writes it before the loop over the copies.
-/

open Text Ancestry

/-! ## The flag and the steps -/

namespace Database

/-- A step of the project `i` says that the project is built. -/
def Marked (db : Database) (i : Nat) : Prop := ∃ s ∈ db.steps.rows, s.projectId = some i ∧ s.last = some true

/-- Every project has the flag that its steps say, and no step names a project that is yet to come. -/
structure BuiltFlags (db : Database) : Prop where
  exact : ∀ r ∈ db.projects.rows, r.built = some true ↔ db.Marked r.id
  owned : ∀ s ∈ db.steps.rows, ∀ q, s.projectId = some q → q < db.projects.next

/-- What keeps an update of a project from being refused. -/
structure Savable (db : Database) : Prop where
  paths : db.RemixPaths
  titled : ∀ r ∈ db.projects.rows, blank r.title = false ∧ r.title.length ≤ 40

theorem marked_iff {db : Database} {i : Nat} :
    db.Marked i ↔ ∃ x ∈ db.steps.rows.map Step.standing, x.2.1 = some i ∧ x.2.2 = some true := by
  rw [Marked]
  simp only [List.mem_map, exists_exists_and_eq_and, Step.standing]

theorem owned_iff {db : Database} {n : Nat} : (∀ s ∈ db.steps.rows, ∀ q, s.projectId = some q → q < n) ↔
    ∀ x ∈ db.steps.rows.map Step.standing, ∀ q, x.2.1 = some q → q < n := by
  rw [List.forall_mem_map]
  rfl

/-- Steps that come to another project say nothing about this one. -/
theorem marked_append {db db' : Database} {l : List (Nat × Option Nat × Option Bool)} {n i : Nat}
    (hsteps : db'.steps.rows.map Step.standing = db.steps.rows.map Step.standing ++ l) (hl : ∀ x ∈ l, x.2.1 = some n)
    (hi : i ≠ n) : db'.Marked i ↔ db.Marked i := by
  rw [marked_iff, marked_iff, hsteps]
  constructor
  · intro hx
    obtain ⟨x, hx, hm⟩ := hx
    rcases List.mem_append.mp hx with hx | hx
    · exact ⟨x, hx, hm⟩
    · rw [hl x hx] at hm
      exact absurd (Option.some.inj hm.1).symm hi
  · intro hx
    obtain ⟨x, hx, hm⟩ := hx
    exact ⟨x, List.mem_append_left _ hx, hm⟩

/-- Another project keeps its marked steps, and may have got the step that is written. -/
theorem marked_rewritten {db db' : Database} {s : Step} {p i : Nat} {q : Option Nat} {last : Option Bool}
    (hs : s ∈ db.projectSteps p) (hsteps : db'.steps.rows.map Step.standing = db.steps.rows.map fun r =>
      if r.id = s.id then (s.id, q, last) else r.standing) (hi : i ≠ p) :
    db'.Marked i ↔ db.Marked i ∨ q = some i ∧ last = some true := by
  obtain ⟨hrow, hp⟩ := mem_projectSteps.mp hs
  rw [marked_iff, hsteps]
  constructor
  · intro hx
    obtain ⟨x, hx, hmarked⟩ := hx
    obtain ⟨r, hr, heq⟩ := List.mem_map.mp hx
    by_cases hid : r.id = s.id
    · rw [if_pos hid] at heq
      rw [← heq] at hmarked
      exact Or.inr hmarked
    · rw [if_neg hid] at heq
      rw [← heq] at hmarked
      exact Or.inl ⟨r, hr, hmarked⟩
  · intro hx
    rcases hx with hx | hx
    · obtain ⟨r, hr, hmarked⟩ := hx
      have hid : r.id ≠ s.id := by
        intro heq
        rw [Table.eq_of_key hr hrow heq, hp] at hmarked
        exact hi (Option.some.inj hmarked.1).symm
      exact ⟨r.standing, List.mem_map.mpr ⟨r, hr, if_neg hid⟩, hmarked⟩
    · exact ⟨(s.id, q, last), List.mem_map.mpr ⟨s, hrow, if_pos rfl⟩, hx⟩

/-- After a deletion another marked step has to be left. -/
theorem marked_removed {db db' : Database} {d q : Nat} (hsteps : db'.steps.rows.map Step.standing =
      (db.steps.rows.map Step.standing).filter fun x => x.1 ≠ d) :
    db'.Marked q ↔ ∃ s ∈ db.steps.rows, s.id ≠ d ∧ s.projectId = some q ∧ s.last = some true := by
  rw [marked_iff, hsteps]
  constructor
  · intro hx
    obtain ⟨x, hx, hm⟩ := hx
    obtain ⟨hmem, hid⟩ := List.mem_filter.mp hx
    obtain ⟨s, hs, heq⟩ := List.mem_map.mp hmem
    rw [← heq] at hm hid
    exact ⟨s, hs, of_decide_eq_true hid, hm⟩
  · intro hx
    obtain ⟨s, hs, hid, hm⟩ := hx
    exact ⟨s.standing, List.mem_filter.mpr ⟨List.mem_map_of_mem hs, decide_eq_true hid⟩, hm⟩

theorem any_last_iff {db : Database} {i : Nat} : (db.projectSteps i).any (·.last == some true) = true ↔ db.Marked i := by
  rw [List.any_eq_true, Marked]
  simp only [mem_projectSteps, beq_iff_eq, and_assoc]

theorem Savable.valid {db : Database} (h : db.Savable) {r : Project} (hr : r ∈ db.projects.rows) : r.valid = true := by
  obtain ⟨hblank, hlength⟩ := h.titled r hr
  have hformat : validFormat r.remixAncestry = true := by
    rcases h.paths.rendered r hr with hnone | ⟨l, hl, heq⟩
    · rw [hnone]
      rfl
    · rw [heq]
      exact pattern_render hl
  have hown : (ancestorIds r.remixAncestry).contains r.id = false := by
    rw [← Bool.not_eq_true, List.contains_iff_mem]
    exact h.paths.notMem_own hr
  rw [Project.valid, hblank, decide_eq_true hlength, hformat, hown]
  rfl

/-- The heading of a project is all that its validations read. -/
def heading (r : Project) : Nat × Text × Option Text := (r.id, r.title, r.remixAncestry)

theorem Savable.congr {db db' : Database} (h : db.Savable)
    (hrows : db'.projects.rows.map heading = db.projects.rows.map heading)
    (hnext : db'.projects.next = db.projects.next) : db'.Savable := by
  -- a row after has the heading of a row before
  have hold : ∀ r' ∈ db'.projects.rows, ∃ r ∈ db.projects.rows, heading r = heading r' := by
    intro r' hr'
    have hmem : heading r' ∈ db.projects.rows.map heading := by
      rw [← hrows]
      exact List.mem_map_of_mem hr'
    exact List.mem_map.mp hmem
  have hsame : ∀ {r r' : Project}, heading r = heading r' →
      r'.id = r.id ∧ r'.title = r.title ∧ r'.remixAncestry = r.remixAncestry := by
    intro r r' heq
    exact ⟨(congrArg Prod.fst heq).symm, (congrArg (fun x => x.2.1) heq).symm, (congrArg (fun x => x.2.2) heq).symm⟩
  refine ⟨⟨?_, ?_, ?_⟩, ?_⟩
  · intro r' hr'
    obtain ⟨r, hr, heq⟩ := hold r' hr'
    rw [(hsame heq).2.2]
    exact h.paths.rendered r hr
  · intro r' hr'
    obtain ⟨r, hr, heq⟩ := hold r' hr'
    rw [(hsame heq).2.2, hnext]
    exact h.paths.known r hr
  · intro r' hr' q' hq' l m hsplit
    obtain ⟨r, hr, heq⟩ := hold r' hr'
    obtain ⟨q, hq, heq'⟩ := hold q' hq'
    rw [(hsame heq).2.2, (hsame heq').1] at hsplit
    rw [(hsame heq').2.2]
    exact h.paths.above r hr q hq l m hsplit
  · intro r' hr'
    obtain ⟨r, hr, heq⟩ := hold r' hr'
    rw [(hsame heq).2.1]
    exact h.titled r hr

theorem Savable.settled {db db' : Database} {p : Nat} {f : Project → Project} (h : db.Savable)
    (hrows : db'.projects.rows = db.projects.rows.map fun r => if r.id = p then f r else r)
    (hf : ∀ r, heading (f r) = heading r) (hnext : db'.projects.next = db.projects.next) : db'.Savable := by
  refine h.congr ?_ hnext
  rw [hrows, List.map_map]
  apply List.map_congr_left
  intro r _
  rw [Function.comp]
  split
  · exact hf r
  · rfl

/-- The rows of the project `p` are rewritten, and have the flag that the steps say. -/
theorem exact_settled (db db' : Database) {p : Nat} {f : Project → Project}
    (hrows : db'.projects.rows = db.projects.rows.map fun r => if r.id = p then f r else r)
    (hf : ∀ r ∈ db.projects.rows, r.id = p → (f r).id = p ∧ ((f r).built = some true ↔ db'.Marked p)) :
    (∀ r ∈ db'.projects.rows, r.built = some true ↔ db'.Marked r.id) ↔
      ∀ r ∈ db.projects.rows, r.id ≠ p → (r.built = some true ↔ db'.Marked r.id) := by
  rw [hrows, List.forall_mem_map]
  constructor
  · intro h r hr hne
    have hr' := h r hr
    rw [if_neg hne] at hr'
    exact hr'
  · intro h r hr
    by_cases hid : r.id = p
    · obtain ⟨hfid, hfbuilt⟩ := hf r hr hid
      rw [if_pos hid, hfid]
      exact hfbuilt
    · rw [if_neg hid]
      exact h r hr hid

end Database

/-! ## What the step actions write into the project -/

namespace StepsController

open Database

theorem valid_of_sameTitle {p q : Project} (h : p.SameTitle q) : q.valid = p.valid := by
  rw [Project.valid, Project.valid, h.1, h.2.1, h.2.2.1]

/-- `set_built` is never refused by a project that is valid. -/
theorem built_settledRow {p : Project} (hv : p.valid = true) (gate published built : Bool) (now : Nat) :
    (settledRow gate published built now p).built = some built := by
  unfold settledRow
  have hsame : p.SameTitle (if gate = true then p.republished published now else p) := by
    split
    · exact Project.sameTitle_republished published now p
    · exact ⟨rfl, rfl, rfl, rfl⟩
  generalize (if gate = true then p.republished published now else p) = q at hsame
  have hq : ({ q with built := some built } : Project).valid = true := (valid_of_sameTitle hsame).trans hv
  unfold Project.updated
  split
  · rename_i hstop
    rw [Bool.or_eq_true, Bool.not_eq_true', hq, decide_eq_true_eq] at hstop
    rcases hstop with hno | heq
    · cases hno
    · rw [← heq]
  · rfl

theorem heading_settledRow (gate published built : Bool) (now : Nat) (p : Project) :
    heading (settledRow gate published built now p) = heading p := by
  have hsame := sameTitle_settledRow gate published built now p
  rw [heading, heading, hsame.1, hsame.2.1, hsame.2.2.1]

theorem next_settle (db : Database) (gate : Bool) (now u i : Nat) (step : Option Nat) :
    ((if gate then db.setPublished now u i step else db).setBuilt now i).projects.next = db.projects.next := by
  rw [setBuilt, next_updateProject]
  split
  · rw [next_setPublished]
  · rfl

/-! ### The steps and the ids after an action -/

theorem standing_create {u : User} {now : Nat} {html : Bool} {p : Nat} {params : List StepAttr} {db : Database}
    (hok : (create u now html p params db).1 = .ok) :
    (create u now html p params db).2.projects.next = db.projects.next ∧ ∃ last,
      (create u now html p params db).2.steps.rows.map Step.standing =
        db.steps.rows.map Step.standing ++ [(db.steps.next, some p, last)] := by
  rcases create_cases u now html p params db with ⟨hno, -⟩ | ⟨project, s, -, hbuild, -, -, heq⟩
  · exact absurd hok hno
  have hs : s.projectId = some p := by
    obtain ⟨s', -, hs'⟩ := Option.map_eq_some_iff.mp hbuild
    rw [← hs']
  rw [heq]
  refine ⟨?_, s.last, ?_⟩
  · have hmedia : ∀ db₁ : Database, (if html = true then claimMedia db₁ project.id s.id else db₁).projects =
        db₁.projects := by
      intro db₁
      split
      · rfl
      · rfl
    unfold afterCreate
    dsimp only
    rw [hmedia, (touches_createQuestionActivity _ _ _ .projects (by decide) : _ = _),
      ((SameButSteps.updateStep _ _ _ _).touches .projects (by decide) : _ = _), touchProject, Table.next_modify,
      next_settle, (touches_createEdit _ _ _ _ _ _ .projects (by decide) : _ = _),
      (touches_touchCollections _ _ _ .projects (by decide) : _ = _),
      (touches_saveQuestion _ _ _ .projects (by decide) : _ = _)]
    rfl
  · rw [standing_afterCreate, insertStep, Table.rows_insert, List.map_append]
    congr 1
    show [(db.steps.next, s.projectId, s.last)] = _
    rw [hs]

/-- The question, the label and the edit are saved after the step. -/
theorem afterUpdate_spec (u : User) (now : Nat) (project : Project) (s : Step) (params : List StepAttr)
    (gone : Option Question) {db : Database} (h : ∀ r ∈ db.steps.rows, r.id = s.id → r.standing = s.standing) :
    (afterUpdate u now project s params gone db).2.projects.next = db.projects.next ∧
      (afterUpdate u now project s params gone db).2.steps.rows.map Step.standing = db.steps.rows.map Step.standing := by
  have hquestion := touches_updateQuestion db s.id params
  -- a second write of the step, for its label, has the same standing
  have hlabel := touches_relabel db now s params
  have hsteps : (relabel now s params db).steps.rows.map Step.standing = db.steps.rows.map Step.standing := by
    unfold relabel
    split
    · rw [rows_putStep, (hquestion .steps (by decide) : _ = _), List.map_map]
      apply List.map_congr_left
      intro r hr
      rw [Function.comp]
      by_cases hid : r.id = s.id
      · rw [if_pos (by exact hid), h r hr hid]
        rfl
      · rw [if_neg (by exact hid)]
    · rw [(hquestion .steps (by decide) : _ = _)]
  rcases afterUpdate_cases db u now project s params gone with ⟨-, heq⟩ | ⟨e, -, heq⟩
  · rw [heq]
    exact ⟨congrArg Table.next (hlabel .projects (by decide)), hsteps⟩
  · rw [heq]
    dsimp only
    refine ⟨?_, by rw [(touches_endEdit _ u now project s e gone .steps (by decide) : _ = _), hsteps]⟩
    rw [endEdit, (touches_announceQuestion _ _ _ _ .projects (by decide) : _ = _), next_settle]
    exact congrArg Table.next (hlabel .projects (by decide))

end StepsController

namespace StepAttr

/-- The submitted `last`, if there is one; the last one counts. -/
def lastOf (params : List StepAttr) (column : Option Bool) : Option Bool :=
  params.foldl (fun c a => match a with
    | last v => v
    | _ => c) column

theorem assignAll_last {db : Database} {params : List StepAttr} {s s' : Step} (h : assignAll db s params = some s') :
    s'.last = lastOf params s.last := by
  have hone : ∀ {s s' : Step} {a : StepAttr}, assign db s a = some s' → s'.last = lastOf [a] s.last := by
    intro s s' a ha
    cases a with
    | parentId v =>
      cases v with
      | none =>
        cases ha
        rfl
      | some q =>
        rw [assign] at ha
        split at ha
        · cases ha
          rfl
        · split at ha
          · cases ha
          · cases ha
            rfl
    | _ =>
      cases ha
      rfl
  induction params generalizing s with
  | nil =>
    cases h
    rfl
  | cons a params ih =>
    rw [assignAll, List.foldlM_cons] at h
    obtain ⟨s₁, h₁, h₂⟩ := Option.bind_eq_some_iff.mp h
    rw [ih h₂, hone h₁]
    rfl

end StepAttr

namespace StepsController

open Database

theorem standing_update {u : User} {now p : Nat} {id : Int} {params : List StepAttr} {db : Database}
    (hok : (update u now p id params db).1 = .ok) :
    (update u now p id params db).2.projects.next = db.projects.next ∧ ∃ s ∈ db.projectSteps p,
      findByPosition db p id = some s ∧ (update u now p id params db).2.steps.rows.map Step.standing =
        db.steps.rows.map fun r => if r.id = s.id then
          (s.id, StepAttr.projectOf params (some p), StepAttr.lastOf params s.last) else r.standing := by
  obtain ⟨project, s, s', -, hfind, hassign, heq⟩ := update_ok hok
  obtain ⟨hid, hproject⟩ := StepAttr.assignAll_ids hassign
  have hs : s ∈ db.projectSteps p := List.mem_of_find?_eq_some hfind
  rw [(mem_projectSteps.mp hs).2] at hproject
  have hbefore : Touches [.collections, .images, .videos, .questions, .decisions, .projects] db
      (beforeUpdate now p s params db) :=
    ((((touches_touchCollections db now p).mono (by decide)).trans ((touches_media _ _ _).mono (by decide))).trans
      ((touches_removeQuestion _ _ _).mono (by decide))).trans ((touches_projects _ _).mono (by decide))
  have hnext : (beforeUpdate now p s params db).projects.next = db.projects.next := by
    have htouch : Touches [.collections, .images, .videos, .questions, .decisions] db
        (removeQuestion (saveImages (touchCollections db now p) s.id) s.id params) :=
      (((touches_touchCollections db now p).mono (by decide)).trans ((touches_media _ _ _).mono (by decide))).trans
        ((touches_removeQuestion _ _ _).mono (by decide))
    rw [beforeUpdate, touchProject, Table.next_modify, (htouch .projects (by decide) : _ = _)]
  have hsteps : (beforeUpdate now p s params db).steps = db.steps := hbefore .steps (by decide)
  have hstored := rows_storeRow (beforeUpdate now p s params db) (some now) s'
  have hstore := (SameButSteps.storeRow (beforeUpdate now p s params db) (some now) s').touches
  rw [hsteps] at hstored
  -- the saved row is the only one with its id
  have hrow : ∀ r ∈ ((beforeUpdate now p s params db).storeRow (some now) s').steps.rows, r.id = s'.id →
      r.standing = s'.standing := by
    intro r hr hrid
    rw [hstored] at hr
    obtain ⟨r₀, -, heq₀⟩ := List.mem_map.mp hr
    rw [← heq₀] at hrid ⊢
    by_cases h₀ : r₀.id = s'.id
    · rw [if_pos h₀]
      rfl
    · rw [if_neg h₀] at hrid
      exact absurd hrid h₀
  obtain ⟨hafter, hstanding⟩ := afterUpdate_spec u now project s' params _ hrow
  rw [heq]
  refine ⟨?_, s, hs, hfind, ?_⟩
  · rw [hafter, (hstore .projects (by decide) : _ = _), hnext]
  · rw [hstanding, hstored, List.map_map]
    apply List.map_congr_left
    intro r _
    rw [Function.comp, hid]
    split
    · show (s'.id, s'.projectId, s'.last) = _
      rw [hid, hproject, StepAttr.assignAll_last hassign]
    · rfl

theorem next_destroy {u : User} {now p : Nat} {key : StepKey} {db : Database}
    (hok : (destroy u now p key db).1 = .ok) : (destroy u now p key db).2.projects.next = db.projects.next := by
  obtain ⟨project, d, -, -, -, -, -, heq⟩ := destroy_ok hok
  rw [heq, next_afterDestroy]
  have hbefore : Touches [.steps, .decisions, .activities, .news] db (forgetStep (beforeDestroy now p d db).2 d) :=
    ((touches_beforeDestroy db now p d).mono (by decide)).trans ((touches_forgetStep _ d).mono (by decide))
  rw [(touches_destroyStep _ now d .projects (by decide) : _ = _), (hbefore .projects (by decide) : _ = _)]

end StepsController

/-! ## Runs -/

/-- The requests that write steps or flags. -/
inductive BuiltRequest where
  | create (u : User) (now : Nat) (html : Bool) (p : Nat) (params : List StepAttr)
  | update (u : User) (now p : Nat) (id : Int) (params : List StepAttr)
  | destroy (u : User) (now p : Nat) (key : StepKey)
  | remix (u : User) (now p : Nat)

namespace BuiltRequest

open Database

def perform (db : Database) : BuiltRequest → Database
  | create u now html p params => (StepsController.create u now html p params db).2
  | update u now p id params => (StepsController.update u now p id params db).2
  | destroy u now p key => (StepsController.destroy u now p key db).2
  | remix u now p => (remixOrRaise u now p db).2

/-- A request to the controller runs to its end. -/
def Completed (db : Database) : BuiltRequest → Prop
  | create u now html p params => (StepsController.create u now html p params db).1 = .ok
  | update u now p id params => (StepsController.update u now p id params db).1 = .ok
  | destroy u now p key => (StepsController.destroy u now p key db).1 = .ok
  | remix _ _ _ => True

/-- The flag of another project than the one of the URL is not written: an update that moves a marked step there
needs it set, a deletion has to leave another marked step.  A remix has to come to the copies of all marked steps
and to be able to save them. -/
def KeepsFlags (db : Database) : BuiltRequest → Prop
  | create _ _ _ _ _ => True
  | update _ _ p id params => ∀ s, StepsController.findByPosition db p id = some s →
      (∀ q, StepAttr.projectOf params (some p) = some q → q < db.projects.next) ∧
        (StepAttr.projectOf params (some p) = some p ∨ StepAttr.lastOf params s.last ≠ some true ∨
          ∀ r ∈ db.projects.rows, StepAttr.projectOf params (some p) = some r.id → r.built = some true)
  | destroy _ _ p key => ∀ d, db.findStep key = some d → d.projectId = some p ∨ d.last ≠ some true ∨
      ∃ s ∈ db.steps.rows, s.id ≠ d.id ∧ s.projectId = d.projectId ∧ s.last = some true
  | remix _ now p => ∀ project, db.projects.find? p = some project →
      remixValid (remixProject project now db.projects.next) (db.projectSteps p) = true →
      ∀ s ∈ db.projectSteps p, s.last = some true → s ∈ db.unmarked p (db.orderedSteps p)

section Steps

variable {db : Database} {u : User} {now p : Nat}

theorem savable_remix (h : db.Savable) : (remixOrRaise u now p db).2.Savable := by
  rcases db.remixOrRaise_project u now p with ⟨heq, -⟩ | ⟨project, description, hproject, hvalid, hrows, hnext⟩
  · rw [heq]
    exact h
  · refine ⟨h.paths.concat hrows hnext rfl (Or.inr ⟨project, (Table.find?_eq_some.mp hproject).1, rfl⟩), ?_⟩
    rw [hrows, List.forall_mem_append, List.forall_mem_singleton]
    refine ⟨h.titled, ?_⟩
    simp only [remixValid, Bool.and_eq_true, Bool.not_eq_true', decide_eq_true_eq] at hvalid
    exact hvalid.1.1

theorem savable_perform {r : BuiltRequest} (h : db.Savable) (hc : r.Completed db) : (perform db r).Savable := by
  cases r with
  | create u now html p params =>
    obtain ⟨project, built, -, -, hrows, -⟩ := StepsController.rows_create hc
    exact h.settled hrows (fun r => StepsController.heading_settledRow _ _ _ _ _) (StepsController.standing_create hc).1
  | update u now p id params =>
    obtain ⟨project, built, -, -, hrows, -⟩ := StepsController.rows_update hc
    exact h.settled hrows (fun r => StepsController.heading_settledRow _ _ _ _ _) (StepsController.standing_update hc).1
  | destroy u now p key =>
    obtain ⟨project, d, -, -, -, hrows, -⟩ := StepsController.rows_destroy hc
    exact h.settled hrows (fun r => StepsController.heading_settledRow _ _ _ _ _) (StepsController.next_destroy hc)
  | remix u now p => exact savable_remix h

/-- A new step is below the project whose flag is written. -/
theorem flags_create {html : Bool} {params : List StepAttr} (h : db.Savable) (hflags : db.BuiltFlags)
    (hok : (StepsController.create u now html p params db).1 = .ok) :
    (StepsController.create u now html p params db).2.BuiltFlags := by
  obtain ⟨project, built, hproject, hbuilt, hrows, -⟩ := StepsController.rows_create hok
  obtain ⟨hnext, last, hsteps⟩ := StepsController.standing_create hok
  have hp : p < db.projects.next := by
    obtain ⟨hrow, hid⟩ := Table.find?_eq_some.mp hproject
    rw [← hid]
    exact (db.projects.bound project hrow).2
  generalize (StepsController.create u now html p params db).2 = db' at *
  constructor
  · refine (exact_settled db db' hrows fun r hr hid => ⟨?_, ?_⟩).mpr fun r hr hne => ?_
    · exact (congrArg Prod.fst (StepsController.heading_settledRow _ _ _ _ _)).trans hid
    · show (StepsController.settledRow _ _ _ _ _).built = _ ↔ _
      rw [StepsController.built_settledRow (h.valid hr), Option.some.injEq, hbuilt, any_last_iff]
    · rw [hflags.exact r hr]
      exact (marked_append hsteps (fun x hx => by rw [List.mem_singleton.mp hx]) hne).symm
  · rw [owned_iff, hsteps, hnext, List.forall_mem_append, List.forall_mem_singleton]
    refine ⟨owned_iff.mp hflags.owned, fun q hq => ?_⟩
    rw [← Option.some.inj hq]
    exact hp

/-- The updated step may be in another project afterwards. -/
theorem flags_update_iff {id : Int} {params : List StepAttr} (h : db.Savable) (hflags : db.BuiltFlags)
    (hok : (StepsController.update u now p id params db).1 = .ok) :
    (BuiltRequest.update u now p id params).KeepsFlags db ↔ (StepsController.update u now p id params db).2.BuiltFlags := by
  obtain ⟨project, built, -, hbuilt, hrows, -⟩ := StepsController.rows_update hok
  obtain ⟨hnext, s, hs, hfind, hsteps⟩ := StepsController.standing_update hok
  obtain ⟨hrow, hp⟩ := mem_projectSteps.mp hs
  generalize (StepsController.update u now p id params db).2 = db' at *
  have hkeeps : (BuiltRequest.update u now p id params).KeepsFlags db ↔
      (∀ q, StepAttr.projectOf params (some p) = some q → q < db.projects.next) ∧
        (StepAttr.projectOf params (some p) = some p ∨ StepAttr.lastOf params s.last ≠ some true ∨
          ∀ r ∈ db.projects.rows, StepAttr.projectOf params (some p) = some r.id → r.built = some true) := by
    constructor
    · exact fun hk => hk s hfind
    · intro hk s' hs'
      rw [hfind] at hs'
      cases hs'
      exact hk
  rw [hkeeps]
  clear hkeeps
  generalize StepAttr.projectOf params (some p) = q at *
  generalize StepAttr.lastOf params s.last = last at *
  have hmarked : ∀ i, i ≠ p → (db'.Marked i ↔ db.Marked i ∨ q = some i ∧ last = some true) := fun i =>
    marked_rewritten hs hsteps
  have hexact := exact_settled db db' hrows fun r hr hid => ⟨?_, ?_⟩
  · constructor
    · intro hk
      refine ⟨hexact.mpr fun r hr hne => ?_, ?_⟩
      · rw [hmarked r.id hne, hflags.exact r hr]
        refine ⟨Or.inl, fun hc => hc.elim (fun hold => hold) fun hnew => ?_⟩
        rcases hk.2 with hown | hno | hset
        · rw [hown] at hnew
          exact absurd (Option.some.inj hnew.1).symm hne
        · exact absurd hnew.2 hno
        · exact (hflags.exact r hr).mp (hset r hr hnew.1)
      · rw [owned_iff, hsteps, hnext, List.forall_mem_map]
        intro r hr
        split
        · exact hk.1
        · exact hflags.owned r hr
    -- the flag that is not written has to be right already
    · intro hafter
      have hmem : (s.id, q, last) ∈ db'.steps.rows.map Step.standing := by
        rw [hsteps]
        exact List.mem_map.mpr ⟨s, hrow, if_pos rfl⟩
      refine ⟨hnext ▸ owned_iff.mp hafter.owned _ hmem, ?_⟩
      by_cases hown : q = some p
      · exact Or.inl hown
      by_cases hlast : last = some true
      · refine Or.inr (Or.inr fun r hr hqr => ?_)
        have hne : r.id ≠ p := by
          intro heq
          rw [heq] at hqr
          exact hown hqr
        exact (hexact.mp hafter.exact r hr hne).mpr ((hmarked r.id hne).mpr (Or.inr ⟨hqr, hlast⟩))
      · exact Or.inr (Or.inl hlast)
  · exact (congrArg Prod.fst (StepsController.heading_settledRow _ _ _ _ _)).trans hid
  · have hv : ({ r with updatedAt := now } : Project).valid = true := (h.valid hr : r.valid = true)
    rw [StepsController.built_settledRow hv, Option.some.injEq, hbuilt, any_last_iff]

/-- The deleted step may be in another project. -/
theorem flags_destroy_iff {key : StepKey} (h : db.Savable) (hflags : db.BuiltFlags)
    (hok : (StepsController.destroy u now p key db).1 = .ok) :
    (BuiltRequest.destroy u now p key).KeepsFlags db ↔ (StepsController.destroy u now p key db).2.BuiltFlags := by
  have hnext := StepsController.next_destroy hok
  obtain ⟨-, d', -, hd', hallowed, -⟩ := StepsController.destroy_ok hok
  obtain ⟨project, d, -, hd, hsteps, hrows, -⟩ := StepsController.rows_destroy hok
  obtain rfl : d = d' := Option.some.inj (hd.symm.trans hd')
  have hrow := mem_of_findStep hd
  have hmarked : ∀ q, (StepsController.destroy u now p key db).2.Marked q ↔
      ∃ s ∈ db.steps.rows, s.id ≠ d.id ∧ s.projectId = some q ∧ s.last = some true := fun q => marked_removed hsteps
  -- the flag is written for the project of the address, from what the steps say without this one
  have hbuilt : StepsController.builtWithout db p d = true ↔ (StepsController.destroy u now p key db).2.Marked p := by
    rw [hmarked, StepsController.builtWithout, List.any_eq_true]
    apply exists_congr
    intro s
    rw [mem_projectSteps, Bool.and_eq_true, bne_iff_ne, beq_iff_eq]
    exact ⟨fun hs => ⟨hs.1.1, hs.2.1, hs.1.2, hs.2.2⟩, fun hs => ⟨⟨hs.1, hs.2.2.1⟩, hs.2.1, hs.2.2.2⟩⟩
  have hkeeps : (BuiltRequest.destroy u now p key).KeepsFlags db ↔ d.projectId = some p ∨ d.last ≠ some true ∨
      ∃ s ∈ db.steps.rows, s.id ≠ d.id ∧ s.projectId = d.projectId ∧ s.last = some true := by
    constructor
    · exact fun hk => hk d hd
    · intro hk d' hd'
      rw [hd] at hd'
      cases hd'
      exact hk
  rw [hkeeps]
  generalize (StepsController.destroy u now p key db).2 = db' at *
  have hexact := exact_settled db db' hrows fun r hr hid => ⟨?_, ?_⟩
  · constructor
    · intro hk
      refine ⟨hexact.mpr fun r hr hne => ?_, ?_⟩
      · rw [hmarked, hflags.exact r hr]
        constructor
        · intro hm
          obtain ⟨s, hs, hproject, hlast⟩ := hm
          by_cases hid : s.id = d.id
          · obtain rfl : s = d := Table.eq_of_key hs hrow hid
            rcases hk with hown | hno | ⟨t, ht, htid, htproject, htlast⟩
            · rw [hown] at hproject
              exact absurd (Option.some.inj hproject).symm hne
            · exact absurd hlast hno
            · exact ⟨t, ht, htid, htproject.trans hproject, htlast⟩
          · exact ⟨s, hs, hid, hproject, hlast⟩
        · intro hm
          obtain ⟨s, hs, -, hm⟩ := hm
          exact ⟨s, hs, hm⟩
      · rw [owned_iff, hsteps, hnext]
        intro x hx
        exact owned_iff.mp hflags.owned x (List.mem_filter.mp hx).1
    · intro hafter
      by_cases hown : d.projectId = some p
      · exact Or.inl hown
      by_cases hlast : d.last = some true
      · -- the user is an author of the project of the step
        obtain ⟨q, hq, r, hr, hrid⟩ : ∃ q, d.projectId = some q ∧ ∃ r ∈ db.projects.rows, r.id = q := by
          obtain ⟨r, hr, -⟩ := Option.map_eq_some_iff.mp hallowed
          obtain ⟨q, hq, hfind⟩ := Option.bind_eq_some_iff.mp hr
          obtain ⟨hmem, hid⟩ := Table.find?_eq_some.mp hfind
          exact ⟨q, hq, r, hmem, hid⟩
        have hne : r.id ≠ p := by
          intro heq
          rw [hq, ← hrid, heq] at hown
          exact hown rfl
        -- the project of the step keeps its flag, so another step has to mark it
        have hset : r.built = some true := (hflags.exact r hr).mpr ⟨d, hrow, by rw [hq, hrid], hlast⟩
        have hleft := (hexact.mp hafter.exact r hr hne).mp hset
        rw [hmarked, hrid, ← hq] at hleft
        exact Or.inr (Or.inr hleft)
      · exact Or.inr (Or.inl hlast)
  · exact (congrArg Prod.fst (StepsController.heading_settledRow _ _ _ _ _)).trans hid
  · rw [StepsController.built_settledRow (h.valid hr), Option.some.injEq, hbuilt]

/-- The new project is not built, and neither are the steps that lost their mark. -/
theorem flags_remix_iff (hflags : db.BuiltFlags) :
    (BuiltRequest.remix u now p).KeepsFlags db ↔ (remixOrRaise u now p db).2.BuiltFlags := by
  have hnew : db.projectSteps db.projects.next = [] := by
    rw [List.eq_nil_iff_forall_not_mem]
    intro s hs
    obtain ⟨hrow, hp⟩ := mem_projectSteps.mp hs
    exact absurd (hflags.owned s hrow _ hp) (Nat.lt_irrefl _)
  rcases db.remixOrRaise_project u now p with ⟨heq, hno⟩ | ⟨project, description, hproject, hvalid, hrows, hnext⟩
  · rw [heq]
    refine iff_of_true (fun project hproject hvalid => ?_) hflags
    rw [hno project hproject] at hvalid
    cases hvalid
  · obtain ⟨c, hsteps⟩ := standing_remixOrRaise u hproject hvalid hnew
    generalize (remixOrRaise u now p db).2 = db' at *
    -- the marks of the projects that were there, and of the new one
    have hold : ∀ i, i < db.projects.next → (db'.Marked i ↔ db.Marked i) := fun i hi =>
      marked_append hsteps (fun x hx => by
        obtain ⟨s, -, heq⟩ := List.mem_map.mp hx
        rw [← heq]) (Nat.ne_of_lt hi)
    have hcopies : db'.Marked db.projects.next ↔
        ∃ s ∈ db.projectSteps p, s.last = some true ∧ s ∉ db.unmarked p (db.orderedSteps p) := by
      rw [marked_iff, hsteps]
      constructor
      · intro hx
        obtain ⟨x, hx, hm⟩ := hx
        rcases List.mem_append.mp hx with hx | hx
        · obtain ⟨s, hs, heq⟩ := List.mem_map.mp hx
          rw [← heq] at hm
          exact absurd (hflags.owned s hs _ hm.1) (Nat.lt_irrefl _)
        · obtain ⟨s, hs, heq⟩ := List.mem_map.mp hx
          rw [← heq] at hm
          have hlast := hm.2
          split at hlast
          · cases hlast
          · rename_i hc
            exact ⟨s, hs, hlast, fun hmem => hc ⟨hmem, hlast⟩⟩
      · intro hx
        obtain ⟨s, hs, hlast, hno⟩ := hx
        exact ⟨_, List.mem_append_right _ (List.mem_map_of_mem hs), rfl, by rw [if_neg fun hc => hno hc.1, hlast]⟩
    constructor
    · intro hk
      constructor
      · rw [hrows, List.forall_mem_append, List.forall_mem_singleton]
        refine ⟨fun r hr => ?_, ?_⟩
        · rw [hold r.id (db.projects.bound r hr).2]
          exact hflags.exact r hr
        · show some false = some true ↔ db'.Marked db.projects.next
          rw [hcopies]
          refine iff_of_false nofun fun hm => ?_
          obtain ⟨s, hs, hlast, hno⟩ := hm
          exact hno (hk project hproject hvalid s hs hlast)
      · rw [owned_iff, hsteps, hnext, List.forall_mem_append]
        refine ⟨fun x hx q hq => Nat.lt_succ_of_lt (owned_iff.mp hflags.owned x hx q hq), ?_⟩
        refine List.forall_mem_map.mpr fun s _ q hq => ?_
        rw [← Option.some.inj hq]
        exact Nat.lt_succ_self _
    · intro hafter project' hproject' _ s hs hlast
      have hlastRow := hafter.exact { remixProject project now db.projects.next with description } (by rw [hrows]; simp)
      by_contra hno
      exact absurd (hlastRow.mpr (hcopies.mpr ⟨s, hs, hlast, hno⟩)) nofun

end Steps

theorem keepsFlags_iff {db : Database} {r : BuiltRequest} (h : db.Savable) (hflags : db.BuiltFlags)
    (hc : r.Completed db) : r.KeepsFlags db ↔ (perform db r).BuiltFlags := by
  cases r with
  | create u now html p params => exact iff_of_true trivial (flags_create h hflags hc)
  | update u now p id params => exact flags_update_iff h hflags hc
  | destroy u now p key => exact flags_destroy_iff h hflags hc
  | remix u now p => exact flags_remix_iff hflags

end BuiltRequest

namespace Database

/-- Newly created projects. -/
theorem flags_of_new {db : Database} (hsteps : db.steps.rows = [])
    (hnew : ∀ r ∈ db.projects.rows, r.built ≠ some true ∧ r.remixAncestry = none ∧ blank r.title = false ∧
      r.title.length ≤ 40) : db.Savable ∧ db.BuiltFlags := by
  refine ⟨⟨.of_none fun r hr => (hnew r hr).2.1, fun r hr => (hnew r hr).2.2⟩, ⟨fun r hr => ?_, ?_⟩⟩
  · refine iff_of_false (hnew r hr).1 fun hm => ?_
    obtain ⟨s, hs, -⟩ := hm
    rw [hsteps] at hs
    cases hs
  · intro s hs
    rw [hsteps] at hs
    cases hs

end Database

namespace BuiltRequest

open Database

instance (db : Database) (r : BuiltRequest) : Decidable (r.Completed db) := by
  unfold Completed
  cases r <;> infer_instance

instance (db : Database) (r : BuiltRequest) : Decidable (r.KeepsFlags db) :=
  match r with
  | create _ _ _ _ _ => .isTrue trivial
  | update _ _ p id params => inferInstanceAs (Decidable (∀ s ∈ StepsController.findByPosition db p id,
      (∀ q ∈ StepAttr.projectOf params (some p), q < db.projects.next) ∧
        (StepAttr.projectOf params (some p) = some p ∨ StepAttr.lastOf params s.last ≠ some true ∨
          ∀ r ∈ db.projects.rows, StepAttr.projectOf params (some p) = some r.id → r.built = some true)))
  | destroy _ _ p key => inferInstanceAs (Decidable (∀ d ∈ db.findStep key, d.projectId = some p ∨ d.last ≠ some true ∨
      ∃ s ∈ db.steps.rows, s.id ≠ d.id ∧ s.projectId = d.projectId ∧ s.last = some true))
  | remix _ now p => inferInstanceAs (Decidable (∀ project ∈ db.projects.find? p,
      remixValid (remixProject project now db.projects.next) (db.projectSteps p) = true →
      ∀ s ∈ db.projectSteps p, s.last = some true → s ∈ db.unmarked p (db.orderedSteps p)))

end BuiltRequest

namespace Database

/-- A project that was just created. -/
def newLamp : Database := oneProject "Lamp".toList none

theorem flags_newLamp : newLamp.Savable ∧ newLamp.BuiltFlags := flags_of_new rfl (by decide)

end Database
