import BuildInProgress.Lib.Rows
import BuildInProgress.RootDestroy
import BuildInProgress.StepAuthorization

/-!
# What a request writes into the steps of other people's projects

`ability.rb` lets the authors of a project and the admins change its steps.  `sort`, `update_ancestry` and
`reset_started_editing` ask for no permission, `update` lets the step be moved into any project, and
`destroy` asks about the step and then rewrites the project of the URL.  For each action the condition
under which the rows of other people's projects end as they were.
-/

open Text Ancestry

/-- A write request to the steps controller. -/
inductive StepAction where
  | create (html : Bool) (p : Nat) (params : List StepAttr)
  | update (p : Nat) (id : Int) (params : List StepAttr)
  | destroy (p : Nat) (key : StepKey)
  | sort (p : Nat) (ids : List Nat)
  | updateAncestry (p : Nat) (entries : List MapEntry)
  | resetStartedEditing (p user step : Nat)

namespace StepsController

/-- The last place at which the list names the step is the one it has. -/
def SortRepeats (ids : List Nat) (s : Step) : Prop :=
  s.id ∈ ids → s.position = ((ids.length - ids.reverse.idxOf s.id : Nat) : Int)

/-- The entries of the map for the step. -/
def entriesOf (entries : List MapEntry) (s : Step) : List MapEntry :=
  entries.filter fun e => s.id = (toI e.key).toNat

/-- Those of them whose ancestry the step can have. -/
def validEntriesOf (entries : List MapEntry) (s : Step) : List MapEntry :=
  (entriesOf entries s).filter fun e => ({ s with ancestry := some e.ancestry } : Step).valid

/-- The last position and the last ancestry that can be written are the ones the step has.  Of a step that is
not valid nothing is written before a valid ancestry. -/
def MapRepeats (entries : List MapEntry) (s : Step) : Prop :=
  if s.valid = true then
    (∀ e ∈ (entriesOf entries s).getLast?, s.position = e.position) ∧
      ∀ e ∈ (validEntriesOf entries s).getLast?, s.ancestry = some e.ancestry
  else validEntriesOf entries s = []

/-- `destroy` comes to the step itself: no other step of the project makes the loop of a root raise. -/
def LoopEnds (db : Database) (p : Nat) (d : Step) : Prop :=
  d.ancestry = some ['0'] → ∀ s ∈ db.projectSteps p, s.id ≠ d.id → s.ancestry ≠ none

/-- The loop of a root changes nothing in the project: in a row it saves the substitution finds nothing, and the
row has the current time already. -/
def LoopRepeats (now : Nat) (db : Database) (p : Nat) (d : Step) : Prop :=
  d.ancestry = some ['0'] → ∀ s ∈ (db.projectSteps p).takeWhile (·.ancestry.isSome),
    (rerootedRow now d s).valid = true → s.ancestry.map (rerooted d) = s.ancestry ∧ s.updatedAt = now

/-- No step of the project stands where the loop over the positions looks. -/
def NoneBehind (db : Database) (p : Nat) (d : Step) : Prop :=
  ∀ s ∈ db.projectSteps p, d.position < s.position → ((db.projectSteps p).length : Int) < s.position

instance (ids : List Nat) (s : Step) : Decidable (SortRepeats ids s) := inferInstanceAs (Decidable (_ → _))

instance (entries : List MapEntry) (s : Step) : Decidable (MapRepeats entries s) :=
  inferInstanceAs (Decidable (ite _ _ _))

instance (db : Database) (p : Nat) (d : Step) : Decidable (LoopEnds db p d) := inferInstanceAs (Decidable (_ → _))

instance (now : Nat) (db : Database) (p : Nat) (d : Step) : Decidable (LoopRepeats now db p d) :=
  inferInstanceAs (Decidable (_ → _))

instance (db : Database) (p : Nat) (d : Step) : Decidable (NoneBehind db p d) :=
  inferInstanceAs (Decidable (∀ s ∈ db.projectSteps p, _))

end StepsController

namespace StepAction

open StepsController

def perform (u : User) (now : Nat) (db : Database) : StepAction → Database
  | create html p params => (StepsController.create u now html p params db).2
  | update p id params => (StepsController.update u now p id params db).2
  | destroy p key => (StepsController.destroy u now p key db).2
  | sort p ids => (StepsController.sort p ids db).2
  | updateAncestry p entries => (StepsController.updateAncestry p entries db).2
  | resetStartedEditing p user step => (StepsController.resetStartedEditing p user step db).2

/-- The request changes the steps of a project, or the edits of others in it, only for its authors and admins. -/
def WritesAuthorized (u : User) (now : Nat) (db : Database) (a : StepAction) : Prop :=
  ∀ p, (db.projects.find? p).isSome = true →
    (a.perform u now db).projectSteps p ≠ db.projectSteps p ∨
      (a.perform u now db).othersEdits p u ≠ db.othersEdits p u → db.MayWrite u p

/-- What the request writes outside the permission it asks for belongs to the user, or is there already. -/
def KeepsToOwn (u : User) (now : Nat) (db : Database) : StepAction → Prop
  | create _ _ _ => True
  | update p id params =>
    (db.projects.find? p).isSome = true → ∀ s ∈ findByPosition db p id, Ability.updateStep db u s = some true →
      ∀ s' ∈ StepAttr.assignAll db s params, s'.valid = true →
        db.OwnColumn u (StepAttr.projectOf params (some p))
  | destroy p key =>
    (db.projects.find? p).isSome = true → ∀ d ∈ db.findStep key, Ability.destroyStep db u d = some true →
      rootGuard db p d = false →
        (db.OwnColumn u (some p) ∨ LoopRepeats now db p d ∧ (LoopEnds db p d → NoneBehind db p d)) ∧
        (LoopEnds db p d →
          (∀ s ∈ db.steps.rows, d.isDescendant s = true → db.OwnColumn u s.projectId) ∧
          ∀ e ∈ db.edits.rows, e.stepId = some d.id → e.userId ≠ some u.id → db.OwnColumn u e.projectId)
  | sort p ids =>
    (db.projects.find? p).isSome = true → ∀ s ∈ db.steps.rows, db.OwnColumn u s.projectId ∨ SortRepeats ids s
  | updateAncestry p entries =>
    (db.projects.find? p).isSome = true → ∀ s ∈ db.steps.rows, db.OwnColumn u s.projectId ∨ MapRepeats entries s
  | resetStartedEditing p user step =>
    (db.projects.find? p).isSome = true → user ≠ u.id → ∀ e ∈ db.editOf user step,
      db.OwnColumn u e.projectId ∨ e.temp ≠ some true ∧ e.startedEditingAt = none

instance (u : User) (now : Nat) (db : Database) : ∀ a, Decidable (KeepsToOwn u now db a)
  | create _ _ _ => .isTrue trivial
  | update _ _ _ => inferInstanceAs (Decidable (_ → ∀ s ∈ _, _ → ∀ s' ∈ _, _ → _))
  | destroy _ _ => inferInstanceAs (Decidable (_ → ∀ d ∈ _, _ → _ → (_ ∨ _ ∧ _) ∧ (_ → _ ∧ _)))
  | sort _ _ => inferInstanceAs (Decidable (_ → ∀ s ∈ _, _ ∨ _))
  | updateAncestry _ _ => inferInstanceAs (Decidable (_ → ∀ s ∈ _, _ ∨ _))
  | resetStartedEditing _ _ _ => inferInstanceAs (Decidable (_ → _ → ∀ e ∈ _, _ ∨ _ ∧ _))

end StepAction

namespace Database

/-- A project that exists and that the user may not write. -/
def Foreign (db : Database) (u : User) (q : Nat) : Prop := (db.projects.find? q).isSome = true ∧ ¬ db.MayWrite u q

variable {db db' : Database} {u : User}

theorem ownColumn_iff {column : Option Nat} : db.OwnColumn u column ↔ ∀ q, db.Foreign u q → column ≠ some q := by
  constructor
  · intro h q hq hc
    exact hq.2 (h q hc hq.1)
  · intro h q hc hq
    by_contra hno
    exact h q ⟨hq, hno⟩ hc

/-- What holds of the rows of every foreign project. -/
theorem forall_foreign_iff {P : Step → Prop} :
    (∀ q, db.Foreign u q → ∀ s ∈ db.projectSteps q, P s) ↔ ∀ s ∈ db.steps.rows, db.OwnColumn u s.projectId ∨ P s := by
  constructor
  · intro h s hs
    by_cases hown : db.OwnColumn u s.projectId
    · exact Or.inl hown
    · rw [ownColumn_iff] at hown
      push Not at hown
      obtain ⟨q, hq, hcol⟩ := hown
      exact Or.inr (h q hq s (mem_projectSteps.mpr ⟨hs, hcol⟩))
  · intro h q hq s hs
    obtain ⟨hrow, hcol⟩ := mem_projectSteps.mp hs
    exact (h s hrow).resolve_left fun hown => ownColumn_iff.mp hown q hq hcol

/-- Rows that stay in their projects leave a project as it is when none of its rows changes. -/
theorem projectSteps_eq_iff {f : Step → Step} (hrows : db'.steps.rows = db.steps.rows.map f)
    (hf : ∀ s, (f s).projectId = s.projectId) (q : Nat) :
    db'.projectSteps q = db.projectSteps q ↔ ∀ s ∈ db.projectSteps q, f s = s := by
  have hmap : db'.projectSteps q = (db.projectSteps q).map f := by
    rw [projectSteps, hrows, List.filter_map, projectSteps]
    congr 1
    apply List.filter_congr
    intro s _
    simp [hf]
  rw [hmap]
  constructor
  · intro h s hs
    exact List.map_inj_left.mp (h.trans (List.map_id _).symm) s hs
  · exact List.map_eq_self_of_forall

end Database

namespace StepAction

open Database

theorem writesAuthorized_iff {u : User} {now : Nat} {db : Database} {a : StepAction} :
    a.WritesAuthorized u now db ↔ ∀ q, db.Foreign u q →
      (a.perform u now db).projectSteps q = db.projectSteps q ∧
        (a.perform u now db).othersEdits q u = db.othersEdits q u := by
  constructor
  · intro h q hq
    by_contra hno
    exact hq.2 (h q hq.1 (not_and_or.mp hno))
  · intro h q hq hdiff
    by_contra hno
    obtain ⟨hsteps, hedits⟩ := h q ⟨hq, hno⟩
    exact hdiff.elim (fun hd => hd hsteps) fun hd => hd hedits

end StepAction

namespace StepsController

open Database

variable {db : Database} {u : User} {now p q : Nat}

/-! ## Sorting -/

theorem rows_sortFrom_writeFrom (index : Nat) (ids : List Nat) (db : Database) :
    (sortFrom index ids db).steps.rows =
      Rows.writeFrom Step.id (fun index s => { s with position := (index : Int) + 1 }) index ids db.steps.rows := by
  induction ids generalizing index db with
  | nil => rfl
  | cons i ids ih =>
    unfold sortFrom
    rw [ih, Rows.writeFrom]
    rfl

/-- A row after `Step.update_all` for each listed id. -/
theorem rows_sort_last (ids : List Nat) (db : Database) :
    (sortFrom 0 ids db).steps.rows = db.steps.rows.map fun s =>
      if s.id ∈ ids then { s with position := ((ids.length - ids.reverse.idxOf s.id : Nat) : Int) } else s := by
  rw [rows_sortFrom_writeFrom, Rows.writeFrom_eq (by intro _ _; rfl) (by intro _ _ _; rfl)]
  refine List.map_congr_left fun s _ => ?_
  by_cases hm : s.id ∈ ids
  · have hlt := List.idxOf_lt_length_of_mem (List.mem_reverse.mpr hm)
    rw [List.length_reverse] at hlt
    rw [if_pos hm, if_pos hm, Rows.lastIdxOf, show ids.length - ids.reverse.idxOf s.id =
      ids.length - 1 - ids.reverse.idxOf s.id + 1 by omega]
    rfl
  · rw [if_neg hm, if_neg hm]

theorem sort_same_iff (ids : List Nat) :
    (sort p ids db).2.projectSteps q = db.projectSteps q ↔
      ((db.projects.find? p).isSome = true → ∀ s ∈ db.projectSteps q, SortRepeats ids s) := by
  rw [sort]
  cases hproject : db.projects.find? p with
  | none => simp
  | some project =>
    dsimp only
    rw [projectSteps_eq_iff (rows_sort_last ids db) (by intro s; split <;> rfl)]
    simp only [Option.isSome_some, forall_const]
    refine forall₂_congr fun s _ => ?_
    rw [SortRepeats]
    by_cases hm : s.id ∈ ids
    · rw [if_pos hm]
      constructor
      · intro h _
        rw [← h]
      · intro h
        rw [← h hm]
    · rw [if_neg hm]
      exact ⟨fun _ h => absurd h hm, fun _ => rfl⟩

/-! ## The map -/

/-- What an entry writes into a valid row. -/
theorem remapped_of_valid {s : Step} (hs : s.valid = true) {e : MapEntry} (hid : s.id = (toI e.key).toNat) :
    remapped s e = { s with
      position := e.position
      ancestry := if ({ s with ancestry := some e.ancestry } : Step).valid = true then some e.ancestry
        else s.ancestry } := by
  have hpos : (s.updated none fun s => { s with position := e.position }) = { s with position := e.position } :=
    if_pos hs
  rw [remapped, if_pos hid, hpos, Step.updated]
  have hv : ({ s with position := e.position, ancestry := some e.ancestry } : Step).valid =
      ({ s with ancestry := some e.ancestry } : Step).valid := rfl
  dsimp only
  rw [hv]
  split <;> rfl

theorem remapped_of_invalid {s : Step} (hs : s.valid ≠ true) {e : MapEntry} (hid : s.id = (toI e.key).toNat) :
    remapped s e = if ({ s with ancestry := some e.ancestry } : Step).valid = true then
      { s with ancestry := some e.ancestry } else s := by
  have hpos : (s.updated none fun s => { s with position := e.position }) = s := if_neg hs
  rw [remapped, if_pos hid, hpos, Step.updated]
  rfl

theorem entriesOf_cons (e : MapEntry) (es : List MapEntry) (s : Step) :
    entriesOf (e :: es) s = if s.id = (toI e.key).toNat then e :: entriesOf es s else entriesOf es s := by
  rw [entriesOf, List.filter_cons]
  simp only [decide_eq_true_eq]
  rfl

theorem validEntriesOf_cons (e : MapEntry) (es : List MapEntry) (s : Step) :
    validEntriesOf (e :: es) s =
      if s.id = (toI e.key).toNat ∧ ({ s with ancestry := some e.ancestry } : Step).valid = true then
        e :: validEntriesOf es s
      else validEntriesOf es s := by
  rw [validEntriesOf, entriesOf_cons]
  by_cases hid : s.id = (toI e.key).toNat
  · rw [if_pos hid, List.filter_cons, ← validEntriesOf]
    simp only [hid, true_and]
  · rw [if_neg hid, if_neg fun h => hid h.1, validEntriesOf]

/-- Which entries count does not depend on the place the step has. -/
theorem validEntriesOf_congr {s s' : Step} (hid : s'.id = s.id) (hname : s'.name = s.name) (es : List MapEntry) :
    validEntriesOf es s' = validEntriesOf es s := by
  rw [validEntriesOf, validEntriesOf, entriesOf, entriesOf, hid]
  apply List.filter_congr
  intro e _
  simp only [Step.valid, Step.validNew, hname]

theorem remapped_valid {s : Step} (hs : s.valid = true) (e : MapEntry) : (remapped s e).valid = true := by
  by_cases hid : s.id = (toI e.key).toNat
  · rw [remapped_of_valid hs hid]
    by_cases hv : ({ s with ancestry := some e.ancestry } : Step).valid = true
    · rw [if_pos hv]
      exact hv
    · rw [if_neg hv]
      exact hs
  · rwa [remapped, if_neg hid]

theorem foldl_remapped_valid {s : Step} (hs : s.valid = true) (es : List MapEntry) :
    (es.foldl remapped s).valid = true := by
  induction es generalizing s with
  | nil => exact hs
  | cons e es ih => exact ih (remapped_valid hs e)

/-- The last entry gives a valid row its position, the last one with a valid ancestry its ancestry. -/
theorem foldl_remapped_of_valid {s : Step} (hs : s.valid = true) (es : List MapEntry) :
    es.foldl remapped s = { s with
      position := ((entriesOf es s).getLast?.map (·.position)).getD s.position
      ancestry := ((validEntriesOf es s).getLast?.map (some ·.ancestry)).getD s.ancestry } := by
  induction es generalizing s with
  | nil => rfl
  | cons e es ih =>
    have hkeep : (remapped s e).id = s.id ∧ (remapped s e).name = s.name := by
      refine ⟨remapped_id s e, ?_⟩
      by_cases hid : s.id = (toI e.key).toNat
      · rw [remapped_of_valid hs hid]
      · rw [remapped, if_neg hid]
    have hentries : entriesOf es (remapped s e) = entriesOf es s := by rw [entriesOf, hkeep.1, entriesOf]
    rw [List.foldl_cons, ih (remapped_valid hs e), hentries, validEntriesOf_congr hkeep.1 hkeep.2,
      entriesOf_cons, validEntriesOf_cons]
    by_cases hid : s.id = (toI e.key).toNat
    · rw [if_pos hid, remapped_of_valid hs hid, Rows.map_getLast?_cons, Option.getD_some]
      by_cases hv : ({ s with ancestry := some e.ancestry } : Step).valid = true
      · rw [if_pos hv, if_pos ⟨hid, hv⟩, Rows.map_getLast?_cons, Option.getD_some]
      · rw [if_neg hv, if_neg fun h => hv h.2]
    · rw [if_neg hid, if_neg fun h => hid h.1, remapped, if_neg hid]

theorem foldl_remapped_eq_self_iff (es : List MapEntry) (s : Step) : es.foldl remapped s = s ↔ MapRepeats es s := by
  unfold MapRepeats
  by_cases hs : s.valid = true
  · have hlast : ∀ {β : Type} (f : MapEntry → β) (o : Option MapEntry) (b : β),
        (o.map f).getD b = b ↔ ∀ e ∈ o, b = f e := by
      intro β f o b
      cases o with
      | none => simp
      | some e => simpa using eq_comm
    rw [if_pos hs, foldl_remapped_of_valid hs, ← hlast, ← hlast]
    constructor
    · intro h
      exact ⟨congrArg Step.position h, congrArg Step.ancestry h⟩
    · rintro ⟨hposition, hancestry⟩
      rw [hposition, hancestry]
  · rw [if_neg hs]
    induction es with
    | nil => exact ⟨fun _ => rfl, fun _ => rfl⟩
    | cons e es ih =>
      rw [List.foldl_cons, validEntriesOf_cons]
      by_cases hid : s.id = (toI e.key).toNat
      · rw [remapped_of_invalid hs hid]
        by_cases hv : ({ s with ancestry := some e.ancestry } : Step).valid = true
        · -- from here on the row is valid
          rw [if_pos hv, if_pos ⟨hid, hv⟩]
          refine ⟨fun h => ?_, nofun⟩
          have hfinal := foldl_remapped_valid hv es
          rw [h] at hfinal
          exact absurd hfinal hs
        · rw [if_neg hv, if_neg fun h => hv h.2]
          exact ih
      · rw [if_neg fun h => hid h.1, remapped, if_neg hid]
        exact ih

theorem updateAncestry_same_iff (es : List MapEntry) :
    (updateAncestry p es db).2.projectSteps q = db.projectSteps q ↔
      ((db.projects.find? p).isSome = true → ∀ s ∈ db.projectSteps q, MapRepeats es s) := by
  rw [updateAncestry]
  cases hproject : db.projects.find? p with
  | none => simp
  | some project =>
    dsimp only
    rw [projectSteps_eq_iff (rows_foldl_updateEntry es db) (foldl_remapped_projectId es)]
    simp only [Option.isSome_some, forall_const]
    exact forall₂_congr fun s _ => foldl_remapped_eq_self_iff es s

/-! ## Leaving the edit form -/

/-- What is left of an edit the request finds. -/
theorem resetStartedEditing_found {user step : Nat} {project : Project} {e : Edit}
    (hproject : db.projects.find? p = some project) (hedit : db.editOf user step = some e)
    (h : e ∈ (resetStartedEditing p user step db).2.edits.rows) : e.temp ≠ some true ∧ e.startedEditingAt = none := by
  rw [resetStartedEditing, hproject] at h
  dsimp only at h
  rw [hedit] at h
  dsimp only at h
  by_cases htemp : e.temp = some true
  · rw [if_pos htemp, Table.rows_filter] at h
    simpa using List.of_mem_filter h
  · rw [if_neg htemp, Table.rows_modify] at h
    obtain ⟨r, -, hre⟩ := List.mem_map.mp h
    refine ⟨htemp, ?_⟩
    by_cases hid : Keyed.key r = e.id
    · rw [if_pos hid] at hre
      rw [← hre]
    · rw [if_neg hid] at hre
      exact absurd (congrArg Edit.id hre) hid

theorem resetStartedEditing_same_iff (user step : Nat) :
    (resetStartedEditing p user step db).2.othersEdits q u = db.othersEdits q u ↔
      ((db.projects.find? p).isSome = true → user ≠ u.id → ∀ e ∈ db.editOf user step,
        e.projectId ≠ some q ∨ e.temp ≠ some true ∧ e.startedEditingAt = none) := by
  constructor
  · intro h hfound hne e he
    obtain ⟨project, hproject⟩ := Option.isSome_iff_exists.mp hfound
    obtain ⟨hrow, huser, -⟩ := editOf_user he
    by_cases hcol : e.projectId = some q
    · have hother : e.userId ≠ some u.id := fun hc => hne (Option.some.inj (huser.symm.trans hc))
      have hmem : e ∈ db.othersEdits q u := List.mem_filter.mpr ⟨hrow, decide_eq_true ⟨hcol, hother⟩⟩
      rw [← h] at hmem
      exact Or.inr (resetStartedEditing_found hproject he (List.mem_of_mem_filter hmem))
    · exact Or.inl hcol
  · intro h
    by_cases hquiet : user = u.id ∨ ∀ e ∈ db.editOf user step, e.projectId ≠ some q
    · exact othersEdits_resetStartedEditing hquiet
    · obtain ⟨hne, hedit⟩ := not_or.mp hquiet
      push Not at hedit
      obtain ⟨e, he, hcol⟩ := hedit
      cases hproject : db.projects.find? p with
      | none => rw [resetStartedEditing, hproject]
      | some project =>
        obtain ⟨htemp, hstarted⟩ := (h (hproject ▸ rfl) hne e he).resolve_left fun hc => hc hcol
        rw [resetStartedEditing, hproject]
        dsimp only
        rw [show db.editOf user step = some e from he]
        dsimp only
        rw [if_neg htemp]
        -- the edit that is modified says nothing new
        have hrows : (db.edits.modify e.id (fun e => { e with startedEditingAt := none }) (fun _ => rfl)).rows =
            db.edits.rows := by
          rw [Table.rows_modify]
          apply List.map_eq_self_of_forall
          intro r hr
          by_cases hid : Keyed.key r = e.id
          · obtain rfl := Table.eq_of_key hr (editOf_user he).1 hid
            rw [if_pos hid, ← hstarted]
          · exact if_neg hid
        rw [othersEdits, othersEdits]
        exact congrArg _ hrows

/-! ## Updating a step -/

/-- The label leaves the row in its project. -/
theorem exists_row_relabel {s' : Step} (params : List StepAttr) {s : Step} (hs : s ∈ db.steps.rows)
    (hid : s.id = s'.id) (hproj : s.projectId = s'.projectId) :
    ∃ r ∈ (relabel now s' params db).steps.rows, r.id = s'.id ∧ r.projectId = s'.projectId := by
  have hquestion : (updateQuestion db s'.id params).steps = db.steps :=
    touches_updateQuestion db s'.id params .steps (by decide)
  unfold relabel
  dsimp only
  split
  · refine ⟨{ s' with labelColor := none, updatedAt := now }, ?_, rfl, rfl⟩
    rw [rows_putStep, hquestion]
    exact List.mem_map.mpr ⟨s, hs, if_pos hid⟩
  · exact ⟨s, hquestion ▸ hs, hid, hproj⟩

/-- A save of the attributes puts the step into the project they name. -/
theorem exists_row_update {id : Int} {params : List StepAttr} {project : Project} {s s' : Step}
    (hproject : db.projects.find? p = some project) (hfind : findByPosition db p id = some s)
    (hauth : Ability.updateStep db u s = some true) (hassign : StepAttr.assignAll db s params = some s')
    (hvalid : s'.valid = true) :
    ∃ r ∈ (update u now p id params db).2.steps.rows, r.id = s.id ∧
      r.projectId = StepAttr.projectOf params (some p) := by
  have hbefore : (beforeUpdate now p s params db).steps = db.steps :=
    touches_beforeUpdate db now p s params .steps (by decide)
  obtain ⟨hrow, hproj⟩ := mem_projectSteps.mp (List.mem_of_find?_eq_some hfind)
  obtain ⟨hid, hcolumn⟩ := StepAttr.assignAll_ids hassign
  have heq : update u now p id params db = afterUpdate u now project s' params (emptiedQuestion db s.id params)
      ((beforeUpdate now p s params db).storeRow (some now) s') := by
    rw [update, hproject]
    dsimp only
    rw [hfind]
    dsimp only
    rw [hauth, authorize, ← beforeUpdate, StepAttr.assignAll_congr hbefore, hassign]
    exact if_pos hvalid
  rw [hproj] at hcolumn
  rw [heq, ← hid, ← hcolumn]
  have hstored : s'.stamped (some now) ∈ ((beforeUpdate now p s params db).storeRow (some now) s').steps.rows := by
    rw [rows_storeRow, hbefore]
    exact List.mem_map.mpr ⟨s, hrow, if_pos hid.symm⟩
  have hlabel := @exists_row_relabel _ now s' params _ hstored rfl rfl
  rcases afterUpdate_cases _ u now project s' params _ with ⟨-, hafter⟩ | ⟨e, -, hafter⟩
  · rw [hafter]
    exact hlabel
  · rw [hafter]
    dsimp only
    rw [(touches_endEdit _ u now project s' e _ .steps (by decide) : _ = _)]
    exact hlabel

theorem update_same_iff (hq : db.Foreign u q) (id : Int) (params : List StepAttr) :
    (update u now p id params db).2.projectSteps q = db.projectSteps q ↔
      ((db.projects.find? p).isSome = true → ∀ s ∈ findByPosition db p id, Ability.updateStep db u s = some true →
        ∀ s' ∈ StepAttr.assignAll db s params, s'.valid = true →
          StepAttr.projectOf params (some p) ≠ some q) := by
  -- the user may write the project of the URL, when the step may be updated
  have hurl : Ability.authorOf db u (some p) = some true ∨ u.isAdmin = true → p ≠ q := by
    rintro hor rfl
    exact hq.2 (hor.imp author_of_permission fun hadmin => hadmin)
  constructor
  · intro h hfound s hs hauth s' hs' hvalid hcol
    obtain ⟨project, hproject⟩ := Option.isSome_iff_exists.mp hfound
    obtain ⟨r, hr, hrid, hrq⟩ := @exists_row_update _ _ now _ _ _ _ _ _ hproject hs hauth hs' hvalid
    have hmem : r ∈ db.projectSteps q := by
      rw [← h]
      exact mem_projectSteps.mpr ⟨hr, hrq.trans hcol⟩
    obtain ⟨hrow, hproj⟩ := mem_projectSteps.mp (List.mem_of_find?_eq_some hs)
    obtain ⟨hrrow, hrproj⟩ := mem_projectSteps.mp hmem
    obtain rfl : r = s := Table.eq_of_key hrrow hrow hrid
    refine hurl ?_ (Option.some.inj (hproj.symm.trans hrproj))
    rw [Ability.updateStep, hproj] at hauth
    obtain ⟨b, hb, hor⟩ := Option.map_eq_some_iff.mp hauth
    rw [Bool.or_eq_true] at hor
    rcases hor with rfl | hadmin
    · exact Or.inl hb
    · exact Or.inr hadmin
  · intro h
    refine stepsOutside_update (S := (· ≠ q)) hurl now id params ?_ q (not_not.mpr rfl)
    intro hfound s hs hauth s' hs' hvalid q' hq' heq
    exact h hfound s hs hauth s' hs' hvalid (heq ▸ hq')

/-! ## The loop of a root -/

/-- The loop stops at a nil ancestry. -/
theorem reroot_takeWhile (now : Nat) (d : Step) (l : List Step) (db : Database) :
    (reroot now d l db).1 = l.all (·.ancestry.isSome) ∧
      (reroot now d l db).2 = (reroot now d (l.takeWhile (·.ancestry.isSome)) db).2 := by
  induction l generalizing db with
  | nil => exact ⟨rfl, rfl⟩
  | cons s l ih =>
    cases ha : s.ancestry with
    | none =>
      rw [List.takeWhile_cons_of_neg (by simp [ha]), List.all_cons, ha]
      simp only [reroot, ha, Option.isSome_none, Bool.false_and, and_self]
    | some a =>
      rw [List.takeWhile_cons_of_pos (by simp [ha]), List.all_cons, ha]
      simp only [reroot, ha, Option.isSome_some, Bool.true_and]
      exact ih _

theorem beforeDestroy_iff {d : Step} : (beforeDestroy now p d db).1 = true ↔ LoopEnds db p d := by
  unfold beforeDestroy LoopEnds
  split
  · rename_i hroot
    rw [(reroot_takeWhile now d _ db).1, List.all_eq_true]
    constructor
    · intro h _ s hs hid hnone
      have hsome := h s (List.mem_filter.mpr ⟨hs, decide_eq_true hid⟩)
      rw [hnone] at hsome
      cases hsome
    · intro h s hs
      obtain ⟨hmem, hid⟩ := List.mem_filter.mp hs
      exact Option.isSome_iff_ne_none.mpr (h hroot s hmem (of_decide_eq_true hid))
  · rename_i hroot
    exact iff_of_true rfl fun h => absurd h hroot

/-- A row of the project after the loop. -/
def loopRow (now : Nat) (db : Database) (p : Nat) (d s : Step) : Step :=
  if d.ancestry = some ['0'] ∧ s ∈ (db.projectSteps p).takeWhile (·.ancestry.isSome) ∧
      (rerootedRow now d s).valid = true then rerootedRow now d s
  else s

theorem loopRow_rest (now : Nat) (db : Database) (p : Nat) (d s : Step) :
    (loopRow now db p d s).projectId = s.projectId ∧ (loopRow now db p d s).position = s.position := by
  unfold loopRow
  split <;> exact ⟨rfl, rfl⟩

theorem rows_beforeDestroy {d : Step} (hout : d ∉ db.projectSteps p) (hd : d ∈ db.steps.rows) :
    (beforeDestroy now p d db).2.steps.rows = db.steps.rows.map (loopRow now db p d) := by
  have hrest : (db.projectSteps p).filter (·.id ≠ d.id) = db.projectSteps p := by
    apply List.filter_eq_self.mpr
    intro s hs
    refine decide_eq_true fun hid => hout ?_
    rwa [← Table.eq_of_key (mem_projectSteps.mp hs).1 hd hid]
  unfold beforeDestroy
  split
  · rename_i hroot
    have hfront := List.takeWhile_prefix (fun s : Step => s.ancestry.isSome) (l := db.projectSteps p)
    have hsome : ∀ s ∈ (db.projectSteps p).takeWhile (·.ancestry.isSome), s.ancestry ≠ none := fun s hs =>
      Option.isSome_iff_ne_none.mp (List.mem_takeWhile_imp (p := fun s : Step => s.ancestry.isSome) hs)
    have hrows := (rows_reroot now d hsome ((db.nodup_projectSteps p).sublist (hfront.sublist.map _))
      fun s hs => (mem_projectSteps.mp (hfront.subset hs)).1).2
    rw [hrest, (reroot_takeWhile now d _ db).2, hrows]
    apply List.map_congr_left
    intro s _
    simp only [loopRow, hroot, true_and]
  · rename_i hroot
    symm
    exact List.map_eq_self_of_forall fun s _ => if_neg fun h => hroot h.1

/-- The loop leaves the project alone exactly when it repeats every row it saves. -/
theorem loopRow_same_iff {d : Step} :
    (∀ s ∈ db.projectSteps p, loopRow now db p d s = s) ↔ LoopRepeats now db p d := by
  have hsub := (List.takeWhile_prefix (fun s : Step => s.ancestry.isSome) (l := db.projectSteps p)).subset
  constructor
  · intro h hroot s hs hvalid
    have hrow := h s (hsub hs)
    rw [loopRow, if_pos ⟨hroot, hs, hvalid⟩] at hrow
    exact ⟨congrArg Step.ancestry hrow, (congrArg Step.updatedAt hrow).symm⟩
  · intro h s _
    unfold loopRow
    split
    · rename_i hsaved
      obtain ⟨hancestry, hstamp⟩ := h hsaved.1 s hsaved.2.1 hsaved.2.2
      rw [rerootedRow, hancestry, ← hstamp]
    · rfl

/-! ## The loop over the positions -/

/-- A row on the way down. -/
structure Lowered (s s' : Step) : Prop where
  id : s'.id = s.id
  projectId : s'.projectId = s.projectId
  ancestry : s'.ancestry = s.ancestry
  position : s' = s ∨ s'.position < s.position

theorem Lowered.refl (s : Step) : Lowered s s := ⟨rfl, rfl, rfl, Or.inl rfl⟩

theorem Lowered.trans {s s' s'' : Step} (h : Lowered s s') (h' : Lowered s' s'') : Lowered s s'' where
  id := h'.id.trans h.id
  projectId := h'.projectId.trans h.projectId
  ancestry := h'.ancestry.trans h.ancestry
  position := by
    rcases h'.position with rfl | hlt
    · exact h.position
    · rcases h.position with rfl | hlt'
      · exact Or.inr hlt
      · exact Or.inr (hlt.trans hlt')

theorem lowered_moveDown (now p : Nat) (position : Int) (db : Database) :
    ∃ f : Step → Step, (moveDown now p position db).steps.rows = db.steps.rows.map f ∧ ∀ s, Lowered s (f s) := by
  unfold moveDown
  split
  · exact ⟨id, (List.map_id _).symm, Lowered.refl⟩
  · rename_i t hfind
    have ht := (mem_projectSteps.mp (mem_orderedSteps.mp (List.mem_of_find?_eq_some hfind))).1
    have hpos : t.position = position := by simpa using List.find?_some hfind
    refine ⟨fun s => if s = t then { t with position := position - 1, updatedAt := now } else s, ?_, fun s => ?_⟩
    · rw [rows_storeStep]
      apply List.map_congr_left
      intro s hs
      by_cases hid : s.id = t.id
      · rw [if_pos (Table.eq_of_key hs ht hid), if_pos (by exact hid)]
        rfl
      · rw [if_neg fun h => hid (congrArg Step.id h), if_neg (by exact hid)]
    · dsimp only
      split
      · rename_i h
        rw [h]
        exact ⟨rfl, rfl, rfl, Or.inr (by dsimp only; omega)⟩
      · exact Lowered.refl s

theorem lowered_renumber (now p n : Nat) (start : Int) (db : Database) :
    ∃ f : Step → Step, (renumber now p n start db).steps.rows = db.steps.rows.map f ∧ ∀ s, Lowered s (f s) := by
  induction n generalizing start db with
  | zero => exact ⟨id, (List.map_id _).symm, Lowered.refl⟩
  | succ n ih =>
    obtain ⟨f, hf, hlow⟩ := lowered_moveDown now p start db
    obtain ⟨g, hg, hlow'⟩ := ih (start + 1) (moveDown now p start db)
    refine ⟨g ∘ f, ?_, fun s => (hlow s).trans (hlow' (f s))⟩
    rw [renumber, hg, hf, List.map_map]

/-- The loop finds nothing where no step of the project stands. -/
theorem renumber_none {n : Nat} {start : Int}
    (h : ∀ s ∈ db.projectSteps p, s.position < start ∨ start + n ≤ s.position) :
    renumber now p n start db = db := by
  induction n generalizing start with
  | zero => rfl
  | succ n ih =>
    have hmove : moveDown now p start db = db := by
      unfold moveDown
      split
      · rfl
      · rename_i t hfind
        have hmem := mem_orderedSteps.mp (List.mem_of_find?_eq_some hfind)
        have hpos : t.position = start := by simpa using List.find?_some hfind
        have ht := h t hmem
        push_cast at ht
        omega
    rw [renumber, hmove]
    apply ih
    intro s hs
    have hpos := h s hs
    push_cast at hpos
    omega

/-- A step of the project in the range of the loop means that one moves. -/
theorem renumber_moves {n : Nat} {start : Int} {s : Step} (hs : s ∈ db.projectSteps p) (hstart : start ≤ s.position)
    (hend : s.position < start + n) : (renumber now p n start db).projectSteps p ≠ db.projectSteps p := by
  induction n generalizing start with
  | zero =>
    push_cast at hend
    omega
  | succ n ih =>
    rw [renumber]
    cases hfind : (db.orderedSteps p).find? (·.position = start) with
    | none =>
      -- the loop goes on with the same steps
      have hmove : moveDown now p start db = db := by rw [moveDown, hfind]
      have hne := List.find?_eq_none.mp hfind s (mem_orderedSteps.mpr hs)
      rw [decide_eq_true_eq] at hne
      push_cast at hend
      rw [hmove]
      exact ih (by omega) (by omega)
    | some t =>
      intro hsame
      have hmem := mem_orderedSteps.mp (List.mem_of_find?_eq_some hfind)
      have hpos : t.position = start := by simpa using List.find?_some hfind
      obtain ⟨g, hg, hlow⟩ := lowered_renumber now p n (start + 1) (moveDown now p start db)
      have ht := (mem_projectSteps.mp hmem).1
      have hmoved : ({ t with position := start - 1, updatedAt := now } : Step) ∈ (moveDown now p start db).steps.rows := by
        rw [moveDown, hfind]
        dsimp only
        rw [rows_storeStep]
        exact List.mem_map.mpr ⟨t, ht, if_pos rfl⟩
      have hfinal : g { t with position := start - 1, updatedAt := now } ∈
          (renumber now p n (start + 1) (moveDown now p start db)).steps.rows := by
        rw [hg]
        exact List.mem_map_of_mem hmoved
      have hstill : t ∈ (renumber now p n (start + 1) (moveDown now p start db)).steps.rows := by
        rw [← hsame] at hmem
        exact (mem_projectSteps.mp hmem).1
      have hrow := Table.eq_of_key hfinal hstill (hlow _).id
      have hlower := (hlow { t with position := start - 1, updatedAt := now }).position
      rw [hrow] at hlower
      rcases hlower with heq | hlt
      · have hposition := congrArg Step.position heq
        dsimp only at hposition
        omega
      · dsimp only at hlt
        omega

theorem closeGap_same_iff {d : Step} :
    (closeGap now p d db).projectSteps p = db.projectSteps p ↔ NoneBehind db p d := by
  unfold closeGap NoneBehind
  split
  · rename_i hlt
    constructor
    · intro h s hs hbehind
      by_contra hle
      exact @renumber_moves _ now _ ((db.projectSteps p).length - d.position : Int).toNat _ _ hs (by omega)
        (by omega) h
    · intro h
      rw [renumber_none fun s hs => ?_]
      have hs' := h s hs
      by_cases hbehind : d.position < s.position
      · have := hs' hbehind
        omega
      · omega
  · refine iff_of_true rfl fun s _ hbehind => ?_
    omega

/-! ## Destroying a step -/

/-- A descendant never keeps its ancestry: the loop and the gem both only take something out of it. -/
theorem adopted_loopRow {d s : Step} (hpos : d.id ≠ 0)
    (h : (adopted now d (loopRow now db p d s)).ancestry = s.ancestry) :
    d.isDescendant (loopRow now db p d s) = false := by
  by_contra hdesc
  rw [Bool.not_eq_false] at hdesc
  rw [adopted, if_pos hdesc] at h
  dsimp only at h
  cases ht : (loopRow now db p d s).ancestry with
  | none =>
    rw [Step.isDescendant, ht] at hdesc
    cases hdesc
  | some t =>
    rw [Step.isDescendant, Step.childAncestry, ht] at hdesc
    have hmem := mem_ancestorIds_of_descendant hdesc
    have hcount := count_adopt_le d.id t
    rw [ht] at h
    cases ha : s.ancestry with
    | none =>
      rw [ha] at h
      cases h
    | some a =>
      rw [ha, Option.some.injEq] at h
      have hrow : t = a ∨ t = rerooted d a := by
        rw [loopRow] at ht
        split at ht
        · rw [rerootedRow, ha] at ht
          exact Or.inr (Option.some.inj ht).symm
        · exact Or.inl (Option.some.inj (ha.symm.trans ht)).symm
      rcases hrow with rfl | rfl
      · exact adopt_ne hmem h
      · rw [rerooted] at hmem hcount h
        split at hmem
        · -- the id of the root is not 0
          have hzero : ancestorIds (some ['0']) = [0] := by decide
          rw [hzero, List.mem_singleton] at hmem
          exact hpos hmem
        · rename_i hbare
          rw [if_neg hbare] at hcount h
          rcases gsub_eq_or_count_lt (show '/' ∈ toS d.id ++ ['/'] by simp) a with hsame | hlt
          · rw [hsame] at hmem h
            exact adopt_ne hmem h
          · rw [h] at hcount
            omega

theorem adopted_of_not {d s : Step} (h : d.isDescendant s = false) : adopted now d s = s :=
  if_neg (by rw [h]; exact Bool.false_ne_true)

/-- The gem leaves a row alone exactly when it is no descendant. -/
theorem adopted_eq_self_iff {d s : Step} : adopted now d s = s ↔ d.isDescendant s = false := by
  refine ⟨fun h => ?_, adopted_of_not⟩
  by_contra hdesc
  rw [Bool.not_eq_false] at hdesc
  rw [adopted, if_pos hdesc] at h
  have hancestry := congrArg Step.ancestry h
  dsimp only at hancestry
  cases ha : s.ancestry with
  | none =>
    rw [Step.isDescendant, ha] at hdesc
    cases hdesc
  | some a =>
    rw [Step.isDescendant, Step.childAncestry, ha] at hdesc
    rw [ha, Option.some.injEq] at hancestry
    exact adopt_ne (mem_ancestorIds_of_descendant hdesc) hancestry

theorem destroy_reached {key : StepKey} {project : Project} {d : Step} (hproject : db.projects.find? p = some project)
    (hstep : db.findStep key = some d) (hauth : Ability.destroyStep db u d = some true)
    (hguard : rootGuard db p d = false) :
    destroy u now p key db = if (beforeDestroy now p d db).1 then
        (.ok, afterDestroy u now project d ((forgetStep (beforeDestroy now p d db).2 d).destroyStep now d))
      else (.error, (beforeDestroy now p d db).2) := by
  rw [destroy, hproject]
  dsimp only
  rw [hstep]
  dsimp only
  rw [hauth, authorize, hguard]
  exact if_neg Bool.false_ne_true

/-- The steps of a project outside which the step to destroy lies, once it is gone. -/
theorem projectSteps_gone {db' : Database} {f : Step → Step} {d : Step} (hd : d ∈ db.steps.rows)
    (hout : d ∉ db.projectSteps q) (h : db'.projectSteps q = (db.projectSteps q).map f) (hf : ∀ s, (f s).id = s.id) :
    ((forgetStep db' d).destroyStep now d).projectSteps q =
      (db.projectSteps q).map fun s => adopted now d (f s) := by
  rw [StepTree.projectSteps_destroyStep, h, List.filter_map, List.map_map]
  congr 1
  apply List.filter_eq_self.mpr
  intro s hs
  rw [Function.comp, hf]
  refine decide_eq_true fun hid => hout ?_
  rwa [← Table.eq_of_key (mem_projectSteps.mp hs).1 hd hid]

theorem loopRow_id (now : Nat) (db : Database) (p : Nat) (d s : Step) : (loopRow now db p d s).id = s.id := by
  unfold loopRow
  split <;> rfl

/-- The project of the URL, when the step is another project's: the loops find nothing to write, and none of its
steps hangs below the step. -/
theorem destroy_same_url {project : Project} {d : Step} (hid : project.id = p) (hd : d ∈ db.steps.rows)
    (hout : d ∉ db.projectSteps p) :
    (afterDestroy u now project d ((forgetStep (beforeDestroy now p d db).2 d).destroyStep now d)).projectSteps p =
        db.projectSteps p ↔
      LoopRepeats now db p d ∧ NoneBehind db p d ∧ ∀ s ∈ db.projectSteps p, d.isDescendant s = false := by
  have hbefore : (beforeDestroy now p d db).2.projectSteps p = (db.projectSteps p).map (loopRow now db p d) := by
    rw [projectSteps, rows_beforeDestroy hout hd, List.filter_map, projectSteps]
    congr 1
    apply List.filter_congr
    intro s _
    simp [(loopRow_rest now db p d s).1]
  have hgone := @projectSteps_gone _ now _ _ _ _ hd hout hbefore (loopRow_id now db p d)
  generalize (forgetStep (beforeDestroy now p d db).2 d).destroyStep now d = db₃ at hgone ⊢
  have hfinal : (afterDestroy u now project d db₃).projectSteps p = (closeGap now p d db₃).projectSteps p := by
    rw [projectSteps, steps_afterDestroy, hid, projectSteps]
  -- once no row has changed, the loop over the positions decides
  have hclose : db₃.projectSteps p = db.projectSteps p →
      ((closeGap now p d db₃).projectSteps p = db.projectSteps p ↔ NoneBehind db p d) := by
    intro hsame
    have hiff := @closeGap_same_iff db₃ now p d
    rw [NoneBehind, hsame] at hiff
    exact hiff
  rw [hfinal]
  constructor
  · intro h
    obtain ⟨f, hrows, hlow⟩ : ∃ f : Step → Step,
        (closeGap now p d db₃).steps.rows = db₃.steps.rows.map f ∧ ∀ s, Lowered s (f s) := by
      unfold closeGap
      split
      · exact lowered_renumber now p _ _ db₃
      · exact ⟨_, (List.map_id _).symm, Lowered.refl⟩
    have hmap : (closeGap now p d db₃).projectSteps p =
        (db.projectSteps p).map fun s => f (adopted now d (loopRow now db p d s)) := by
      have hrest : (closeGap now p d db₃).projectSteps p = (db₃.projectSteps p).map f := by
        rw [projectSteps, hrows, List.filter_map, projectSteps]
        congr 1
        apply List.filter_congr
        intro s _
        simp [(hlow s).projectId]
      rw [hrest, hgone, List.map_map]
      rfl
    -- no row has moved, so none has been rewritten on the way
    have hrow : ∀ s ∈ db.projectSteps p, loopRow now db p d s = s ∧ d.isDescendant s = false := by
      intro s hs
      have hs' := List.map_inj_left.mp ((hmap.symm.trans h).trans (List.map_id _).symm) s hs
      have hlow := hlow (adopted now d (loopRow now db p d s))
      rw [hs', id] at hlow
      have hdesc := adopted_loopRow (Nat.pos_iff_ne_zero.mp (db.steps.bound d hd).1) hlow.ancestry.symm
      rw [adopted_of_not hdesc] at hlow
      have hloop : loopRow now db p d s = s := by
        rcases hlow.position with heq | hlt
        · exact heq.symm
        · rw [(loopRow_rest now db p d s).2] at hlt
          exact absurd hlt (Int.lt_irrefl _)
      exact ⟨hloop, hloop ▸ hdesc⟩
    have hsame : db₃.projectSteps p = db.projectSteps p := by
      rw [hgone]
      apply List.map_eq_self_of_forall
      intro s hs
      rw [(hrow s hs).1, adopted_of_not (hrow s hs).2]
    exact ⟨loopRow_same_iff.mp fun s hs => (hrow s hs).1, (hclose hsame).mp h, fun s hs => (hrow s hs).2⟩
  · rintro ⟨hrepeats, hnone, hdesc⟩
    have hsame : db₃.projectSteps p = db.projectSteps p := by
      rw [hgone]
      apply List.map_eq_self_of_forall
      intro s hs
      rw [loopRow_same_iff.mpr hrepeats s hs, adopted_of_not (hdesc s hs)]
    exact (hclose hsame).mpr hnone

theorem destroy_same_iff (hq : db.Foreign u q) (key : StepKey) :
    (destroy u now p key db).2.projectSteps q = db.projectSteps q ↔
      ((db.projects.find? p).isSome = true → ∀ d ∈ db.findStep key, Ability.destroyStep db u d = some true →
        rootGuard db p d = false →
          (p = q → LoopRepeats now db p d ∧ (LoopEnds db p d → NoneBehind db p d)) ∧
          (LoopEnds db p d → ∀ s ∈ db.projectSteps q, d.isDescendant s = false)) := by
  by_cases hreach : ∃ project d, db.projects.find? p = some project ∧ db.findStep key = some d ∧
      Ability.destroyStep db u d = some true ∧ rootGuard db p d = false
  · obtain ⟨project, d, hproject, hstep, hauth, hguard⟩ := hreach
    have hd := mem_of_findStep hstep
    have hid : project.id = p := (Table.find?_eq_some.mp hproject).2
    -- the step is the user's own
    have hout : d ∉ db.projectSteps q := by
      intro hmem
      rw [Ability.destroyStep, (mem_projectSteps.mp hmem).2] at hauth
      exact hq.2 (Or.inl (author_of_permission hauth))
    have hcond : ((db.projects.find? p).isSome = true → ∀ d ∈ db.findStep key, Ability.destroyStep db u d = some true →
        rootGuard db p d = false →
          (p = q → LoopRepeats now db p d ∧ (LoopEnds db p d → NoneBehind db p d)) ∧
          (LoopEnds db p d → ∀ s ∈ db.projectSteps q, d.isDescendant s = false)) ↔
        (p = q → LoopRepeats now db p d ∧ (LoopEnds db p d → NoneBehind db p d)) ∧
          (LoopEnds db p d → ∀ s ∈ db.projectSteps q, d.isDescendant s = false) := by
      constructor
      · intro h
        exact h (hproject ▸ rfl) d hstep hauth hguard
      · intro h _ d' hd' _ _
        obtain rfl := Option.some.inj (hstep.symm.trans hd')
        exact h
    rw [hcond, destroy_reached hproject hstep hauth hguard]
    by_cases hends : LoopEnds db p d
    · rw [if_pos (beforeDestroy_iff.mpr hends)]
      simp only [hends, true_implies]
      by_cases hpq : p = q
      · subst hpq
        rw [destroy_same_url hid hd hout]
        simp only [true_implies, and_assoc]
      · have hbefore : (beforeDestroy now p d db).2.projectSteps q = (db.projectSteps q).map id := by
          rw [List.map_id]
          exact stepsOutside_beforeDestroy (S := (· ≠ q)) hpq now d db q (not_not.mpr rfl)
        have hgone := @projectSteps_gone _ now _ _ _ _ hd hout hbefore fun _ => rfl
        have hafter := stepsOutside_afterDestroy (S := (· ≠ q)) (hid ▸ hpq : project.id ≠ q) u now d
          ((forgetStep (beforeDestroy now p d db).2 d).destroyStep now d) q (not_not.mpr rfl)
        rw [hafter, hgone]
        simp only [hpq, false_implies, true_and]
        constructor
        · intro h s hs
          exact adopted_eq_self_iff.mp (List.map_inj_left.mp (h.trans (List.map_id _).symm) s hs)
        · intro h
          exact List.map_eq_self_of_forall fun s hs => adopted_of_not (h s hs)
    · -- the action raises in the loop of the root
      rw [if_neg fun h => hends (beforeDestroy_iff.mp h)]
      simp only [hends, false_implies, and_true]
      by_cases hpq : p = q
      · subst hpq
        rw [projectSteps_eq_iff (rows_beforeDestroy hout hd) fun s => (loopRow_rest now db p d s).1, loopRow_same_iff]
        exact ⟨fun h _ => h, fun h => h rfl⟩
      · refine iff_of_true ?_ fun h => absurd h hpq
        exact stepsOutside_beforeDestroy (S := (· ≠ q)) hpq now d db q (not_not.mpr rfl)
  · have hidle : (destroy u now p key db).2 = db := by
      rcases destroy_cases u now p key db with heq | ⟨project, d, hproject, hstep, hauth, hguard, -⟩
      · exact heq
      · exact absurd ⟨project, d, hproject, hstep, hauth, hguard⟩ hreach
    refine iff_of_true (by rw [hidle]) fun hfound d hd hauth hguard => ?_
    obtain ⟨project, hproject⟩ := Option.isSome_iff_exists.mp hfound
    exact absurd ⟨project, d, hproject, hd, hauth, hguard⟩ hreach

/-- The edits of others go with the step. -/
theorem destroy_othersEdits_iff (key : StepKey) :
    (destroy u now p key db).2.othersEdits q u = db.othersEdits q u ↔
      ((db.projects.find? p).isSome = true → ∀ d ∈ db.findStep key, Ability.destroyStep db u d = some true →
        rootGuard db p d = false → LoopEnds db p d → ∀ e ∈ db.othersEdits q u, e.stepId ≠ some d.id) := by
  have hfilter : ∀ i, (db.edits.filter (·.stepId ≠ some i)).rows.filter
      (fun e => decide (e.projectId = some q ∧ e.userId ≠ some u.id)) =
        (db.othersEdits q u).filter (·.stepId ≠ some i) := by
    intro i
    rw [Table.rows_filter, othersEdits, List.filter_filter, List.filter_filter]
    apply List.filter_congr
    intro e _
    exact Bool.and_comm _ _
  constructor
  · intro h hfound d hd hauth hguard hends
    obtain ⟨project, hproject⟩ := Option.isSome_iff_exists.mp hfound
    rw [destroy_reached hproject hd hauth hguard, if_pos (beforeDestroy_iff.mpr hends), othersEdits, edits_destroyed,
      hfilter] at h
    intro e he
    exact of_decide_eq_true (List.filter_eq_self.mp h e he)
  · intro h
    rcases destroy_cases u now p key db with
      heq | ⟨project, d, hproject, hstep, hauth, hguard, ⟨-, heq⟩ | ⟨hdone, heq⟩⟩
    · rw [heq]
    · rw [heq, othersEdits_congr (touches_beforeDestroy db now p d .edits (by decide))]
    · rw [heq, othersEdits, edits_destroyed, hfilter]
      refine List.filter_eq_self.mpr fun e he => decide_eq_true ?_
      exact h (hproject ▸ rfl) d hstep hauth hguard (beforeDestroy_iff.mp hdone) e he

/-- A destroy changes nothing of the projects of others exactly when it keeps to what belongs to the user. -/
theorem destroy_own_iff (u : User) (now p : Nat) (key : StepKey) (db : Database) :
    (∀ q, db.Foreign u q → (destroy u now p key db).2.projectSteps q = db.projectSteps q ∧
      (destroy u now p key db).2.othersEdits q u = db.othersEdits q u) ↔
      (StepAction.destroy p key).KeepsToOwn u now db := by
  constructor
  · intro h hfound d hd hauth hguard
    have hsteps := fun q hq => (destroy_same_iff hq key).mp (h q hq).1 hfound d hd hauth hguard
    have hedits := fun q hq => (destroy_othersEdits_iff key).mp (h q hq).2 hfound d hd hauth hguard
    refine ⟨?_, fun hends => ⟨fun s hs hdesc => ?_, fun e he hstep huser => ?_⟩⟩
    · by_cases hown : db.OwnColumn u (some p)
      · exact Or.inl hown
      · rw [Database.ownColumn_iff] at hown
        push Not at hown
        obtain ⟨q, hq, hpq⟩ := hown
        exact Or.inr ((hsteps q hq).1 (Option.some.inj hpq))
    · refine Database.ownColumn_iff.mpr fun q hq hcol => ?_
      have hnot := (hsteps q hq).2 hends s (Database.mem_projectSteps.mpr ⟨hs, hcol⟩)
      exact absurd (hdesc.symm.trans hnot) (by decide)
    · refine Database.ownColumn_iff.mpr fun q hq hcol => ?_
      exact hedits q hq hends e (List.mem_filter.mpr ⟨he, decide_eq_true ⟨hcol, huser⟩⟩) hstep
  · intro h q hq
    refine ⟨(destroy_same_iff hq key).mpr ?_, (destroy_othersEdits_iff key).mpr ?_⟩
    · intro hfound d hd hauth hguard
      obtain ⟨hurl, hrest⟩ := h hfound d hd hauth hguard
      refine ⟨?_, fun hends s hs => ?_⟩
      · rintro rfl
        exact hurl.resolve_left fun hown => Database.ownColumn_iff.mp hown p hq rfl
      · by_contra hdesc
        obtain ⟨hrow, hcol⟩ := Database.mem_projectSteps.mp hs
        exact Database.ownColumn_iff.mp ((hrest hends).1 s hrow (by simpa using hdesc)) q hq hcol
    · intro hfound d hd hauth hguard hends e he hstep
      obtain ⟨hrow, hother⟩ := List.mem_filter.mp he
      obtain ⟨hcol, huser⟩ := of_decide_eq_true hother
      exact Database.ownColumn_iff.mp (((h hfound d hd hauth hguard).2 hends).2 e hrow hstep huser) q hq hcol

/-- So does a reset, which writes one edit. -/
theorem resetStartedEditing_own_iff (u : User) (now p user step : Nat) (db : Database) :
    (∀ q, db.Foreign u q → (resetStartedEditing p user step db).2.projectSteps q = db.projectSteps q ∧
      (resetStartedEditing p user step db).2.othersEdits q u = db.othersEdits q u) ↔
      (StepAction.resetStartedEditing p user step).KeepsToOwn u now db := by
  have hsteps : ∀ q, (resetStartedEditing p user step db).2.projectSteps q = db.projectSteps q := by
    intro q
    rw [resetStartedEditing]
    split
    · rfl
    · split
      · rfl
      · split <;> rfl
  simp only [hsteps, true_and, resetStartedEditing_same_iff]
  constructor
  · intro h hfound hne e he
    by_cases hown : db.OwnColumn u e.projectId
    · exact Or.inl hown
    · rw [Database.ownColumn_iff] at hown
      push Not at hown
      obtain ⟨q, hq, hcol⟩ := hown
      exact Or.inr ((h q hq hfound hne e he).resolve_left fun hc => hc hcol)
  · intro h q hq hfound hne e he
    exact (h hfound hne e he).imp_left fun hown => Database.ownColumn_iff.mp hown q hq

end StepsController

/-- Without the project of the URL nothing is sorted. -/
example : (StepAction.sort 99 [1]).KeepsToOwn bob 1 (Database.oneImage "Robot".toList none) := by decide +kernel
