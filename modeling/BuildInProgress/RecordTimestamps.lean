import Mathlib.Algebra.Group.Int.Defs
import BuildInProgress.Frame

/-!
# Timestamps that stay off

`update_ancestry`, `feature` and `unfeature` switch the recording of timestamps off for a whole class, and on again in
the last line.  The switch belongs to the worker process, so an exception in between leaves it off for all requests
that come after.
-/

open Text

/-- A worker process: the database it works on and `record_timestamps` of two classes. -/
structure Worker where
  db : Database
  stepTimestamps : Bool
  projectTimestamps : Bool

/-- A parameter as Rails reads it from a query or a form; the numbers and booleans of a JSON body are left out. -/
inductive Param where
  | nil
  | text (v : Text)
  | list (vs : List Param)
  | hash (vs : List (Text × Param))
  | file

namespace Param

/-- `to_i`; only nil and texts have it. -/
def toI : Param → Option Int
  | nil => some 0
  | text v => some (Text.toI v)
  | _ => none

/-- `[i]`.  A text gives a character, a hash has no number among its keys, nil and a file raise. -/
def index : Param → Nat → Option Param
  | list vs, i => some (vs.getD i nil)
  | text v, i => some ((v[i]?).elim nil fun c => text [c])
  | hash _, _ => some nil
  | _, _ => none

/-- What `each` hands to its block; a hash gives pairs. -/
def each : Param → Option (List Param)
  | list vs => some vs
  | hash vs => some (vs.map fun e => list [text e.1, e.2])
  | _ => none

/-- The value of a text column, when it is nil or a text. -/
def column : Param → Option (Option Text)
  | nil => some none
  | text v => some (some v)
  | _ => none

end Param

/-- The range of an integer column. -/
def fitsInteger (n : Int) : Bool := -2 ^ 31 ≤ n ∧ n < 2 ^ 31

/-- The length of a string column. -/
def fitsString (t : Text) : Bool := t.length ≤ 255

namespace StepsController

open Database

/-- The id, the position and the ancestry of an entry of `stepMapArray`. -/
def entryOf (step : Param) : Option (Int × Int × Param) := do
  let id ← (← step.index 0).toI
  let value ← step.index 1
  let position ← (← value.index 0).toI
  let ancestry ← value.index 1
  some (id, position, ancestry)

/-- Steps that other requests delete. -/
def loseSteps (db : Database) (ids : List Nat) : Database := { db with steps := db.steps.filter (·.id ∉ ids) }

/-- `Step.find(i).update_attributes(..)`.  It raises when the step is gone, and when the database refuses the value
of a valid record. -/
def findAndUpdate (db : Database) (i : Nat) (f : Step → Step) (fits : Bool) : Bool × Database :=
  match db.steps.find? i with
  | none => (false, db)
  | some s =>
    if (f s).valid then if fits then (true, db.storeStep none (f s)) else (false, db)
    else (true, db)

/-- One turn of the loop.  `gone` are the steps that go between `exists?` and the first `find`, and between the two. -/
def enterEntry (gone : List Nat × List Nat) (db : Database) (step : Param) : Bool × Database :=
  match entryOf step with
  | none => (false, db)
  | some (id, position, ancestry) =>
    if (db.steps.find? id.toNat).isNone then (true, db)
    else
      let r := findAndUpdate (loseSteps db gone.1) id.toNat (fun s => { s with position }) (fitsInteger position)
      if r.1 then
        let db := loseSteps r.2 gone.2
        match ancestry.column with
        -- no text, which the format of an ancestry never allows
        | none => ((db.steps.find? id.toNat).isSome, db)
        | some a => findAndUpdate db id.toNat (fun s => { s with ancestry := a }) (a.all fitsString)
      else r

/-- `GET /projects/:project_id/steps/update_ancestry` in a worker; the project is looked up before the action. -/
def updateAncestryIn (p : Nat) (stepMapArray : Param) (gone : Nat → List Nat × List Nat) (w : Worker) : Bool × Worker :=
  match w.db.projects.find? p with
  | none => (true, w)
  | some _ =>
    let w := { w with stepTimestamps := false }
    match stepMapArray.each with
    | none => (false, w)
    | some steps =>
      let r := Run.each (fun db (step : Param × Nat) => enterEntry (gone step.2) db step.1) w.db steps.zipIdx
      if r.1 then (true, { w with db := r.2, stepTimestamps := true }) else (false, { w with db := r.2 })

end StepsController

namespace Project

open Database

/-- The activities about a featured project and the mail to one of its authors.  `wants` is the author's setting,
`mail` says whether the mail could be queued. -/
def featureFor (wants mail : User → Bool) (i : Nat) (db : Database) (user : User) : Bool × Database :=
  let db := db.createActivity .project i "project.feature".toList none (some user.id)
  let db := db.createActivity .project i "project.feature_public".toList (some user.id) none
  (!wants user || mail user, db)

/-- `Project#feature` -/
def feature (wants mail : User → Bool) (i : Nat) (w : Worker) : Bool × Worker :=
  let w := { w with db := w.db.updateProject none i fun p => { p with featured := some true }, projectTimestamps := false }
  let r := Run.each (featureFor wants mail i) w.db (w.db.projectUsers i)
  if r.1 then (true, { w with db := r.2, projectTimestamps := true }) else (false, { w with db := r.2 })

/-- `Project#unfeature` -/
def unfeature (i : Nat) (w : Worker) : Worker :=
  let db := w.db.updateProject none i fun p => { p with featured := some false }
  let db := { db with activities := db.activities.filter fun a =>
    !(a.key == "project.feature".toList && a.trackableId == some i) }
  let db := { db with activities := db.activities.filter fun a =>
    !(a.key == "project.feature_public".toList && a.trackableId == some i) }
  { w with db, projectTimestamps := true }

end Project

namespace StepsController

open Database

/-- A turn of the loop raises nothing: the entry can be read, its step is not deleted meanwhile, and the values that
pass the validations fit the columns. -/
def EntryOk (gone : List Nat × List Nat) (db : Database) (step : Param) : Prop :=
  ∃ id position ancestry, entryOf step = some (id, position, ancestry) ∧ ∀ s, db.steps.find? id.toNat = some s →
    s.id ∉ gone.1 ∧ s.id ∉ gone.2 ∧ (s.valid = true → fitsInteger position = true) ∧
    ∀ a, ancestry.column = some a → ({ s with ancestry := a } : Step).valid = true → a.all fitsString = true

theorem find?_loseSteps (db : Database) (ids : List Nat) (i : Nat) :
    (loseSteps db ids).steps.find? i = if i ∈ ids then none else db.steps.find? i := by
  by_cases hin : i ∈ ids
  · rw [if_pos hin, Table.find?_eq_none]
    intro s hs hid
    have hkept := (List.mem_filter.mp hs).2
    rw [decide_eq_true_eq] at hkept
    exact hkept (show s.id ∈ ids from (show s.id = i from hid) ▸ hin)
  · rw [if_neg hin]
    refine List.find?_filter_unseen fun s _ hs => ?_
    have hid : s.id = i := by simpa [Keyed.key] using hs
    rw [decide_eq_true_eq, hid]
    exact hin

/-- A step that is there is updated, unless the database refuses the value. -/
theorem findAndUpdate_spec {db : Database} {i : Nat} {s : Step} (hs : db.steps.find? i = some s) (f : Step → Step)
    (hf : (f s).id = s.id) (fits : Bool) :
    ((findAndUpdate db i f fits).1 = true ↔ ((f s).valid = true → fits = true)) ∧
      ((findAndUpdate db i f fits).1 = true →
        (findAndUpdate db i f fits).2.steps.find? i = some (if (f s).valid then f s else s)) := by
  obtain ⟨hrow, hid⟩ := Table.find?_eq_some.mp hs
  unfold findAndUpdate
  rw [hs]
  dsimp only
  by_cases hvalid : (f s).valid = true
  · rw [if_pos hvalid]
    cases fits with
    | false => simp [hvalid]
    | true =>
      rw [if_pos rfl, if_pos hvalid]
      refine ⟨iff_of_true rfl fun _ => rfl, fun _ => Table.find?_eq_some.mpr ⟨?_, hf.trans hid⟩⟩
      rw [rows_storeStep]
      exact List.mem_map.mpr ⟨s, hrow, if_pos hf.symm⟩
  · rw [if_neg hvalid, if_neg hvalid]
    exact ⟨iff_of_true rfl fun hc => absurd hc hvalid, fun _ => hs⟩

theorem entryOk_iff {gone : List Nat × List Nat} {db : Database} {step : Param} {id position : Int} {ancestry : Param}
    {s : Step} (hentry : entryOf step = some (id, position, ancestry)) (hs : db.steps.find? id.toNat = some s) :
    EntryOk gone db step ↔ s.id ∉ gone.1 ∧ s.id ∉ gone.2 ∧ (s.valid = true → fitsInteger position = true) ∧
      ∀ a, ancestry.column = some a → ({ s with ancestry := a } : Step).valid = true → a.all fitsString = true := by
  unfold EntryOk
  rw [hentry]
  constructor
  · intro h
    obtain ⟨id', position', ancestry', heq, hall⟩ := h
    cases heq
    exact hall s hs
  · intro h
    refine ⟨id, position, ancestry, rfl, fun t ht => ?_⟩
    rw [hs, Option.some.injEq] at ht
    rw [← ht]
    exact h

/-- The second half of a turn: the step is found again, and its ancestry is written. -/
theorem writeAncestry_done_iff {db : Database} {i : Nat} {t : Step} (ids : List Nat) (ancestry : Param)
    (ht : db.steps.find? i = some t) :
    (match ancestry.column with
      | none => (((loseSteps db ids).steps.find? i).isSome, loseSteps db ids)
      | some a => findAndUpdate (loseSteps db ids) i (fun s => { s with ancestry := a }) (a.all fitsString)).1 = true ↔
      t.id ∉ ids ∧
        ∀ a, ancestry.column = some a → ({ t with ancestry := a } : Step).valid = true → a.all fitsString = true := by
  have hid : t.id = i := (Table.find?_eq_some.mp ht).2
  by_cases hgone : t.id ∈ ids
  · refine iff_of_false ?_ fun h => h.1 hgone
    have hnone : (loseSteps db ids).steps.find? i = none := by
      rw [find?_loseSteps, if_pos (hid ▸ hgone)]
    cases ancestry.column with
    | none => simp [hnone]
    | some a => simp [findAndUpdate, hnone]
  · have hfind : (loseSteps db ids).steps.find? i = some t := by
      rw [find?_loseSteps, if_neg (hid ▸ hgone), ht]
    cases hcolumn : ancestry.column with
    | none =>
      dsimp only
      rw [hfind]
      exact iff_of_true rfl ⟨hgone, nofun⟩
    | some a =>
      dsimp only
      rw [(findAndUpdate_spec hfind (fun s => { s with ancestry := a }) rfl (a.all fitsString)).1]
      constructor
      · intro h
        refine ⟨hgone, fun a' ha' => ?_⟩
        rw [← Option.some.inj ha']
        exact h
      · intro h
        exact h.2 a rfl

/-- A turn raises exactly where the entry is not in order. -/
theorem enterEntry_done_iff (gone : List Nat × List Nat) (db : Database) (step : Param) :
    (enterEntry gone db step).1 = true ↔ EntryOk gone db step := by
  unfold enterEntry
  cases hentry : entryOf step with
  | none => simp [EntryOk, hentry]
  | some e =>
    obtain ⟨id, position, ancestry⟩ := e
    dsimp only
    cases hs : db.steps.find? id.toNat with
    -- `exists?` skips an entry without a step
    | none =>
      rw [Option.isNone_none, if_pos rfl]
      refine iff_of_true rfl ⟨id, position, ancestry, hentry, fun s hs' => ?_⟩
      rw [hs] at hs'
      cases hs'
    | some s =>
      have hid : s.id = id.toNat := (Table.find?_eq_some.mp hs).2
      rw [entryOk_iff hentry hs, Option.isNone_some, if_neg Bool.false_ne_true]
      by_cases hgone : s.id ∈ gone.1
      · refine iff_of_false ?_ fun h => h.1 hgone
        have hnone : (loseSteps db gone.1).steps.find? id.toNat = none := by
          rw [find?_loseSteps, if_pos (hid ▸ hgone)]
        simp [findAndUpdate, hnone]
      · have hfirst : (loseSteps db gone.1).steps.find? id.toNat = some s := by
          rw [find?_loseSteps, if_neg (hid ▸ hgone), hs]
        obtain ⟨hdone, hafter⟩ := findAndUpdate_spec hfirst (fun s => { s with position }) rfl (fitsInteger position)
        -- the validations do not ask for the position
        have hvalid : ({ s with position } : Step).valid = s.valid := rfl
        rw [hvalid] at hdone hafter
        by_cases hfits : s.valid = true → fitsInteger position = true
        · rw [if_pos (hdone.mpr hfits)]
          refine (writeAncestry_done_iff gone.2 ancestry (hafter (hdone.mpr hfits))).trans ?_
          -- the second half validates the ancestry whatever the first half has written
          have hsame : (if s.valid then { s with position } else s).id = s.id ∧
              ∀ a, ({ (if s.valid then { s with position } else s) with ancestry := a } : Step).valid =
                ({ s with ancestry := a } : Step).valid := by
            split
            · exact ⟨rfl, fun _ => rfl⟩
            · exact ⟨rfl, fun _ => rfl⟩
          constructor
          · intro h
            exact ⟨hgone, hsame.1 ▸ h.1, hfits, fun a ha hv => h.2 a ha ((hsame.2 a).trans hv)⟩
          · intro h
            exact ⟨hsame.1.symm ▸ h.2.1, fun a ha hv => h.2.2.2 a ha ((hsame.2 a).symm.trans hv)⟩
        · have hraise : ¬ (findAndUpdate (loseSteps db gone.1) id.toNat (fun s => { s with position })
              (fitsInteger position)).1 = true := fun hc => hfits (hdone.mp hc)
          rw [if_neg hraise]
          exact iff_of_false hraise fun h => hfits h.2.2.1

/-! ## The map that the browser sends -/

theorem loseSteps_nil (db : Database) : loseSteps db [] = db := by
  have hsteps : db.steps.filter (fun s => decide (s.id ∉ ([] : List Nat))) = db.steps := by
    apply Table.filter_eq_self
    intro s _
    simp
  rw [loseSteps, hsteps]

/-- Without a deletion in between, and with a value that fits, the update is the one of `updateStep`. -/
theorem findAndUpdate_eq {db : Database} {i : Nat} (hs : (db.steps.find? i).isSome = true) (f : Step → Step) :
    findAndUpdate db i f true = (true, db.updateStep none i f) := by
  obtain ⟨s, hs⟩ := Option.isSome_iff_exists.mp hs
  rw [findAndUpdate, updateStep, hs]
  dsimp only
  rw [saveStep]
  split
  · rfl
  · rfl

/-- An entry as the browser sends it. -/
def sentEntry (e : MapEntry) : Text × Param := (e.key, .list [.text (intToS e.position), .text e.ancestry])

theorem enterEntry_sent {e : MapEntry} (h0 : 0 ≤ e.position) (hposition : fitsInteger e.position = true)
    (hancestry : fitsString e.ancestry = true) (db : Database) :
    enterEntry ([], []) db (.list [.text e.key, (sentEntry e).2]) = (true, updateEntry db e) := by
  have hentry : entryOf (.list [.text e.key, (sentEntry e).2]) = some (toI e.key, e.position, .text e.ancestry) := by
    have hread : toI (intToS e.position) = e.position := by
      rw [intToS, if_neg (Int.not_lt.mpr h0), toI_toS]
      omega
    show some (toI e.key, toI (intToS e.position), Param.text e.ancestry) = _
    rw [hread]
  rw [enterEntry, hentry, updateEntry]
  dsimp only
  cases hs : db.steps.find? (toI e.key).toNat with
  | none =>
    have hskip : ∀ f, db.updateStep none (toI e.key).toNat f = db := fun f => by rw [updateStep, hs]
    rw [Option.isNone_none, if_pos rfl, hskip, hskip]
  | some s =>
    rw [Option.isNone_some, if_neg Bool.false_ne_true, loseSteps_nil, hposition,
      findAndUpdate_eq (by rw [hs]; rfl), if_pos rfl, loseSteps_nil]
    have hstill : ((db.updateStep none (toI e.key).toNat fun s => { s with position := e.position }).steps.find?
        (toI e.key).toNat).isSome = true := by
      rw [Table.isSome_find?, rows_updateStep _ _ _ (by intro _; rfl), List.map_map]
      obtain ⟨hrow, hid⟩ := Table.find?_eq_some.mp hs
      refine List.mem_map.mpr ⟨s, hrow, ?_⟩
      rw [Function.comp]
      split
      · exact (Step.updated_id _ (by intro _; rfl) s).trans hid
      · exact hid
    show findAndUpdate _ _ _ (fitsString e.ancestry) = _
    rw [hancestry, findAndUpdate_eq hstill]

/-- What the browser sends comes out as `updateAncestry` has it. -/
theorem updateAncestryIn_sent (p : Nat) {es : List MapEntry} (w : Worker) (h : ∀ e ∈ es,
    0 ≤ e.position ∧ fitsInteger e.position = true ∧ fitsString e.ancestry = true) :
    (updateAncestryIn p (.hash (es.map sentEntry)) (fun _ => ([], [])) w).1 = true ∧
      (updateAncestryIn p (.hash (es.map sentEntry)) (fun _ => ([], [])) w).2.db = (updateAncestry p es w.db).2 := by
  have hloop : ∀ (es : List MapEntry) (n : Nat) (db : Database), (∀ e ∈ es, 0 ≤ e.position ∧
      fitsInteger e.position = true ∧ fitsString e.ancestry = true) →
      Run.each (fun db (step : Param × Nat) => enterEntry ([], []) db step.1) db
        (((es.map sentEntry).map fun e => Param.list [.text e.1, e.2]).zipIdx n) = (true, es.foldl updateEntry db) := by
    intro es
    induction es with
    | nil => exact fun _ _ _ => rfl
    | cons e es ih =>
      intro n db h
      obtain ⟨h0, hposition, hancestry⟩ := h e List.mem_cons_self
      have hone := enterEntry_sent h0 hposition hancestry db
      rw [List.map_cons, List.map_cons, List.zipIdx_cons, Run.each]
      dsimp only
      rw [show (sentEntry e).1 = e.key from rfl, hone, if_pos rfl, ih _ _ fun x hx => h x (List.mem_cons_of_mem e hx)]
      rfl
  unfold updateAncestryIn updateAncestry
  cases w.db.projects.find? p with
  | none => exact ⟨rfl, rfl⟩
  | some project =>
    dsimp only
    rw [Param.each]
    dsimp only
    rw [hloop es 0 w.db h, if_pos rfl]
    exact ⟨rfl, rfl⟩

end StepsController

/-! ## When the switches are on again -/

namespace Worker

/-- Both classes record timestamps. -/
def Records (w : Worker) : Prop := w.stepTimestamps = true ∧ w.projectTimestamps = true

end Worker

open StepsController Database

/-- The switch for steps is back on exactly when the parameter can be iterated and every turn gets through. -/
theorem updateAncestryIn_records_iff {w : Worker} (h : w.Records) (p : Nat) (stepMapArray : Param)
    (gone : Nat → List Nat × List Nat) :
    (updateAncestryIn p stepMapArray gone w).2.Records ↔ w.db.projects.find? p = none ∨ ∃ steps,
      stepMapArray.each = some steps ∧ Run.Along (fun db step => (enterEntry (gone step.2) db step.1).2)
        (fun db (step : Param × Nat) => EntryOk (gone step.2) db step.1) w.db steps.zipIdx := by
  obtain ⟨hsteps, hprojects⟩ := h
  unfold updateAncestryIn
  cases w.db.projects.find? p with
  | none => exact iff_of_true ⟨hsteps, hprojects⟩ (Or.inl rfl)
  | some project =>
    dsimp only
    cases stepMapArray.each with
    | none =>
      refine iff_of_false (fun hon => Bool.false_ne_true hon.1) fun hcases => ?_
      rcases hcases with hnone | ⟨steps, hnone, -⟩
      · cases hnone
      · cases hnone
    | some steps =>
      dsimp only
      have hdone : (Run.each (fun db (step : Param × Nat) => enterEntry (gone step.2) db step.1) w.db
          steps.zipIdx).1 = true ↔ Run.Along _ _ w.db steps.zipIdx :=
        Run.each_done_iff fun db (step : Param × Nat) => enterEntry_done_iff (gone step.2) db step.1
      constructor
      · -- a turn that raises leaves the switch off
        intro hon
        refine Or.inr ⟨steps, rfl, hdone.mp ?_⟩
        by_contra hraise
        rw [if_neg hraise] at hon
        exact Bool.false_ne_true hon.1
      · intro hcases
        rcases hcases with hnone | ⟨steps', heq, halong⟩
        · cases hnone
        · rw [← Option.some.inj heq] at halong
          rw [if_pos (hdone.mpr halong)]
          exact ⟨rfl, hprojects⟩

/-- The switch for projects is back on exactly when every mail that is wanted can be queued. -/
theorem feature_records_iff {w : Worker} (h : w.Records) (i : Nat) (wants mail : User → Bool) :
    (Project.feature wants mail i w).2.Records ↔ ∀ u ∈ w.db.projectUsers i, wants u = true → mail u = true := by
  have husers : (w.db.updateProject none i fun p => { p with featured := some true }).projectUsers i =
      w.db.projectUsers i := by
    have htouch := touches_updateProject w.db none i fun p => { p with featured := some true }
    rw [projectUsers, (htouch .projectsUsers (by decide) : _ = _), (htouch .users (by decide) : _ = _), projectUsers]
  unfold Project.feature
  dsimp only
  rw [husers]
  have hturn : ∀ db u, (Project.featureFor wants mail i db u).1 = true ↔ (wants u = true → mail u = true) := by
    intro db u
    show (!wants u || mail u) = true ↔ _
    cases wants u <;> simp
  have hdone : (Run.each (Project.featureFor wants mail i)
      (w.db.updateProject none i fun p => { p with featured := some true }) (w.db.projectUsers i)).1 = true ↔
      Run.Along _ _ _ (w.db.projectUsers i) :=
    Run.each_done_iff hturn
  -- whether a turn gets through does not depend on the turns before
  have hall : ∀ (us : List User) (db : Database), Run.Along (fun db u => (Project.featureFor wants mail i db u).2)
      (fun _ u => wants u = true → mail u = true) db us ↔ ∀ u ∈ us, wants u = true → mail u = true := by
    intro us
    induction us with
    | nil => exact fun db => iff_of_true trivial nofun
    | cons u us ih =>
      intro db
      rw [List.forall_mem_cons]
      exact and_congr_right fun _ => ih _
  rw [hall] at hdone
  rw [← hdone]
  split
  · rename_i hd
    exact iff_of_true ⟨h.1, rfl⟩ hd
  · rename_i hd
    exact iff_of_false (fun hon => Bool.false_ne_true hon.2) hd

/-- From a worker that records timestamps, `update_ancestry` leads to one exactly when its parameter is a list or a
hash and no turn of its loop raises, `feature` exactly when every mail that is wanted can be queued, and `unfeature`
always. -/
theorem record_timestamps_restored_iff {w : Worker} (h : w.Records) (p i : Nat) (stepMapArray : Param)
    (gone : Nat → List Nat × List Nat) (wants mail : User → Bool) :
    ((updateAncestryIn p stepMapArray gone w).2.Records ↔ w.db.projects.find? p = none ∨ ∃ steps,
      stepMapArray.each = some steps ∧ Run.Along (fun db step => (enterEntry (gone step.2) db step.1).2)
        (fun db (step : Param × Nat) => EntryOk (gone step.2) db step.1) w.db steps.zipIdx) ∧
    ((Project.feature wants mail i w).2.Records ↔
      ∀ u ∈ w.db.projectUsers i, wants u = true → mail u = true) ∧
    (Project.unfeature i w).Records := by
  exact ⟨updateAncestryIn_records_iff h p stepMapArray gone, feature_records_iff h i wants mail, h.1, rfl⟩

/-- The worker of the sample project with its four steps. -/
def sampleWorker : Worker :=
  ⟨Run.after (StepRequest.perform 1) .stepless fourSteps, true, true⟩

/-- The map of two steps. -/
def twoEntries : Param :=
  .hash [("11".toList, .list [.text "0".toList, .text "0".toList]), ("12".toList, .list [.text "1".toList, .text "11".toList])]

theorem record_timestamps_restored_map :
    ((updateAncestryIn 1 twoEntries (fun _ => ([], [])) sampleWorker).2.db.orderedSteps 1).map (·.ancestry) =
      [some ['0'], some "11".toList, some "11/12".toList, some "11".toList] ∧
    (updateAncestryIn 1 twoEntries (fun _ => ([], [])) sampleWorker).2.Records := by
  refine ⟨by decide +kernel, ?_⟩
  have hrestored := record_timestamps_restored_iff (w := sampleWorker) ⟨rfl, rfl⟩ 1 1 twoEntries (fun _ => ([], []))
    (fun _ => true) (fun _ => true)
  exact hrestored.1.mpr (Or.inr ⟨_, rfl, (Run.each_done_iff fun db (step : Param × Nat) =>
    enterEntry_done_iff ([], []) db step.1).mp (by decide +kernel)⟩)

/-- A request without `stepMapArray`, and one whose second step goes between `exists?` and `find`. -/
theorem timestamps_stay_off :
    sampleWorker.Records ∧ (updateAncestryIn 1 .nil (fun _ => ([], [])) sampleWorker).2.stepTimestamps = false ∧
      (updateAncestryIn 1 twoEntries (fun n => if n = 1 then ([12], []) else ([], [])) sampleWorker).2.stepTimestamps =
        false ∧
      ¬ (updateAncestryIn 1 .nil (fun _ => ([], [])) sampleWorker).2.Records := by
  refine ⟨⟨rfl, rfl⟩, by decide +kernel, by decide +kernel, fun hon => ?_⟩
  exact absurd hon.1 (by decide +kernel)
