import BuildInProgress.Ancestry
import BuildInProgress.Database

/-!
# The step model

`app/models/step.rb` with what it takes from Active Record: validation before a save, mass
assignment of the accessible attributes, the `after_update` callback and the destruction of
dependent rows.  A save of a step always writes `updated_at`, because the serialized column
`original_authors` is written on every save; `update_ancestry` turns timestamps off.
-/

open Text Ancestry

namespace Step

/-- The validations a record that is not saved yet can fail. -/
def validNew (s : Step) : Bool := !blank s.name && validFormat s.ancestry

/-- `valid?` of a saved step: a name, a well-formed ancestry that does not hold its own id. -/
def valid (s : Step) : Bool := s.validNew && !(ancestorIds s.ancestry).contains s.id

/-- `is_root?` of the gem reads a blank column; the process map also writes `"0"` at the top. -/
def topLevel (s : Step) : Bool :=
  s.ancestry == none || s.ancestry == some [] || s.ancestry == some ['0']

/-- The children of a step carry this text. -/
def childAncestry (s : Step) : Text := Ancestry.childAncestry s.ancestry s.id

/-- `step.descendants` -/
def isDescendant (s d : Step) : Bool := Ancestry.descendant s.childAncestry d.ancestry

/-- A valid row stays valid on another path when that path does not hold its id. -/
theorem valid_path {s t : Step} {l : List Nat} (hs : s.valid = true) (hid : t.id = s.id) (hname : t.name = s.name)
    (ht : t.ancestry = some (render l)) (hl : l ≠ []) : t.valid = true ↔ s.id ∉ l := by
  rw [valid, Bool.and_eq_true, validNew, Bool.and_eq_true] at hs
  rw [valid, validNew, ht, hid, hname, hs.1.1, validFormat, pattern_render hl, ancestorIds_render, List.contains_eq_mem,
    Bool.true_and, Bool.true_and, Bool.not_eq_true', decide_eq_false_iff_not]

/-- The row a save writes; no stamp when timestamps are off. -/
def stamped (stamp : Option Nat) (s : Step) : Step :=
  { s with updatedAt := stamp.getD s.updatedAt }

/-- `friendly_id :position`: a step is addressed in URLs by its position. -/
def toParam (s : Step) : Int := s.position

end Step

/-- What a step is looked up by: an Integer, or a text as the parameters of a form or of an URL are. -/
inductive StepKey where
  | integer (i : Int)
  | text (t : Text)
  deriving DecidableEq, Repr

namespace StepKey

/-- `to_i` -/
def toI : StepKey → Int
  | integer i => i
  | text t => Text.toI t

/-- `blank?` -/
def isBlank : StepKey → Bool
  | integer _ => false
  | text t => blank t

/-- The id of a step as a page writes it. -/
def ofId (i : Nat) : StepKey := text (toS i)

end StepKey

namespace Database

/-- `Step.exists?` and `Step.find` with an Integer -/
def stepById (db : Database) (i : Int) : Option Step := db.steps.rows.find? fun s => (s.id : Int) = i

/-- `Step.find`.  `friendly_id :position` takes a text for a position first, in whatever project; only when there is
no step at the position is it an id. -/
def findStep (db : Database) : StepKey → Option Step
  | .integer i => db.stepById i
  | .text t => (db.steps.rows.find? (·.position = Text.toI t)).or (db.stepById (Text.toI t))

theorem stepById_eq_find? (db : Database) (i : Nat) : db.stepById i = db.steps.find? i := by
  rw [stepById, Table.find?]
  congr 1
  funext s
  simp only [Int.natCast_inj]
  rfl

theorem mem_of_findStep {db : Database} {key : StepKey} {s : Step} (h : db.findStep key = some s) :
    s ∈ db.steps.rows := by
  cases key with
  | integer i => exact List.mem_of_find?_eq_some h
  | text t =>
    rcases Option.or_eq_some_iff.mp h with hposition | ⟨-, hid⟩
    · exact List.mem_of_find?_eq_some hposition
    · exact List.mem_of_find?_eq_some hid

theorem stepById_eq_some {db : Database} {i : Int} {s : Step} (h : db.stepById i = some s) :
    s ∈ db.steps.rows ∧ (s.id : Int) = i :=
  ⟨List.mem_of_find?_eq_some h, by simpa using List.find?_some h⟩

/-- A step that has the id is found, if not another one. -/
theorem isSome_findStep {db : Database} {key : StepKey} {s : Step} (h : db.stepById key.toI = some s) :
    (db.findStep key).isSome = true ∧ key.isBlank = false := by
  cases key with
  | integer i => exact ⟨Option.isSome_iff_exists.mpr ⟨s, h⟩, rfl⟩
  | text t =>
    refine ⟨?_, ?_⟩
    · rw [findStep, Option.isSome_or, show db.stepById (Text.toI t) = some s from h, Option.isSome_some, Bool.or_true]
    · -- a blank is the id 0, which no step has
      obtain ⟨hrow, hid⟩ := stepById_eq_some h
      have hpos := (db.steps.bound s hrow).1
      rw [StepKey.isBlank, Bool.eq_false_iff]
      intro hblank
      rw [StepKey.toI, toI_of_blank hblank] at hid
      have hpos : 0 < s.id := hpos
      omega

theorem stepById_of_mem {db : Database} {s : Step} (h : s ∈ db.steps.rows) {i : Int} (hi : (s.id : Int) = i) :
    db.stepById i = some s := by
  rw [← hi, stepById_eq_find?]
  exact Table.find?_of_mem h

theorem findStep_congr {db db' : Database} (h : db'.steps = db.steps) (key : StepKey) :
    db'.findStep key = db.findStep key := by
  cases key <;> simp only [findStep, stepById, h]

end Database

/-- The attributes of a question that a step form submits. -/
structure QuestionAttributes where
  description : Text
  answered : Option Bool
  decision : Option Text
  deriving DecidableEq, Repr

/-- `attr_accessible` of `Step`, without the nested image and design file attributes. -/
inductive StepAttr where
  | description (v : Option Text)
  | name (v : Text)
  | position (v : Int)
  | projectId (v : Option Nat)
  | parentId (v : Option StepKey)
  | ancestry (v : Option Text)
  | publishedOn (v : Option Nat)
  | last (v : Option Bool)
  | userId (v : Option Nat)
  | questionAttributes (v : QuestionAttributes)
  | originalAuthors (v : Option (List Nat))
  | label (v : Option Bool)
  | labelColor (v : Option Text)
  | pin (v : Option Text)
  deriving DecidableEq, Repr

namespace StepAttr

/-- Assign one attribute.  `parent_id=` raises when `Step.find` finds no parent. -/
def assign (db : Database) (s : Step) : StepAttr → Option Step
  | description v => some { s with description := v }
  | name v => some { s with name := v }
  | position v => some { s with position := v }
  | projectId v => some { s with projectId := v }
  | parentId none => some { s with ancestry := none }
  | parentId (some key) =>
    if key.isBlank then some { s with ancestry := none }
    else
      match db.findStep key with
      | none => none
      | some parent => some { s with ancestry := some parent.childAncestry }
  | ancestry v => some { s with ancestry := v }
  | publishedOn v => some { s with publishedOn := v }
  | last v => some { s with last := v }
  | userId v => some { s with userId := v }
  | questionAttributes _ => some s
  | originalAuthors v => some { s with originalAuthors := v }
  | label v => some { s with label := v }
  | labelColor v => some { s with labelColor := v }
  | pin v => some { s with pin := v }

/-- `assign_attributes`, in the order of the parameters. -/
def assignAll (db : Database) (s : Step) (params : List StepAttr) : Option Step :=
  params.foldlM (assign db) s

/-- `params[:step][:parent_id]` -/
def parentOf (params : List StepAttr) : Option StepKey :=
  params.findSome? fun
    | parentId v => v
    | _ => none

def hasParent (params : List StepAttr) : Bool :=
  params.any fun
    | parentId _ => true
    | _ => false

/-- `params[:step][:parent_id] = v`: the key keeps its place, a new key comes last. -/
def setParent (v : Option StepKey) (params : List StepAttr) : List StepAttr :=
  if hasParent params then
    params.map fun
      | parentId _ => parentId v
      | a => a
  else params ++ [parentId v]

/-- `params[:step][:position]` -/
def positionOf (params : List StepAttr) : Option Int :=
  params.findSome? fun
    | position v => some v
    | _ => none

/-- An empty pin is submitted as an empty text and stored as nil. -/
def clearEmptyPin : StepAttr → StepAttr
  | pin (some []) => pin none
  | a => a

/-- `params[:step][:question_attributes]` -/
def questionOf (params : List StepAttr) : Option QuestionAttributes :=
  params.findSome? fun
    | questionAttributes v => some v
    | _ => none

/-- Assigning looks only for the new parent. -/
theorem assignAll_congr {db db' : Database} (h : db'.steps = db.steps) (params : List StepAttr) (s : Step) :
    assignAll db' s params = assignAll db s params := by
  have hone : ∀ s a, assign db' s a = assign db s a := by
    intro s a
    cases a with
    | parentId v =>
      cases v with
      | none => rfl
      | some key => rw [assign, assign, Database.findStep_congr h]
    | _ => rfl
  induction params generalizing s with
  | nil => rfl
  | cons a params ih =>
    rw [assignAll, assignAll, List.foldlM_cons, List.foldlM_cons, hone]
    exact bind_congr fun s => ih s

end StepAttr

namespace Database

/-- Write the row of `s`. -/
def putStep (db : Database) (s : Step) : Database :=
  { db with steps := db.steps.modify s.id (fun r => { s with id := r.id }) (fun _ => rfl) }

/-- `Step#check_decision`: an answered question loses a decision that was never filled in. -/
def checkDecision (db : Database) (s : Nat) : Database :=
  match db.stepQuestion s with
  | none => db
  | some q =>
    match db.questionDecision q.id with
    | none => db
    | some d =>
      if q.answered && (d.description == "I decided to ...".toList || blank d.description) then
        { db with decisions := db.decisions.filter (·.id ≠ d.id) }
      else db

/-- The row that a save writes, without the callbacks after it. -/
def storeRow (db : Database) (stamp : Option Nat) (s : Step) : Database := db.putStep (s.stamped stamp)

/-- A save without validation, as `update_attribute` does it. -/
def storeStep (db : Database) (stamp : Option Nat) (s : Step) : Database :=
  (db.storeRow stamp s).checkDecision s.id

/-- `update_attributes`: an invalid record is not written. -/
def saveStep (db : Database) (stamp : Option Nat) (s : Step) : Option Database :=
  if s.valid then some (db.storeStep stamp s) else none

/-- `Step.find(i).update_attributes(..)` where the result is not looked at. -/
def updateStep (db : Database) (stamp : Option Nat) (i : Nat) (f : Step → Step) : Database :=
  match db.steps.find? i with
  | none => db
  | some s => (db.saveStep stamp (f s)).getD db

/-- The images that `:dependent => :destroy` reaches from image `i`: its remixes, their remixes and
so on, to the given depth. -/
def remixImages (db : Database) : Nat → Nat → List Nat
  | 0, i => [i]
  | n + 1, i =>
    i :: ((db.images.rows.filter (·.originalId = some i)).map (·.id)).flatMap (db.remixImages n)

/-- `image.video.destroy` through the `has_one`, which is the first video of the image. -/
def destroyImageVideo (db : Database) (i : Nat) : Database :=
  match db.videos.rows.find? (·.imageId = some i) with
  | none => db
  | some v => { db with videos := db.videos.filter (·.id ≠ v.id) }

/-- `image.destroy`.  No chain of remixes is longer than the table. -/
def destroyImage (db : Database) (i : Nat) : Database :=
  let gone := db.remixImages db.images.rows.length i
  let db := gone.foldl destroyImageVideo db
  { db with images := db.images.filter fun m => !gone.contains m.id }

/-- `question.destroy`, with its decision. -/
def destroyQuestion (db : Database) (q : Nat) : Database :=
  { db with
    questions := db.questions.filter (·.id ≠ q)
    decisions := db.decisions.filter (·.questionId ≠ q) }

/-- `apply_orphan_strategy` of the step `d`, over every project. -/
def adoptChildren (db : Database) (now : Nat) (d : Step) : Database :=
  (db.steps.rows.filter d.isDescendant).foldl (fun db s =>
    db.storeStep (some now) { s with ancestry := some (adopt d.id s.ancestry) }) db

/-- The rows with `:dependent => :destroy` on a step. -/
def destroyDependents (db : Database) (s : Nat) : Database :=
  let db := { db with edits := db.edits.filter (·.stepId ≠ some s) }
  let db := (db.stepImages s).foldl (fun db m => db.destroyImage m.id) db
  let db := { db with videos := db.videos.filter (·.stepId ≠ some (s : Int)) }
  match db.stepQuestion s with
  | none => db
  | some q => db.destroyQuestion q.id

/-- `step.destroy` -/
def destroyStep (db : Database) (now : Nat) (d : Step) : Database :=
  let db := (db.adoptChildren now d).destroyDependents d.id
  { db with steps := db.steps.filter (·.id ≠ d.id) }

/-! ## The rows after a save -/

section Rows

variable (db : Database)

@[simp] theorem rows_putStep (s : Step) :
    (db.putStep s).steps.rows = db.steps.rows.map fun r => if r.id = s.id then s else r := by
  rw [putStep, Table.rows_modify]
  apply List.map_congr_left
  intro r _
  change (if r.id = s.id then ({ s with id := r.id } : Step) else r) = _
  by_cases h : r.id = s.id
  · rw [if_pos h, if_pos h, h]
  · rw [if_neg h, if_neg h]

@[simp] theorem steps_checkDecision (i : Nat) : (db.checkDecision i).steps = db.steps := by
  unfold checkDecision
  split
  · rfl
  · split
    · rfl
    · split <;> rfl

theorem rows_storeRow (stamp : Option Nat) (s : Step) :
    (db.storeRow stamp s).steps.rows = db.steps.rows.map fun r => if r.id = s.id then s.stamped stamp else r := by
  rw [storeRow, rows_putStep]
  rfl

theorem rows_storeStep (stamp : Option Nat) (s : Step) :
    (db.storeStep stamp s).steps.rows =
      db.steps.rows.map fun r => if r.id = s.id then s.stamped stamp else r := by
  rw [storeStep, steps_checkDecision, rows_storeRow]

end Rows

end Database

namespace Step

/-- The row after `update_attributes` on it. -/
def updated (stamp : Option Nat) (f : Step → Step) (s : Step) : Step :=
  if (f s).valid then (f s).stamped stamp else s

theorem updated_id (stamp : Option Nat) {f : Step → Step} (hf : ∀ s, (f s).id = s.id) (s : Step) :
    (s.updated stamp f).id = s.id := by
  unfold updated
  split
  · exact hf s
  · rfl

end Step

theorem Database.rows_updateStep (db : Database) (stamp : Option Nat) (i : Nat) {f : Step → Step}
    (hf : ∀ s, (f s).id = s.id) :
    (db.updateStep stamp i f).steps.rows =
      db.steps.rows.map fun s => if s.id = i then s.updated stamp f else s := by
  rw [updateStep]
  cases hfind : db.steps.find? i with
  | none => exact (Table.map_not_found hfind _).symm
  | some s =>
    dsimp only
    rw [saveStep]
    by_cases hv : (f s).valid = true
    · have hfid : (f s).id = i := (hf s).trans (Table.find?_eq_some.mp hfind).2
      rw [if_pos hv, Option.getD_some, rows_storeStep, hfid]
      exact Table.map_congr_found hfind (by rw [Step.updated, if_pos hv])
    · rw [if_neg hv, Option.getD_none]
      exact (Table.map_found_self hfind (by rw [Step.updated, if_neg hv])).symm
