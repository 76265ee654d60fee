import BuildInProgress.ImageCascade

/-!
# The nested attributes of a step form

A step form brings the attributes of the question with its decision, of the images and of the design files.  The
assignment looks up the records that the ids name, and a save writes what was assigned, builds what is new and
destroys what is marked.
-/

open Text

/-- A nested parameter.  `malformed` is anything else than `null` and attributes. -/
inductive Submitted (α : Type) where
  | absent
  | null
  | malformed
  | hash (v : α)
  deriving DecidableEq, Repr

/-- `decision_attributes` -/
structure DecisionHash where
  id : Text
  destroy : Bool
  description : Option Text
  deriving DecidableEq, Repr

/-- `question_attributes` with a description. -/
structure QuestionHash where
  id : Text
  destroy : Bool
  description : Text
  answered : Option Bool
  featured : Option (Option Bool)
  decision : Submitted DecisionHash
  deriving DecidableEq, Repr

/-- One of the `images_attributes`.  `upload` says whether the uploader takes the file that comes with them. -/
structure ImageHash where
  id : Text
  destroy : Bool
  attrs : List ImageAttr
  upload : Option Bool
  deriving DecidableEq, Repr

/-- One of the `design_files_attributes`, with or without a file. -/
structure FileHash where
  id : Text
  destroy : Bool
  upload : Bool
  deriving DecidableEq, Repr

/-- `design_files`; a row always has its file. -/
structure DesignFile where
  id : Nat
  stepId : Option Nat
  deriving DecidableEq, Repr

/-- What a save asks beside the tables: the design files, and the rows and texts that the columns take.  The database
raises for any other. -/
structure SaveContext where
  designFiles : List DesignFile
  takesStep : Step → Bool
  takesImage : Image → Bool
  takesText : Text → Bool

/-- A server without design files, whose text columns hold 255 characters. -/
def plainServer : SaveContext where
  designFiles := []
  takesStep := fun s => s.name.length ≤ 255 && [s.ancestry, s.labelColor, s.pin].all (·.all (·.length ≤ 255))
  takesImage := fun m => [m.imagePath, m.caption, m.s3Filepath].all (·.all (·.length ≤ 255))
  takesText := fun t => t.length ≤ 255

/-- The decision that a question holds after the assignment: not looked at, found and given a text, or built in the
place of an old one. -/
inductive HeldDecision where
  | unloaded
  | found (x : Decision) (description : Text)
  | built (old : Option Decision) (description : Text)
  deriving DecidableEq, Repr

/-- The question that a step holds after the assignment.  `destroyed` is the record that an empty description has
destroyed, `found` one whose attributes were rejected. -/
inductive HeldQuestion where
  | unloaded
  | destroyed (r : Question)
  | found (r : Question)
  | assigned (r : Question) (q : QuestionHash) (d : HeldDecision)
  | built (old : Option Question) (q : QuestionHash) (d : HeldDecision)
  deriving DecidableEq, Repr

/-- The question `r` with the submitted attributes. -/
def QuestionHash.onto (q : QuestionHash) (r : Question) : Question :=
  { r with
    description := q.description
    answered := q.answered.getD r.answered
    featured := q.featured.getD r.featured }

/-- The text of the decision that is written. -/
def HeldDecision.texts : HeldDecision → List Text
  | .unloaded => []
  | .found _ t => [t]
  | .built _ t => [t]

/-- The texts of the question and the decision that are written. -/
def HeldQuestion.texts : HeldQuestion → List Text
  | .assigned _ q d => if q.destroy then [] else q.description :: d.texts
  | .built _ q d => q.description :: d.texts
  | _ => []

/-- The question that the step holds as a destroyed record once it is saved. -/
def HeldQuestion.dropped : HeldQuestion → Option Question
  | .destroyed r => some r
  | .found r => if blank r.description then some r else none
  | .assigned r q _ => if q.destroy then some r else none
  | _ => none

/-- The decision held is the one of the question `r`, or comes in the place of it. -/
def HeldDecision.Of (db : Database) (r : Question) : HeldDecision → Prop
  | .unloaded => True
  | .found x _ => db.questionDecision r.id = some x
  | .built old _ => db.questionDecision r.id = old

/-- The question held is the one of the step `s`, or comes in the place of it. -/
def HeldQuestion.Of (db : Database) (s : Nat) (gone : Option Question) : HeldQuestion → Prop
  | .unloaded => gone = none
  | .destroyed r => gone = some r
  | .found r => gone = none ∧ db.stepQuestion s = some r
  | .assigned r _ d => gone = none ∧ db.stepQuestion s = some r ∧ d.Of db r
  | .built old _ _ => gone = none ∧ db.stepQuestion s = old

namespace ImageHash

/-- The attributes of a new image. -/
def isNew (h : ImageHash) : Bool := blank h.id && !h.destroy

/-- The attributes that name the image `m`. -/
def naming (hs : List ImageHash) (m : Image) : List ImageHash := hs.filter (·.id = toS m.id)

def marked (hs : List ImageHash) (m : Image) : Bool := (naming hs m).any (·.destroy)

/-- The last file that came for the image was not taken. -/
def refused (hs : List ImageHash) (m : Image) : Bool := ((naming hs m).filterMap (·.upload)).getLast? == some false

/-- The image with the attributes that name it. -/
def assigned (hs : List ImageHash) (m : Image) : Image :=
  (naming hs m).foldl (fun m h => h.attrs.foldl ImageAttr.assign m) m

/-- A new image; the association sets its step. -/
def image (s : Nat) (h : ImageHash) : Image :=
  { h.attrs.foldl ImageAttr.assign ProjectsController.blankImage with stepId := some (s : Int) }

theorem assigned_id (hs : List ImageHash) (m : Image) : (assigned hs m).id = m.id := by
  rw [assigned]
  generalize naming hs m = l
  induction l generalizing m with
  | nil => rfl
  | cons h l ih => rw [List.foldl_cons, ih, ImageAttr.foldl_assign_id]

/-- The row of an image once the images of the step `s` are saved; marked ones are not written. -/
def row (s : Nat) (hs : List ImageHash) (m : Image) : Image :=
  if m.stepId = some (s : Int) ∧ marked hs m = false then assigned hs m else m

theorem row_id (s : Nat) (hs : List ImageHash) (m : Image) : (row s hs m).id = m.id := by
  unfold row
  split
  · exact assigned_id hs m
  · rfl

end ImageHash

namespace StepsController

open Database

/-! ## The assignment -/

/-- `decision_attributes=` on a question with the decision `x`.  A decision may not be destroyed this way. -/
def assignDecision (x : Option Decision) : Submitted DecisionHash → Except Outcome HeldDecision
  | .absent => .ok .unloaded
  | .null | .malformed => .error .error
  | .hash d =>
    if blank d.id then .ok (if d.destroy then .unloaded else .built x (d.description.getD []))
    else
      match x with
      | none => .error .notFound
      | some x =>
        if toS x.id = d.id then .ok (.found x (d.description.getD x.description)) else .error .notFound

/-- The question that an empty description destroys in front of the assignment. -/
def emptied (db : Database) (s : Nat) : Submitted QuestionHash → Option Question
  | .hash q => if q.description.isEmpty then db.stepQuestion s else none
  | _ => none

/-- `question_attributes=` -/
def assignQuestion (db : Database) (s : Nat) (gone : Option Question) :
    Submitted QuestionHash → Except Outcome HeldQuestion
  | .absent => .ok .unloaded
  | .null | .malformed => .error .error
  | .hash q =>
    match gone with
    | some r =>
      if blank q.id then .ok (.destroyed r)
      else if toS r.id ≠ q.id then .error .notFound
      -- the attributes of a destroyed record are frozen
      else if q.destroy then .error .error
      else .ok (.destroyed r)
    | none =>
      if blank q.id then
        -- `reject_if` turns a new one without a text away
        if q.destroy || blank q.description then .ok .unloaded
        else (assignDecision none q.decision).map (.built (db.stepQuestion s) q)
      else
        match db.stepQuestion s with
        | none => .error .notFound
        | some r =>
          if toS r.id ≠ q.id then .error .notFound
          -- rejected as well, but the question has been looked up
          else if !q.destroy && blank q.description then .ok (.found r)
          else (assignDecision (db.questionDecision r.id) q.decision).map (.assigned r q)

/-- `images_attributes=`; an id has to be that of an image of the step. -/
def assignImages (db : Database) (s : Nat) : Submitted (List ImageHash) → Except Outcome (List ImageHash)
  | .absent => .ok []
  | .null | .malformed => .error .error
  | .hash hs =>
    if hs.all fun h => blank h.id || (db.stepImages s).any fun m => h.id = toS m.id then .ok hs
    else .error .notFound

/-- `design_files_attributes=`, after `update` has taken away the ids of files that are gone. -/
def assignFiles (files : List DesignFile) (s : Nat) : Submitted (List FileHash) → Except Outcome (List FileHash)
  | .absent => .ok []
  | .null | .malformed => .error .error
  | .hash hs =>
    let hs := hs.map fun h => if files.any fun f => toI h.id = f.id then h else { h with id := [] }
    if hs.all fun h => blank h.id || files.any fun f => f.stepId = some s && h.id = toS f.id then .ok hs
    else .error .notFound

/-! ## The validations -/

/-- The images that are saved have no file that was refused. -/
def imagesValid (db : Database) (s : Nat) (hs : List ImageHash) : Bool :=
  (hs.filter (·.isNew)).all (·.upload != some false) &&
    (db.stepImages s).all fun m => ImageHash.marked hs m || !ImageHash.refused hs m

/-- A new design file comes with its file. -/
def filesValid (hs : List FileHash) : Bool := hs.all fun h => !blank h.id || h.destroy || h.upload

/-! ## The save -/

/-- A decision that `check_decision` takes away from an answered question. -/
def emptyDecision (t : Text) : Bool := t == "I decided to ...".toList || blank t

def dropDecision (db : Database) (i : Nat) : Database := { db with decisions := db.decisions.filter (·.id ≠ i) }

theorem key_describe (t : Text) (x : Decision) : Keyed.key ({ x with description := t } : Decision) = Keyed.key x := rfl

/-- Save the decision of the question `r`, and look at it with `check_decision`. -/
def saveHeldDecision (db : Database) (r : Question) : HeldDecision → Database
  | .unloaded =>
    match db.questionDecision r.id with
    | none => db
    | some x => if r.answered && emptyDecision x.description then dropDecision db x.id else db
  | .found x t =>
    -- the decision destroys itself without a text, and `check_decision` destroys an empty one
    if blank t || (r.answered && emptyDecision t) then dropDecision db x.id
    else { db with decisions := db.decisions.modify x.id (fun x => { x with description := t }) (key_describe t) }
  | .built old t =>
    -- a `has_one` destroys what it replaces
    let db := old.elim db fun x => dropDecision db x.id
    let db' := { db with decisions := db.decisions.insert (fun i => ⟨i, r.id, t⟩) (fun _ => rfl) }
    if r.answered && emptyDecision t then dropDecision db' db.decisions.next else db'

/-- The record of a question that the step holds in the end. -/
structure HeldRecord where
  question : Question
  destroyed : Bool
  deriving DecidableEq, Repr

/-- Save the question of the step `s`.  A new one touches the project of the step, and raises when there is none. -/
def saveHeldQuestion (db : Database) (now : Nat) (s : Step) : HeldQuestion → Option (Database × Option HeldRecord)
  | .unloaded =>
    match db.stepQuestion s.id with
    | none => some (db, none)
    | some r => some (saveHeldDecision db r .unloaded, some ⟨r, false⟩)
  | .destroyed r => some (db, some ⟨r, true⟩)
  | .found r =>
    -- a question that is saved without a text destroys itself
    if blank r.description then some (db.destroyQuestion r.id, some ⟨r, true⟩)
    else some (saveHeldDecision db r .unloaded, some ⟨r, false⟩)
  | .assigned r q d =>
    if q.destroy then some (db.destroyQuestion r.id, some ⟨r, true⟩)
    else
      let db := { db with questions := db.questions.modify r.id q.onto (fun _ => rfl) }
      some (saveHeldDecision db (q.onto r) d, some ⟨r, false⟩)
  | .built old q d =>
    (s.projectId.bind db.projects.find?).map fun project =>
      let db := old.elim db fun r => db.destroyQuestion r.id
      let r : Question := ⟨db.questions.next, s.id, q.description, q.answered.getD false, q.featured.getD none⟩
      let db := { db with questions := db.questions.insert (fun i => { r with id := i }) (fun _ => rfl) }
      ((saveHeldDecision db r d).touchProject now project.id, some ⟨r, false⟩)

/-- The rows of the images of the step with the assigned attributes, and those of the new images. -/
def storeImages (db : Database) (s : Nat) (hs : List ImageHash) : Database :=
  (hs.filter (·.isNew)).foldl (fun db h => ImagesController.insertImage db (h.image s))
    { db with images := db.images.map (ImageHash.row s hs) (ImageHash.row_id s hs) }

def markedImages (db : Database) (s : Nat) (hs : List ImageHash) : List Nat :=
  ((db.stepImages s).filter (ImageHash.marked hs)).map (·.id)

/-- An image that was remixed from itself, whose cascade does not end. -/
def endless (db : Database) (i : Nat) : Bool :=
  db.images.rows.any fun x => x.originalId == some i && (db.remixImages db.images.rows.length x.id).contains i

/-- Save the images: the marked ones are destroyed last. -/
def saveImageHashes (db : Database) (s : Nat) (hs : List ImageHash) : Database :=
  (markedImages db s hs).foldl destroyImage (storeImages db s hs)

/-! ## What the records held are -/

theorem stepQuestion_of_emptied {db : Database} {s : Nat} {h : Submitted QuestionHash} {r : Question}
    (hr : emptied db s h = some r) : db.stepQuestion s = some r := by
  unfold emptied at hr
  split at hr
  · split at hr
    · exact hr
    · cases hr
  · cases hr

theorem assignDecision_of {db : Database} {r : Question} {h : Submitted DecisionHash} {d : HeldDecision}
    (hassign : assignDecision (db.questionDecision r.id) h = .ok d) : d.Of db r := by
  cases h with
  | absent =>
    cases hassign
    trivial
  | null => cases hassign
  | malformed => cases hassign
  | hash h =>
    simp only [assignDecision] at hassign
    split at hassign
    · rw [Except.ok.injEq] at hassign
      rw [← hassign]
      split
      · trivial
      · rfl
    · split at hassign
      · cases hassign
      · rename_i x hx
        split at hassign
        · rw [Except.ok.injEq] at hassign
          rw [← hassign]
          exact hx
        · cases hassign

theorem assignQuestion_of {db : Database} {s : Nat} {h : Submitted QuestionHash} {gone : Option Question}
    (hgone : gone = emptied db s h) {held : HeldQuestion} (hassign : assignQuestion db s gone h = .ok held) :
    held.Of db s gone := by
  cases h with
  | absent =>
    cases hassign
    exact hgone
  | null => cases hassign
  | malformed => cases hassign
  | hash q =>
    simp only [assignQuestion] at hassign
    cases gone with
    | some r =>
      have hheld : .ok (HeldQuestion.destroyed r) = (.ok held : Except Outcome HeldQuestion) := by
        dsimp only at hassign
        split at hassign
        · exact hassign
        · split at hassign
          · cases hassign
          · split at hassign
            · cases hassign
            · exact hassign
      cases hheld
      rfl
    | none =>
      dsimp only at hassign
      split at hassign
      · split at hassign
        · cases hassign
          rfl
        · cases hdecision : assignDecision none q.decision with
          | error o =>
            rw [hdecision] at hassign
            cases hassign
          | ok d =>
            rw [hdecision] at hassign
            cases hassign
            exact ⟨rfl, rfl⟩
      · split at hassign
        · cases hassign
        · rename_i r hr
          split at hassign
          · cases hassign
          · split at hassign
            · cases hassign
              exact ⟨rfl, hr⟩
            · cases hdecision : assignDecision (db.questionDecision r.id) q.decision with
              | error o =>
                rw [hdecision] at hassign
                cases hassign
              | ok d =>
                rw [hdecision] at hassign
                cases hassign
                exact ⟨rfl, hr, assignDecision_of hdecision⟩

/-! ## What a save of the question writes -/

theorem touches_saveHeldDecision (db : Database) (r : Question) (d : HeldDecision) :
    Touches [.decisions] db (saveHeldDecision db r d) := by
  have hdecisions : ∀ (db : Database) (x : Table Decision), Touches [.decisions] db { db with decisions := x } := by
    intro db x t ht
    cases t <;> first | rfl | exact absurd (by decide) ht
  cases d with
  | unloaded =>
    rw [saveHeldDecision]
    split
    · exact .refl _ db
    · exact .ite (fun _ => hdecisions db _) fun _ => .refl _ db
  | found x t => exact .ite (fun _ => hdecisions db _) fun _ => hdecisions db _
  | built old t =>
    have hold : Touches [.decisions] db (old.elim db fun x => dropDecision db x.id) := by
      cases old with
      | none => exact .refl _ db
      | some x => exact hdecisions db _
    have hnew := hold.trans (hdecisions _ ((old.elim db fun x => dropDecision db x.id).decisions.insert
      (fun i => ⟨i, r.id, t⟩) fun _ => rfl))
    exact .ite (fun _ => hnew.trans (hdecisions _ _)) fun _ => hnew

theorem touches_destroyQuestion (db : Database) (i : Nat) :
    Touches [.questions, .decisions] db (db.destroyQuestion i) :=
  touches_questions db _ _

theorem touches_saveHeldQuestion {db db' : Database} {now : Nat} {s : Step} {held : HeldQuestion}
    {record : Option HeldRecord} (hsave : saveHeldQuestion db now s held = some (db', record)) :
    Touches [.projects, .questions, .decisions] db db' := by
  have hdecision : ∀ {db₁ : Database}, Touches [.questions, .decisions] db db₁ → ∀ r d,
      Touches [.questions, .decisions] db (saveHeldDecision db₁ r d) := fun h r d =>
    h.trans ((touches_saveHeldDecision _ r d).mono (by decide))
  have hsub : [TableName.questions, .decisions] ⊆ [.projects, .questions, .decisions] := by decide
  cases held with
  | unloaded =>
    rw [saveHeldQuestion] at hsave
    split at hsave
    · cases hsave
      exact .refl _ db
    · cases hsave
      exact (hdecision (.refl _ db) _ _).mono hsub
  | destroyed r =>
    cases hsave
    exact .refl _ db
  | found r =>
    rw [saveHeldQuestion] at hsave
    split at hsave
    · cases hsave
      exact (touches_destroyQuestion db _).mono hsub
    · cases hsave
      exact (hdecision (.refl _ db) _ _).mono hsub
  | assigned r q d =>
    rw [saveHeldQuestion] at hsave
    split at hsave
    · cases hsave
      exact (touches_destroyQuestion db _).mono hsub
    · cases hsave
      exact (hdecision (touches_questions db _ db.decisions) _ _).mono hsub
  | built old q d =>
    rw [saveHeldQuestion] at hsave
    obtain ⟨project, -, heq⟩ := Option.map_eq_some_iff.mp hsave
    cases heq
    have hold : Touches [.questions, .decisions] db (old.elim db fun r => db.destroyQuestion r.id) := by
      cases old with
      | none => exact .refl _ db
      | some r => exact touches_destroyQuestion db _
    refine .trans ((hdecision (hold.trans ?_) _ _).mono hsub) ((touches_touchProject _ now project.id).mono (by decide))
    exact touches_questions _ _ _

/-! ## When the question and the decision stay the same -/

/-- The decision `x` of the question `r` stays the same. -/
def keepsDecision (r : Question) (x : Option Decision) : HeldDecision → Bool
  | .unloaded => x.all fun x => !(r.answered && emptyDecision x.description)
  | .found y t => t == y.description && !(blank t || (r.answered && emptyDecision t))
  | .built old t => old.isNone && (r.answered && emptyDecision t)

/-- The question of the step `s` and its decision stay the same. -/
def keepsQuestion (db : Database) (s : Nat) : HeldQuestion → Bool
  | .unloaded => (db.stepQuestion s).all fun r => keepsDecision r (db.questionDecision r.id) .unloaded
  | .destroyed _ => false
  | .found r => !blank r.description && keepsDecision r (db.questionDecision r.id) .unloaded
  | .assigned r q d => !q.destroy && (q.onto r == r && keepsDecision r (db.questionDecision r.id) d)
  | .built _ _ _ => false

section

variable {db : Database} {r : Question} {x : Decision} {t : Text}

/-- A decision that is dropped is not found again. -/
theorem questionDecision_dropDecision (db : Database) (q : Nat) (x : Decision) :
    (dropDecision db x.id).questionDecision q ≠ some x := by
  intro hx
  have hmem := List.mem_of_find?_eq_some hx
  rw [dropDecision, Table.rows_filter] at hmem
  exact absurd (List.mem_filter.mp hmem).2 (by simp)

/-- A decision that is built where there is none stays away only when `check_decision` takes it again. -/
theorem questionDecision_built_none (hx : db.questionDecision r.id = none) (t : Text) :
    (saveHeldDecision db r (.built none t)).questionDecision r.id = none ↔ (r.answered && emptyDecision t) = true := by
  have hnone : db.decisions.rows.find? (·.questionId = r.id) = none := hx
  rw [saveHeldDecision]
  dsimp only [Option.elim_none]
  by_cases hgoes : (r.answered && emptyDecision t) = true
  · rw [if_pos hgoes]
    refine iff_of_true ?_ hgoes
    rw [dropDecision, questionDecision, Table.rows_filter, Table.rows_insert, List.filter_append,
      List.filter_cons_of_neg (by simp), List.filter_nil, List.append_nil, List.filter_eq_self.mpr ?_]
    · exact hnone
    · intro x hx
      have hbound := (db.decisions.bound x hx).2
      rw [decide_eq_true_eq]
      exact Nat.ne_of_lt hbound
  · rw [if_neg hgoes]
    refine iff_of_false (fun hfind => ?_) hgoes
    rw [questionDecision, Table.rows_insert, List.find?_append, hnone, List.find?_cons, decide_eq_true rfl] at hfind
    cases hfind

/-- A decision that is built in the place of another drops it. -/
theorem questionDecision_built_some (hx : db.questionDecision r.id = some x) (t : Text) :
    (saveHeldDecision db r (.built (some x) t)).questionDecision r.id ≠ some x := by
  have hbound := (db.decisions.bound x (List.mem_of_find?_eq_some hx)).2
  intro hfind
  have hmem := List.mem_of_find?_eq_some hfind
  -- only the new row is not among those that the drop leaves
  have hrows : x ∈ db.decisions.rows.filter (·.id ≠ x.id) ∨ x = ⟨db.decisions.next, r.id, t⟩ := by
    rw [saveHeldDecision] at hmem
    dsimp only [Option.elim_some] at hmem
    split at hmem
    · rw [dropDecision, Table.rows_filter] at hmem
      have hmem := (List.mem_filter.mp hmem).1
      rw [Table.rows_insert, List.mem_append, List.mem_singleton] at hmem
      exact hmem
    · rw [Table.rows_insert, List.mem_append, List.mem_singleton] at hmem
      exact hmem
  rcases hrows with hmem | heq
  · exact absurd (List.mem_filter.mp hmem).2 (by simp)
  · rw [heq] at hbound
    exact Nat.lt_irrefl _ hbound

/-- The decision comes out as it was exactly when it is kept. -/
theorem questionDecision_saveHeldDecision {d : HeldDecision} (hd : d.Of db r) :
    (saveHeldDecision db r d).questionDecision r.id = db.questionDecision r.id ↔
      keepsDecision r (db.questionDecision r.id) d = true := by
  cases d with
  | unloaded =>
    rw [saveHeldDecision, keepsDecision]
    cases hx : db.questionDecision r.id with
    | none => exact iff_of_true hx rfl
    | some x =>
      dsimp only
      rw [Option.all_some]
      by_cases hgoes : (r.answered && emptyDecision x.description) = true
      · rw [if_pos hgoes, hgoes]
        exact iff_of_false (questionDecision_dropDecision db r.id x) (by decide)
      · rw [if_neg hgoes, hx, Bool.eq_false_iff.mpr hgoes]
        exact iff_of_true rfl rfl
  | found x t =>
    have hx : db.questionDecision r.id = some x := hd
    rw [saveHeldDecision, keepsDecision, hx]
    by_cases hgoes : (blank t || (r.answered && emptyDecision t)) = true
    · rw [if_pos hgoes, hgoes, Bool.not_true, Bool.and_false]
      exact iff_of_false (questionDecision_dropDecision db r.id x) (by decide)
    · rw [if_neg hgoes, Bool.eq_false_iff.mpr hgoes, Bool.not_false, Bool.and_true, beq_iff_eq]
      have hfind : Database.questionDecision { db with
          decisions := db.decisions.modify x.id (fun x => { x with description := t }) (fun _ => rfl) } r.id =
          some { x with description := t } :=
        Table.find?_where_modify (f := fun y => { y with description := t }) hx (fun _ => rfl) fun _ => rfl
      rw [hfind, Option.some.injEq]
      constructor
      · intro hsame
        exact congrArg Decision.description hsame
      · intro ht
        rw [ht]
  | built old t =>
    have hold : db.questionDecision r.id = old := hd
    rw [keepsDecision, hold]
    cases old with
    | none => exact questionDecision_built_none hold t
    | some x => exact iff_of_false (questionDecision_built_some hold t) Bool.false_ne_true

end

theorem stepQuestion_congr {db db' : Database} (h : db'.questions = db.questions) (s : Nat) :
    db'.stepQuestion s = db.stepQuestion s := by
  rw [stepQuestion, h, stepQuestion]

theorem questionDecision_congr {db db' : Database} (h : db'.decisions = db.decisions) (q : Nat) :
    db'.questionDecision q = db.questionDecision q := by
  rw [questionDecision, h, questionDecision]

theorem stepQuestion_saveHeldDecision (db : Database) (r : Question) (d : HeldDecision) (s : Nat) :
    (saveHeldDecision db r d).stepQuestion s = db.stepQuestion s :=
  stepQuestion_congr (touches_saveHeldDecision db r d .questions (by decide)) s

/-- A question that is destroyed is not found again. -/
theorem stepQuestion_destroyQuestion (db : Database) (s : Nat) (r : Question) :
    (db.destroyQuestion r.id).stepQuestion s ≠ some r := by
  intro hr
  have hmem := List.mem_of_find?_eq_some hr
  rw [destroyQuestion, Table.rows_filter] at hmem
  exact absurd (List.mem_filter.mp hmem).2 (by simp)

/-- The question of the step `s` and the decision of it are the same in `db'`. -/
def SameQuestion (db db' : Database) (s : Nat) : Prop :=
  db'.stepQuestion s = db.stepQuestion s ∧
    ∀ r, db.stepQuestion s = some r → db'.questionDecision r.id = db.questionDecision r.id

section

variable {d d' e e' : Database}

theorem heldQuestion_congr (hquestions : d'.questions = d.questions) (hdecisions : d'.decisions = d.decisions)
    {s : Nat} {gone : Option Question} {held : HeldQuestion} (hheld : held.Of d s gone) : held.Of d' s gone := by
  have hdecision : ∀ {r : Question} {x : HeldDecision}, x.Of d r → x.Of d' r := by
    intro r x hx
    cases x with
    | unloaded => trivial
    | found y t => exact (questionDecision_congr hdecisions r.id).trans hx
    | built old t => exact (questionDecision_congr hdecisions r.id).trans hx
  have hquestion := stepQuestion_congr hquestions s
  cases held with
  | unloaded => exact hheld
  | destroyed r => exact hheld
  | found r => exact ⟨hheld.1, hquestion.trans hheld.2⟩
  | assigned r q x => exact ⟨hheld.1, hquestion.trans hheld.2.1, hdecision hheld.2.2⟩
  | built old q x => exact ⟨hheld.1, hquestion.trans hheld.2⟩

theorem keepsQuestion_congr (hquestions : d'.questions = d.questions) (hdecisions : d'.decisions = d.decisions)
    (s : Nat) (held : HeldQuestion) : keepsQuestion d' s held = keepsQuestion d s held := by
  have hdecision : d'.questionDecision = d.questionDecision := funext (questionDecision_congr hdecisions)
  cases held with
  | unloaded => rw [keepsQuestion, stepQuestion_congr hquestions, hdecision, keepsQuestion]
  | destroyed r => rfl
  | found r => rw [keepsQuestion, hdecision, keepsQuestion]
  | assigned r q x => rw [keepsQuestion, hdecision, keepsQuestion]
  | built old q x => rfl

theorem sameQuestion_congr {s : Nat} (hquestions : d'.questions = d.questions) (hdecisions : d'.decisions = d.decisions)
    (hquestions' : e'.questions = e.questions) (hdecisions' : e'.decisions = e.decisions) :
    SameQuestion d' e' s ↔ SameQuestion d e s := by
  rw [SameQuestion, stepQuestion_congr hquestions, stepQuestion_congr hquestions', SameQuestion]
  simp only [questionDecision_congr hdecisions, questionDecision_congr hdecisions']

end

theorem sameQuestion_iff_of_some {db db' : Database} {s : Nat} {r : Question} (hr : db.stepQuestion s = some r)
    (hr' : db'.stepQuestion s = some r) :
    SameQuestion db db' s ↔ db'.questionDecision r.id = db.questionDecision r.id := by
  constructor
  · intro hsame
    exact hsame.2 r hr
  · intro hdecision
    refine ⟨hr'.trans hr.symm, fun x hx => ?_⟩
    rw [hr, Option.some.injEq] at hx
    rw [← hx]
    exact hdecision

theorem not_sameQuestion_of_ne {db db' : Database} {s : Nat} {r : Question} (hr : db.stepQuestion s = some r)
    (hr' : db'.stepQuestion s ≠ some r) : ¬ SameQuestion db db' s := fun hsame => hr' (hsame.1.trans hr)

/-- A question that is built leaves none of those that were there. -/
theorem not_sameQuestion_built {db db' : Database} {now : Nat} {s : Step} {old : Option Question} {q : QuestionHash}
    {d : HeldDecision} {record : Option HeldRecord} (hold : db.stepQuestion s.id = old)
    (hsave : saveHeldQuestion db now s (.built old q d) = some (db', record)) : ¬ SameQuestion db db' s.id := by
  obtain ⟨project, -, heq⟩ := Option.map_eq_some_iff.mp hsave
  rw [Prod.mk.injEq] at heq
  rw [← heq.1]
  intro hsame
  have hquestion := hsame.1
  rw [touchProject, stepQuestion] at hquestion
  dsimp only at hquestion
  rw [← stepQuestion, stepQuestion_saveHeldDecision, stepQuestion, Table.rows_insert, List.find?_append, hold]
    at hquestion
  cases old with
  | none =>
    rw [Option.elim_none, ← stepQuestion, hold, Option.none_or, List.find?_cons, decide_eq_true rfl] at hquestion
    cases hquestion
  | some r =>
    rw [Option.elim_some, Option.or_eq_some_iff] at hquestion
    rcases hquestion with hkept | ⟨-, hnew⟩
    · exact stepQuestion_destroyQuestion db s.id r hkept
    · -- the row that is built has a new key
      have hbound := (db.questions.bound r (List.mem_of_find?_eq_some hold)).2
      have hmem := List.mem_of_find?_eq_some hnew
      rw [List.mem_singleton] at hmem
      rw [hmem] at hbound
      exact Nat.lt_irrefl _ hbound

/-- The question and its decision come out as they were exactly when they are kept. -/
theorem sameQuestion_saveHeldQuestion {db db' : Database} {now : Nat} {s : Step} {held : HeldQuestion}
    {record : Option HeldRecord} (hheld : held.Of db s.id none)
    (hsave : saveHeldQuestion db now s held = some (db', record)) :
    SameQuestion db db' s.id ↔ keepsQuestion db s.id held = true := by
  cases held with
  | unloaded =>
    rw [saveHeldQuestion] at hsave
    rw [keepsQuestion]
    cases hr : db.stepQuestion s.id with
    | none =>
      rw [hr] at hsave
      cases hsave
      refine iff_of_true ⟨rfl, fun r hr' => ?_⟩ rfl
      exact absurd (hr.symm.trans hr') (by simp)
    | some r =>
      rw [hr] at hsave
      cases hsave
      rw [sameQuestion_iff_of_some hr ((stepQuestion_saveHeldDecision db r _ s.id).trans hr), Option.all_some]
      exact questionDecision_saveHeldDecision trivial
  | destroyed r => exact absurd hheld (by simp [HeldQuestion.Of])
  | found r =>
    obtain ⟨-, hr⟩ := hheld
    rw [saveHeldQuestion] at hsave
    rw [keepsQuestion]
    split at hsave
    · rename_i hblank
      cases hsave
      rw [hblank]
      exact iff_of_false (not_sameQuestion_of_ne hr (stepQuestion_destroyQuestion db s.id r)) (by simp)
    · rename_i hblank
      cases hsave
      rw [sameQuestion_iff_of_some hr ((stepQuestion_saveHeldDecision db r _ s.id).trans hr),
        Bool.eq_false_iff.mpr hblank, Bool.not_false, Bool.true_and]
      exact questionDecision_saveHeldDecision trivial
  | assigned r q d =>
    obtain ⟨-, hr, hd⟩ := hheld
    rw [saveHeldQuestion] at hsave
    rw [keepsQuestion]
    split at hsave
    · rename_i hdestroy
      cases hsave
      rw [hdestroy]
      exact iff_of_false (not_sameQuestion_of_ne hr (stepQuestion_destroyQuestion db s.id r)) (by simp)
    · rename_i hdestroy
      cases hsave
      have hquestion : Database.stepQuestion (saveHeldDecision
          { db with questions := db.questions.modify r.id q.onto (fun _ => rfl) } (q.onto r) d) s.id = some (q.onto r) := by
        rw [stepQuestion_saveHeldDecision]
        exact Table.find?_where_modify (f := q.onto) hr (fun _ => rfl) fun _ => rfl
      rw [Bool.eq_false_iff.mpr hdestroy, Bool.not_false, Bool.true_and, Bool.and_eq_true, beq_iff_eq]
      by_cases hsame : q.onto r = r
      · rw [hsame] at hquestion ⊢
        rw [sameQuestion_iff_of_some hr hquestion, and_iff_right rfl]
        have hd : d.Of { db with questions := db.questions.modify r.id q.onto (fun _ => rfl) } r := hd
        exact questionDecision_saveHeldDecision hd
      · refine iff_of_false (not_sameQuestion_of_ne hr fun hr' => hsame ?_) fun hboth => hsame hboth.1
        rw [hquestion, Option.some.injEq] at hr'
        exact hr'
  | built old q d => exact iff_of_false (not_sameQuestion_built hheld.2 hsave) Bool.false_ne_true

/-! ## When the images stay the same -/

theorem touches_saveImageHashes (db : Database) (s : Nat) (hs : List ImageHash) :
    Touches [.images, .videos] db (saveImageHashes db s hs) := by
  have hstore : Touches [.images, .videos] db (storeImages db s hs) :=
    (touches_media db (db.images.map (ImageHash.row s hs) (ImageHash.row_id s hs)) db.videos).trans
      (.foldl (fun db (h : ImageHash) => ImagesController.touches_insertImage db (h.image s)) _ _)
  exact hstore.trans (.foldl touches_destroyImage _ _)

/-- The images of the step `s` stay the same; `update` marks all of them as saved before. -/
def keepsImages (db : Database) (s : Nat) (hs : List ImageHash) : Bool :=
  hs.all (fun h => !h.isNew) && (db.stepImages s).all fun m =>
    !ImageHash.marked hs m && ImageHash.assigned hs { m with saved := some true } == m

section

variable {db db' : Database} {s : Nat} {hs : List ImageHash}

theorem rows_foldl_insertImage (l : List ImageHash) (db : Database) (s : Nat) :
    ∃ new, (l.foldl (fun db h => ImagesController.insertImage db (h.image s)) db).images.rows =
      db.images.rows ++ new ∧ new.length = l.length ∧
      ∀ x ∈ new, db.images.next ≤ x.id ∧ x.stepId = some (s : Int) := by
  induction l generalizing db with
  | nil => exact ⟨[], (List.append_nil _).symm, rfl, by simp⟩
  | cons h l ih =>
    obtain ⟨new, hrows, hlength, hnew⟩ := ih (ImagesController.insertImage db (h.image s))
    refine ⟨{ h.image s with id := db.images.next } :: new, ?_, congrArg (· + 1) hlength, ?_⟩
    · rw [List.foldl_cons, hrows, ImagesController.insertImage, Table.rows_insert, List.append_assoc,
        List.singleton_append]
    · intro x hx
      rcases List.mem_cons.mp hx with rfl | hx
      · exact ⟨le_rfl, rfl⟩
      · obtain ⟨hid, hstep⟩ := hnew x hx
        exact ⟨(Nat.le_succ _).trans hid, hstep⟩

theorem rows_storeImages (db : Database) (s : Nat) (hs : List ImageHash) :
    ∃ new, (storeImages db s hs).images.rows = db.images.rows.map (ImageHash.row s hs) ++ new ∧
      new.length = (hs.filter (·.isNew)).length ∧ ∀ x ∈ new, db.images.next ≤ x.id ∧ x.stepId = some (s : Int) :=
  rows_foldl_insertImage _ _ s

/-- The images of the step when the attributes come. -/
theorem stepImages_saveImages (himages : db'.images = (saveImages db s).images) :
    db'.stepImages s = (db.stepImages s).map fun m => { m with saved := some true } := by
  have hproj : ((fun m : Image => decide (m.stepId = some (s : Int))) ∘ fun m =>
      if m.stepId = some (s : Int) then { m with saved := some true } else m) =
      fun m => decide (m.stepId = some (s : Int)) := by
    funext m
    rw [Function.comp]
    split <;> rfl
  rw [stepImages, himages, saveImages, Table.rows_map, List.filter_map, stepImages, hproj]
  apply List.map_congr_left
  intro m hm
  exact if_pos (of_decide_eq_true (List.mem_filter.mp hm).2)

theorem markedImages_eq_nil (himages : db'.images = (saveImages db s).images) :
    markedImages db' s hs = [] ↔ ∀ m ∈ db.stepImages s, ImageHash.marked hs m = false := by
  rw [markedImages, List.map_eq_nil_iff, List.filter_eq_nil_iff, stepImages_saveImages himages, List.forall_mem_map]
  refine forall₂_congr fun m _ => ?_
  rw [Bool.not_eq_true]
  rfl

/-- Images that are kept are written as they are. -/
theorem row_saved_of_keepsImages (hkeeps : keepsImages db s hs = true) {m : Image} (hm : m ∈ db.images.rows) :
    ImageHash.row s hs (if m.stepId = some (s : Int) then { m with saved := some true } else m) = m := by
  rw [keepsImages, Bool.and_eq_true, List.all_eq_true, List.all_eq_true] at hkeeps
  by_cases hstep : m.stepId = some (s : Int)
  · have hboth := hkeeps.2 m (List.mem_filter.mpr ⟨hm, decide_eq_true hstep⟩)
    rw [Bool.and_eq_true, Bool.not_eq_true', beq_iff_eq] at hboth
    rw [if_pos hstep, ImageHash.row]
    exact (if_pos ⟨hstep, hboth.1⟩).trans hboth.2
  · rw [if_neg hstep, ImageHash.row, if_neg fun hboth => hstep hboth.1]

theorem stepImages_of_keepsImages (himages : db'.images = (saveImages db s).images)
    (hkeeps : keepsImages db s hs = true) : (saveImageHashes db' s hs).stepImages s = db.stepImages s := by
  have hboth := hkeeps
  rw [keepsImages, Bool.and_eq_true, List.all_eq_true, List.all_eq_true] at hboth
  have hmarked : markedImages db' s hs = [] := by
    refine (markedImages_eq_nil himages).mpr fun m hm => ?_
    have hm := hboth.2 m hm
    rw [Bool.and_eq_true, Bool.not_eq_true'] at hm
    exact hm.1
  have hnew : hs.filter (·.isNew) = [] := by
    rw [List.filter_eq_nil_iff]
    intro h hh
    exact (Bool.not_eq_true' _).mp (hboth.1 h hh) ▸ Bool.false_ne_true
  have hrows : (saveImageHashes db' s hs).images.rows = db.images.rows := by
    rw [saveImageHashes, hmarked, List.foldl_nil, storeImages, hnew, List.foldl_nil, Table.rows_map, himages, saveImages,
      Table.rows_map, List.map_map]
    apply List.map_eq_self_of_forall
    intro m hm
    exact row_saved_of_keepsImages hkeeps hm
  rw [stepImages, hrows, stepImages]

/-- An image of the step that is still there has been written as it was. -/
theorem row_eq_of_mem (himages : db'.images = (saveImages db s).images) {m : Image} (hm : m ∈ db.stepImages s)
    (hmem : m ∈ (storeImages db' s hs).images.rows) : ImageHash.row s hs { m with saved := some true } = m := by
  obtain ⟨new, hrows, -, hnew⟩ := rows_storeImages db' s hs
  have hsaved : ({ m with saved := some true } : Image) ∈ db'.images.rows := by
    have hstep : ({ m with saved := some true } : Image) ∈ db'.stepImages s := by
      rw [stepImages_saveImages himages]
      exact List.mem_map_of_mem hm
    exact (List.mem_filter.mp hstep).1
  rw [hrows, List.mem_append] at hmem
  rcases hmem with hmem | hmem
  · obtain ⟨m', hm', hrow⟩ := List.mem_map.mp hmem
    have hid : m'.id = m.id := by rw [← hrow, ImageHash.row_id]
    rw [← Table.eq_of_key hm' hsaved hid]
    exact hrow
  · have hbound := (db'.images.bound _ hsaved).2
    exact absurd (hnew m hmem).1 (Nat.not_le.mpr hbound)

/-- The images come out as they were exactly when they are kept. -/
theorem stepImages_saveImageHashes (himages : db'.images = (saveImages db s).images) :
    (saveImageHashes db' s hs).stepImages s = db.stepImages s ↔ keepsImages db s hs = true := by
  refine ⟨fun hsame => ?_, stepImages_of_keepsImages himages⟩
  have hleft : ∀ m ∈ db.stepImages s, m ∈ (storeImages db' s hs).images.rows ∧
      ∀ i ∈ markedImages db' s hs, ¬ (storeImages db' s hs).RemixedFrom i m.id := by
    intro m hm
    rw [← hsame] at hm
    exact mem_images_destroyImages.mp (List.mem_filter.mp hm).1
  have hmarked : ∀ m ∈ db.stepImages s, ImageHash.marked hs m = false := by
    intro m hm
    by_contra hyes
    rw [Bool.not_eq_false] at hyes
    refine (hleft m hm).2 m.id (List.mem_map.mpr ⟨{ m with saved := some true }, ?_, rfl⟩) .self
    rw [List.mem_filter, stepImages_saveImages himages]
    exact ⟨List.mem_map_of_mem hm, hyes⟩
  rw [keepsImages, Bool.and_eq_true, List.all_eq_true, List.all_eq_true]
  refine ⟨fun h hh => ?_, fun m hm => ?_⟩
  · -- a row that is built would be one more
    obtain ⟨new, hrows, hlength, hnew⟩ := rows_storeImages db' s hs
    have hnil : new = [] := by
      refine List.eq_nil_iff_forall_not_mem.mpr fun x hx => ?_
      obtain ⟨hid, hstep⟩ := hnew x hx
      have hmem : x ∈ db.stepImages s := by
        rw [← hsame, saveImageHashes, (markedImages_eq_nil himages).mpr hmarked, List.foldl_nil, stepImages, hrows]
        exact List.mem_filter.mpr ⟨List.mem_append_right _ hx, decide_eq_true hstep⟩
      have hbound := (db.images.bound x (List.mem_filter.mp hmem).1).2
      rw [himages] at hid
      exact absurd hid (Nat.not_le.mpr hbound)
    rw [hnil] at hlength
    have hnone := List.length_eq_zero_iff.mp hlength.symm
    rw [Bool.not_eq_true', ← Bool.not_eq_true]
    exact List.filter_eq_nil_iff.mp hnone h hh
  · have hrow := row_eq_of_mem himages hm (hleft m hm).1
    rw [ImageHash.row, if_pos ⟨of_decide_eq_true (List.mem_filter.mp hm).2, hmarked m hm⟩] at hrow
    rw [hmarked m hm, Bool.not_false, Bool.true_and, beq_iff_eq]
    exact hrow

end

end StepsController
