import BuildInProgress.ActivityDeletion
import BuildInProgress.NestedAttributes
import BuildInProgress.PublishedRows
import BuildInProgress.StepAuthorization

/-!
# An update that does not get through

`update` writes the images, the question and the project before it assigns the attributes, and it looks up the
user's edit after it has saved the step.  The assignment and the save are one transaction, the rest of the request is
not, so that what an exception or a refused save leaves behind depends on how far the request has come.
-/

open Text

/-- The date fields of the step form. -/
structure DateFields where
  date : Text
  time : Option Text
  timeZone : Option Text
  deriving DecidableEq, Repr

/-- `params[:step]`: the columns, the nested attributes and the date fields.  A question whose attributes have no
description is malformed. -/
structure StepHash where
  columns : List StepAttr
  question : Submitted QuestionHash
  images : Submitted (List ImageHash)
  designFiles : Submitted (List FileHash)
  date : Option DateFields
  bare : StepAttr.questionOf columns = none
  deriving DecidableEq, Repr

/-- The form with other date fields. -/
def StepHash.dated (h : StepHash) (d : Option DateFields) : StepHash := { h with date := d }

/-- What `update` asks of the calendar: `DateTime.strptime` with its format, up to what the column then holds, and the
seconds that a stored time is displayed with. -/
structure DateFormat where
  strptime : Text → Option Nat
  second : Nat → Nat

namespace StepsController

open Database

/-- `strftime("%S")` -/
def twoDigits (n : Nat) : Text := if n < 10 then '0' :: toS n else toS n

/-- The publication time that the date fields give, with the seconds of the old one.  A field that is missing, a short
time and a text that is no time raise. -/
def submittedDate (fmt : DateFormat) (s : Step) (d : DateFields) : Option Nat :=
  match s.publishedOn, d.time, d.timeZone with
  | some published, some time, some zone =>
    if time.length < 5 then none
    else
      fmt.strptime
        (d.date ++ ' ' :: time.take 5 ++ ':' :: twoDigits (fmt.second published) ++ time.drop 5 ++ ' ' :: zone)
  | _, _, _ => none

/-- The columns with the publication time among them. -/
def datedColumns (fmt : DateFormat) (s : Step) (h : StepHash) : Option (List StepAttr) :=
  match h.date with
  | none => some h.columns
  | some d => (submittedDate fmt s d).map fun t => h.columns ++ [.publishedOn (some t)]

/-! ## The transaction -/

/-- What the assignment has made of the attributes. -/
structure Assigned where
  step : Step
  question : HeldQuestion
  images : List ImageHash
  designFiles : List FileHash
  deriving DecidableEq, Repr

/-- `assign_attributes` on the step `s`; `gone` is the question of it that has been destroyed. -/
def assign (c : SaveContext) (db : Database) (s : Step) (gone : Option Question) (columns : List StepAttr)
    (h : StepHash) : Except Outcome Assigned := do
  let step ← (StepAttr.assignAll db s columns).elim (.error .notFound) .ok
  let question ← assignQuestion db s.id gone h.question
  let images ← assignImages db s.id h.images
  let designFiles ← assignFiles c.designFiles s.id h.designFiles
  return ⟨step, question, images, designFiles⟩

namespace Assigned

def valid (db : Database) (a : Assigned) : Bool :=
  a.step.valid && imagesValid db a.step.id a.images && filesValid a.designFiles

/-- The database takes the rows that are written, and the cascades of the images come to an end. -/
def fits (c : SaveContext) (db : Database) (a : Assigned) : Bool :=
  c.takesStep a.step && a.question.texts.all c.takesText &&
    (a.images.filter (·.isNew)).all (fun h => c.takesImage (h.image a.step.id)) &&
    (db.stepImages a.step.id).all (fun m =>
      ImageHash.row a.step.id a.images m == m || c.takesImage (ImageHash.row a.step.id a.images m)) &&
    (markedImages db a.step.id a.images).all fun i => !endless (storeImages db a.step.id a.images) i

/-- A question that is built finds the project of its step. -/
def projectFound (db : Database) (a : Assigned) : Bool :=
  match a.question with
  | .built _ _ _ => (a.step.projectId.bind db.projects.find?).isSome
  | _ => true

/-- The save, with its callbacks. -/
def save (c : SaveContext) (db : Database) (now : Nat) (a : Assigned) : Option (Database × Option HeldRecord) :=
  if a.fits c db then
    saveHeldQuestion (saveImageHashes (db.storeRow (some now) a.step) a.step.id a.images) now a.step a.question
  else none

end Assigned

/-! ## The request -/

/-- The activity about the question that the step holds, when there is none about it yet.  A destroyed record gets
none: it raises. -/
def announceRecord (db : Database) (u : Nat) : Option HeldRecord → Outcome × Database
  | none => (.ok, db)
  | some r =>
    if announced db r.question then (.ok, db)
    else if r.destroyed then (.error, db)
    else (.ok, db.createActivity .question r.question.id "question.create".toList (some u) none)

/-- The colour of a label goes with the label. -/
def clearLabel (db : Database) (now : Nat) (s : Step) : Database :=
  if s.label = some false then db.putStep { s with labelColor := none, updatedAt := now } else db

/-- `update` from the edit of the user on. -/
def endHash (u : User) (now : Nat) (project : Project) (s : Step) (e : Edit) (record : Option HeldRecord)
    (db : Database) : Outcome × Database :=
  let db := clearEdit db e project.id
  let db :=
    if project.isPublic || project.unpublished then db.setPublished now u.id project.id (some s.id) else db
  announceRecord (db.setBuilt now project.id) u.id record

/-- `update` behind the save.  A user without an edit of the step makes it raise. -/
def afterSave (u : User) (now : Nat) (project : Project) (s : Step) (record : Option HeldRecord) (db : Database) :
    Outcome × Database :=
  let db := clearLabel db now s
  match db.editOf u.id s.id with
  | none => (.error, db)
  | some e => endHash u now project s e record db

/-- `update` from the assignment of the attributes on.  An assignment or a save that does not succeed is rolled
back. -/
def applyHash (c : SaveContext) (u : User) (now : Nat) (project : Project) (s : Step) (gone : Option Question)
    (columns : List StepAttr) (h : StepHash) (db : Database) : Outcome × Database :=
  match assign c db s gone columns h with
  | .error o => (o, db)
  | .ok a =>
    if a.valid db then
      match a.save c db now with
      | none => (.error, db)
      | some (db, record) => afterSave u now project a.step record db
    else (.invalid, db)

/-- `PUT /projects/:project_id/steps/:id` with everything that the parameters can hold. -/
def updateHash (fmt : DateFormat) (c : SaveContext) (u : User) (now p : Nat) (id : Int) (h : Option StepHash)
    (db : Database) : Outcome × Database :=
  match db.projects.find? p with
  | none => (.notFound, db)
  | some project =>
    match findByPosition db p id with
    | none => (.denied, db)
    | some s =>
      authorize (Ability.updateStep db u s) db <|
        -- every write in front of the attributes is a transaction of its own
        let db := saveImages (touchCollections db now p) s.id
        match h with
        -- `params[:step]` is read for the first time
        | none => (.error, db)
        | some h =>
          if h.question = .malformed then (.error, db)
          else
            let gone := emptied db s.id h.question
            let db := gone.elim db fun r => db.destroyQuestion r.id
            match datedColumns fmt s h with
            | none => (.error, db)
            | some columns =>
              let db := db.touchProject now p
              -- `update` goes through the ids of the files itself
              if h.designFiles = .malformed then (.error, db)
              else applyHash c u now project s gone columns h db

/-! ## What the request finds -/

/-- What the attributes make, when they can be assigned and saved.  The images of the step are marked as saved before
that. -/
def accepted (fmt : DateFormat) (c : SaveContext) (db : Database) (s : Step) (h : Option StepHash) :
    Option Assigned := do
  let h ← h
  if h.question = .malformed ∨ h.designFiles = .malformed then none
  else
    let columns ← datedColumns fmt s h
    let a ← (assign c (saveImages db s.id) s (emptied db s.id h.question) columns h).toOption
    if a.valid (saveImages db s.id) && a.fits c (saveImages db s.id) && a.projectFound db then some a else none

/-- The question that the request empties. -/
def emptiedBy (db : Database) (s : Step) (h : Option StepHash) : Option Question :=
  h.bind fun h => emptied db s.id h.question

/-- The row that `update` leaves; the colour of a label goes with the label. -/
def written (now : Nat) (s : Step) : Step :=
  if s.label = some false then { s with labelColor := none, updatedAt := now } else { s with updatedAt := now }

/-! ## Up to the assignment -/

/-- What the request has written when it comes to the attributes. -/
structure Entered (db db' : Database) (s : Step) (h : Option StepHash) : Prop where
  steps : db'.steps = db.steps
  edits : db'.edits = db.edits
  activities : db'.activities = db.activities
  images : db'.images = (saveImages db s.id).images
  kept : emptiedBy db s h = none → db'.questions = db.questions ∧ db'.decisions = db.decisions
  removed : ∀ r, emptiedBy db s h = some r → ∀ x ∈ db'.questions.rows, x.id ≠ r.id

theorem entered_saveImages (db : Database) (now p : Nat) (s : Step) {h : Option StepHash}
    (hno : emptiedBy db s h = none) : Entered db (saveImages (touchCollections db now p) s.id) s h where
  steps := rfl
  edits := rfl
  activities := rfl
  images := rfl
  kept := fun _ => ⟨rfl, rfl⟩
  removed := fun r hr => absurd (hno.symm.trans hr) (by simp)

theorem emptied_saveImages (db : Database) (now p : Nat) (s : Step) (h : StepHash) :
    emptied (saveImages (touchCollections db now p) s.id) s.id h.question = emptiedBy db s (some h) := by
  rw [emptiedBy, Option.bind_some]
  cases h.question <;> rfl

/-- The tables once the emptied question is gone. -/
def withoutEmptied (db : Database) (now p : Nat) (s : Step) (h : StepHash) : Database :=
  let db := saveImages (touchCollections db now p) s.id
  (emptied db s.id h.question).elim db fun r => db.destroyQuestion r.id

theorem entered_withoutEmptied (db : Database) (now p : Nat) (s : Step) (h : StepHash) :
    Entered db (withoutEmptied db now p s h) s (some h) := by
  rw [withoutEmptied, emptied_saveImages]
  cases hgone : emptiedBy db s (some h) with
  | none => exact entered_saveImages db now p s hgone
  | some r =>
    refine ⟨rfl, rfl, rfl, rfl, fun hnone => ?_, fun r' hr' x hx => ?_⟩
    · rw [hgone] at hnone
      cases hnone
    · rw [hgone, Option.some.injEq] at hr'
      rw [← hr']
      exact of_decide_eq_true (List.mem_filter.mp hx).2

theorem entered_touchProject {db db' : Database} {s : Step} {h : Option StepHash} (hentered : Entered db db' s h)
    (now p : Nat) : Entered db (db'.touchProject now p) s h :=
  ⟨hentered.steps, hentered.edits, hentered.activities, hentered.images, hentered.kept, hentered.removed⟩

/-! ## The assignment does not see the difference -/

section

variable {c : SaveContext} {db db' : Database} {s : Step} {columns : List StepAttr} {h : StepHash}
  {gone : Option Question} {a : Assigned}

theorem assign_ok (hassign : assign c db s gone columns h = .ok a) : StepAttr.assignAll db s columns = some a.step ∧
    assignQuestion db s.id gone h.question = .ok a.question ∧ assignImages db s.id h.images = .ok a.images := by
  rw [assign] at hassign
  cases hstep : StepAttr.assignAll db s columns with
  | none =>
    rw [hstep] at hassign
    cases hassign
  | some step =>
    cases hquestion : assignQuestion db s.id gone h.question with
    | error o =>
      rw [hstep, hquestion] at hassign
      cases hassign
    | ok question =>
      cases himages : assignImages db s.id h.images with
      | error o =>
        rw [hstep, hquestion, himages] at hassign
        cases hassign
      | ok images =>
        cases hfiles : assignFiles c.designFiles s.id h.designFiles with
        | error o =>
          rw [hstep, hquestion, himages, hfiles] at hassign
          cases hassign
        | ok files =>
          rw [hstep, hquestion, himages, hfiles] at hassign
          cases hassign
          exact ⟨rfl, rfl, rfl⟩

theorem stepImages_congr (himages : db'.images = db.images) (s : Nat) : db'.stepImages s = db.stepImages s := by
  rw [stepImages, himages, stepImages]

theorem images_storeImages_congr (himages : db'.images = db.images) (s : Nat) (hs : List ImageHash) :
    (storeImages db' s hs).images = (storeImages db s hs).images := by
  have hinsert : ∀ (l : List ImageHash) {d d' : Database}, d'.images = d.images →
      (l.foldl (fun db h => ImagesController.insertImage db (h.image s)) d').images =
        (l.foldl (fun db h => ImagesController.insertImage db (h.image s)) d).images := by
    intro l
    induction l with
    | nil => exact fun hd => hd
    | cons x l ih =>
      intro d d' hd
      refine ih ?_
      exact congrArg (Table.insert · (fun i => { x.image s with id := i }) fun _ => rfl) hd
  apply hinsert
  rw [himages]

theorem markedImages_congr (himages : db'.images = db.images) (s : Nat) (hs : List ImageHash) :
    markedImages db' s hs = markedImages db s hs := by
  rw [markedImages, stepImages_congr himages, markedImages]

theorem images_saveImageHashes_congr (himages : db'.images = db.images) (s : Nat) (hs : List ImageHash) :
    (saveImageHashes db' s hs).images = (saveImageHashes db s hs).images := by
  rw [saveImageHashes, saveImageHashes, markedImages_congr himages]
  exact images_destroyImages_congr (images_storeImages_congr himages s hs) _

theorem endless_congr (himages : db'.images = db.images) : endless db' = endless db := by
  funext i
  rw [endless, himages, endless]
  congr 1
  funext x
  rw [remixImages_congr himages]

theorem Assigned.valid_congr (himages : db'.images = db.images) (a : Assigned) : a.valid db' = a.valid db := by
  rw [valid, imagesValid, stepImages_congr himages, valid, imagesValid]

theorem Assigned.fits_congr (himages : db'.images = db.images) (c : SaveContext) (a : Assigned) :
    a.fits c db' = a.fits c db := by
  rw [fits, stepImages_congr himages, markedImages_congr himages,
    endless_congr (images_storeImages_congr himages _ _), fits]

theorem assignQuestion_congr (hquestions : gone = none → db'.questions = db.questions ∧ db'.decisions = db.decisions)
    (i : Nat) (h : Submitted QuestionHash) : assignQuestion db' i gone h = assignQuestion db i gone h := by
  cases h with
  | hash q =>
    cases gone with
    | some r => rfl
    | none =>
      obtain ⟨hquestions, hdecisions⟩ := hquestions rfl
      have hdecision : db'.questionDecision = db.questionDecision := funext (questionDecision_congr hdecisions)
      rw [assignQuestion, assignQuestion, stepQuestion_congr hquestions, hdecision]
  | _ => rfl

/-- The assignment sees the steps, the images of the step and, unless it has been destroyed, the question. -/
theorem assign_congr (hsteps : db'.steps = db.steps) (himages : db'.images = db.images)
    (hquestions : gone = none → db'.questions = db.questions ∧ db'.decisions = db.decisions) :
    assign c db' s gone columns h = assign c db s gone columns h := by
  have hassignImages : assignImages db' s.id h.images = assignImages db s.id h.images := by
    cases h.images with
    | hash hs => rw [assignImages, stepImages_congr himages, assignImages]
    | _ => rfl
  rw [assign, StepAttr.assignAll_congr hsteps, assignQuestion_congr hquestions, hassignImages, assign]

end

/-! ## The request stops or saves -/

section

variable {fmt : DateFormat} {c : SaveContext} {u : User} {now p : Nat} {id : Int} {project : Project} {s : Step}
  {db db' : Database} {h : Option StepHash} {a : Assigned}

theorem accepted_eq_some {h : StepHash} : accepted fmt c db s (some h) = some a ↔
    h.question ≠ .malformed ∧ h.designFiles ≠ .malformed ∧ ∃ columns, datedColumns fmt s h = some columns ∧
      assign c (saveImages db s.id) s (emptied db s.id h.question) columns h = .ok a ∧
      a.valid (saveImages db s.id) = true ∧ a.fits c (saveImages db s.id) = true ∧ a.projectFound db = true := by
  by_cases hmalformed : h.question = .malformed ∨ h.designFiles = .malformed
  · refine iff_of_false ?_ fun hall => hmalformed.elim hall.1 hall.2.1
    simp [accepted, hmalformed]
  · have hboth := not_or.mp hmalformed
    rw [accepted, Option.bind_eq_bind, Option.bind_some, if_neg hmalformed, Option.bind_eq_bind,
      Option.bind_eq_some_iff, and_iff_right hboth.1, and_iff_right hboth.2]
    refine exists_congr fun columns => and_congr_right fun _ => ?_
    rw [Option.bind_eq_bind]
    cases assign c (saveImages db s.id) s (emptied db s.id h.question) columns h with
    | error o => simp [Except.toOption]
    | ok b =>
      rw [Except.toOption, Option.bind_some, Except.ok.injEq]
      constructor
      · intro hb
        split at hb
        · rename_i hall
          rw [Bool.and_eq_true, Bool.and_eq_true] at hall
          rw [← Option.some.inj hb]
          exact ⟨rfl, hall.1.1, hall.1.2, hall.2⟩
        · cases hb
      · rintro ⟨rfl, hvalid, hfits, hfound⟩
        rw [hvalid, hfits, hfound]
        rfl

theorem isSome_saveHeldQuestion (hprojects : db'.projects = (db.touchProject now p).projects) :
    (saveHeldQuestion db' now a.step a.question).isSome = a.projectFound db := by
  rw [Assigned.projectFound]
  cases a.question with
  | unloaded =>
    rw [saveHeldQuestion]
    split <;> rfl
  | destroyed r => rfl
  | found r =>
    rw [saveHeldQuestion]
    split <;> rfl
  | assigned r q d =>
    rw [saveHeldQuestion]
    split <;> rfl
  | built old q d =>
    have hfind : ∀ i, (db'.projects.find? i).isSome = (db.projects.find? i).isSome := by
      intro i
      rw [hprojects, touchProject, Table.find?_modify, Option.isSome_map]
    rw [saveHeldQuestion, Option.isSome_map]
    cases a.step.projectId with
    | none => rfl
    | some i => exact hfind i

/-- The save succeeds when the database takes the rows and the project of the step is there. -/
theorem isSome_save (hprojects : db'.projects = (db.touchProject now p).projects)
    (himages : db'.images = (saveImages db s.id).images) :
    (a.save c db' now).isSome = (a.fits c (saveImages db s.id) && a.projectFound db) := by
  rw [Assigned.save, Assigned.fits_congr himages]
  cases a.fits c (saveImages db s.id) with
  | false => rfl
  | true =>
    rw [if_pos rfl, Bool.true_and]
    have hsame : (saveImageHashes (db'.storeRow (some now) a.step) a.step.id a.images).projects = db'.projects :=
      touches_saveImageHashes _ _ _ .projects (by decide)
    exact isSome_saveHeldQuestion (hsame.trans hprojects)

/-- The transaction leaves what was there, or saves what is accepted. -/
theorem applyHash_cases {h : StepHash} {columns : List StepAttr} (hentered : Entered db db' s (some h))
    (hprojects : db'.projects = (db.touchProject now p).projects) (hquestion : h.question ≠ .malformed)
    (hfiles : h.designFiles ≠ .malformed) (hdated : datedColumns fmt s h = some columns) :
    (accepted fmt c db s (some h) = none ∧
      (applyHash c u now project s (emptied db s.id h.question) columns h db').2 = db') ∨
    ∃ a db₂ record, accepted fmt c db s (some h) = some a ∧ a.question.Of db s.id (emptied db s.id h.question) ∧
      a.step.id = s.id ∧ a.save c db' now = some (db₂, record) ∧
      applyHash c u now project s (emptied db s.id h.question) columns h db' =
        afterSave u now project a.step record db₂ := by
  have hsame : assign c db' s (emptied db s.id h.question) columns h =
      assign c (saveImages db s.id) s (emptied db s.id h.question) columns h :=
    assign_congr (hentered.steps) hentered.images fun hgone => hentered.kept hgone
  have haccepted : accepted fmt c db s (some h) =
      (assign c (saveImages db s.id) s (emptied db s.id h.question) columns h).toOption.bind fun a =>
        if a.valid (saveImages db s.id) && a.fits c (saveImages db s.id) && a.projectFound db then some a
        else none := by
    simp [accepted, hquestion, hfiles, hdated]
  rw [haccepted, applyHash, hsame]
  cases hassign : assign c (saveImages db s.id) s (emptied db s.id h.question) columns h with
  | error o => exact Or.inl ⟨rfl, rfl⟩
  | ok a =>
    obtain ⟨hcolumns, hheld, -⟩ := assign_ok hassign
    dsimp only [Except.toOption, Option.bind_some]
    rw [a.valid_congr hentered.images]
    cases a.valid (saveImages db s.id) with
    | false => exact Or.inl ⟨rfl, rfl⟩
    | true =>
      rw [if_pos rfl, Bool.true_and, ← isSome_save hprojects hentered.images]
      cases hsave : a.save c db' now with
      | none => exact Or.inl ⟨rfl, rfl⟩
      | some saved => exact Or.inr ⟨a, saved.1, saved.2, rfl, assignQuestion_of rfl hheld,
          (StepAttr.assignAll_ids hcolumns).1, hsave, rfl⟩

/-- The request stops in front of the save, or the save is made. -/
theorem updateHash_cases (fmt : DateFormat) (c : SaveContext) (now : Nat) (h : Option StepHash)
    (hproject : db.projects.find? p = some project) (hstep : findByPosition db p id = some s)
    (hallowed : Ability.updateStep db u s = some true) :
    (accepted fmt c db s h = none ∧ Entered db (updateHash fmt c u now p id h db).2 s h) ∨
    ∃ a db₁ db₂ record, accepted fmt c db s h = some a ∧ a.question.Of db s.id (emptiedBy db s h) ∧
      a.step.id = s.id ∧ Entered db db₁ s h ∧ db₁.projects = (db.touchProject now p).projects ∧
      a.save c db₁ now = some (db₂, record) ∧
      updateHash fmt c u now p id h db = afterSave u now project a.step record db₂ := by
  rw [updateHash, hproject]
  dsimp only
  rw [hstep]
  dsimp only
  rw [hallowed, authorize]
  cases h with
  | none => exact Or.inl ⟨rfl, entered_saveImages db now p s rfl⟩
  | some h =>
    dsimp only
    by_cases hmalformed : h.question = .malformed
    · rw [if_pos hmalformed]
      refine Or.inl ⟨?_, entered_saveImages db now p s ?_⟩
      · simp [accepted, hmalformed]
      · rw [emptiedBy, Option.bind_some, hmalformed]
        rfl
    · have hgone : emptied (saveImages (touchCollections db now p) s.id) s.id h.question = emptied db s.id h.question :=
        emptied_saveImages db now p s h
      have hbefore : (emptied db s.id h.question).elim (saveImages (touchCollections db now p) s.id) (fun r =>
          (saveImages (touchCollections db now p) s.id).destroyQuestion r.id) = withoutEmptied db now p s h := by
        rw [withoutEmptied, hgone]
      have hentered := entered_withoutEmptied db now p s h
      rw [if_neg hmalformed, hgone, hbefore]
      cases hdated : datedColumns fmt s h with
      | none => exact Or.inl ⟨by simp [accepted, hdated], hentered⟩
      | some columns =>
        have hentered := entered_touchProject hentered now p
        have hprojects : ((withoutEmptied db now p s h).touchProject now p).projects =
            (db.touchProject now p).projects := by
          rw [← hbefore]
          cases emptied db s.id h.question <;> rfl
        dsimp only
        by_cases hfiles : h.designFiles = .malformed
        · rw [if_pos hfiles]
          exact Or.inl ⟨by simp [accepted, hfiles], hentered⟩
        · rw [if_neg hfiles]
          rcases applyHash_cases (c := c) (u := u) hentered hprojects hmalformed hfiles hdated with
            ⟨hnone, heq⟩ | ⟨a, db₂, record, hsome, hheld, hid, hsave, heq⟩
          · rw [heq]
            exact Or.inl ⟨hnone, hentered⟩
          · exact Or.inr ⟨a, _, db₂, record, hsome, hheld, hid, hentered, hprojects, hsave, heq⟩

end

/-! ## Behind the save -/

section

variable {c : SaveContext} {u : User} {now p : Nat} {project : Project} {s : Step} {db db' : Database}
  {h : Option StepHash} {a : Assigned} {record : Option HeldRecord}

theorem save_eq_some (hsave : a.save c db now = some (db', record)) :
    saveHeldQuestion (saveImageHashes (db.storeRow (some now) a.step) a.step.id a.images) now a.step a.question =
      some (db', record) := by
  rw [Assigned.save] at hsave
  split at hsave
  · exact hsave
  · cases hsave

theorem touches_save (hsave : a.save c db now = some (db', record)) :
    Touches [.projects, .steps, .images, .videos, .questions, .decisions] db db' := by
  refine .trans ((SameButSteps.storeRow db (some now) a.step).touches.mono (by decide)) (.trans ?_
    ((touches_saveHeldQuestion (save_eq_some hsave)).mono (by decide)))
  exact (touches_saveImageHashes _ _ _).mono (by decide)

/-- The save writes the row of the step and no other step. -/
theorem steps_save (hsave : a.save c db now = some (db', record)) :
    db'.steps = (db.storeRow (some now) a.step).steps :=
  (touches_saveHeldQuestion (save_eq_some hsave) .steps (by decide) : _ = _).trans
    (touches_saveImageHashes _ _ _ .steps (by decide))

theorem images_save (hsave : a.save c db now = some (db', record)) :
    db'.images = (saveImageHashes db a.step.id a.images).images := by
  have hquestion : db'.images = (saveImageHashes (db.storeRow (some now) a.step) a.step.id a.images).images :=
    touches_saveHeldQuestion (save_eq_some hsave) .images (by decide)
  rw [hquestion]
  apply images_saveImageHashes_congr
  rfl

theorem touches_clearLabel (db : Database) (now : Nat) (s : Step) : Touches [.steps] db (clearLabel db now s) :=
  .ite (fun _ => touches_steps db _) fun _ => .refl _ db

/-- The rows of the steps once the label is settled. -/
theorem rows_clearLabel (hsave : a.save c db now = some (db', record)) :
    (clearLabel db' now a.step).steps.rows =
      db.steps.rows.map fun r => if r.id = a.step.id then written now a.step else r := by
  have hrows : db'.steps.rows = db.steps.rows.map fun r =>
      if r.id = a.step.id then ({ a.step with updatedAt := now } : Step) else r := by
    rw [steps_save hsave, rows_storeRow]
    rfl
  unfold clearLabel written
  split
  · rw [rows_putStep, hrows, List.map_map]
    apply List.map_congr_left
    intro r _
    rw [Function.comp]
    by_cases hid : r.id = a.step.id
    · rw [if_pos hid, if_pos hid]
      exact if_pos rfl
    · rw [if_neg hid, if_neg hid]
  · exact hrows

theorem written_id (now : Nat) (s : Step) : (written now s).id = s.id := by
  unfold written
  split <;> rfl

theorem find?_clearLabel (hs : s ∈ db.steps.rows) (hid : a.step.id = s.id)
    (hsave : a.save c db now = some (db', record)) :
    (clearLabel db' now a.step).steps.find? s.id = some (written now a.step) := by
  refine Table.find?_eq_some.mpr ⟨?_, (written_id now a.step).trans hid⟩
  rw [rows_clearLabel hsave]
  exact List.mem_map.mpr ⟨s, hs, if_pos hid.symm⟩

/-- What follows the save leaves the steps, the questions and the images alone. -/
theorem touches_endHash (u : User) (now : Nat) (project : Project) (s : Step) (e : Edit) (record : Option HeldRecord)
    (db : Database) : Touches [.projects, .edits, .activities] db (endHash u now project s e record db).2 := by
  have hannounce : ∀ d : Database, Touches [.activities] d (announceRecord d u.id record).2 := by
    intro d
    cases record with
    | none => exact .refl _ d
    | some r =>
      rw [announceRecord]
      split
      · exact .refl _ d
      · split
        · exact .refl _ d
        · exact touches_activities d _
  refine .trans ((touches_edits db _).mono (by decide) : Touches _ db (clearEdit db e project.id)) (.trans ?_
    ((hannounce _).mono (by decide)))
  exact .trans ((touches_publish _ _ _ _ _ _).mono (by decide)) ((SameRecords.setBuilt _ _ _).touches.mono (by decide))

theorem edits_endHash (u : User) (now : Nat) (project : Project) (s : Step) (e : Edit) (record : Option HeldRecord)
    (db : Database) : (endHash u now project s e record db).2.edits = (clearEdit db e project.id).edits := by
  have hannounce : ∀ d : Database, (announceRecord d u.id record).2.edits = d.edits := by
    intro d
    cases record with
    | none => rfl
    | some r =>
      rw [announceRecord]
      split
      · rfl
      · split <;> rfl
  rw [endHash]
  refine (hannounce _).trans (.trans ((SameRecords.setBuilt _ _ _).touches .edits (by decide)) ?_)
  exact touches_publish _ _ _ _ _ _ .edits (by decide)

/-- The row of the step after the request. -/
theorem find?_afterSave (hs : s ∈ db.steps.rows) (hid : a.step.id = s.id)
    (hsave : a.save c db now = some (db', record)) :
    (afterSave u now project a.step record db').2.steps.find? s.id = some (written now a.step) := by
  have hrow := find?_clearLabel hs hid hsave
  rw [afterSave]
  split
  · exact hrow
  · rw [(touches_endHash u now project a.step _ record _ .steps (by decide) : _ = _)]
    exact hrow

end

end StepsController
