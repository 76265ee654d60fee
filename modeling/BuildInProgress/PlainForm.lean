import BuildInProgress.StepUpdate

/-!
# The form that sends columns and a question

The step form itself sends the columns and at most one question with its decision, under the ids that are stored.  On
tables where a step has one question and a question one decision, the request is the `update` of the other modules.
-/

open Text

namespace StepAttr

/-- The attribute is a column. -/
def isColumn : StepAttr → Bool
  | questionAttributes _ => false
  | _ => true

theorem questionOf_filter (params : List StepAttr) : questionOf (params.filter isColumn) = none := by
  rw [questionOf, List.findSome?_eq_none_iff]
  intro a ha
  have hcolumn := (List.mem_filter.mp ha).2
  cases a with
  | questionAttributes v => cases hcolumn
  | _ => rfl

/-- The question changes nothing in the row. -/
theorem assignAll_filter (db : Database) (s : Step) (params : List StepAttr) :
    assignAll db s (params.filter isColumn) = assignAll db s params := by
  induction params generalizing s with
  | nil => rfl
  | cons a params ih =>
    cases hcolumn : a.isColumn with
    | true =>
      rw [List.filter_cons_of_pos hcolumn, assignAll, assignAll, List.foldlM_cons, List.foldlM_cons]
      exact bind_congr fun s => ih s
    | false =>
      rw [List.filter_cons_of_neg (by rw [hcolumn]; exact Bool.false_ne_true), ih]
      cases a with
      | questionAttributes v => rfl
      | _ => cases hcolumn

end StepAttr

namespace StepsController

open Database

/-- The decision that is stored for the question of a step. -/
def stepDecision (db : Database) (s : Nat) : Option Decision :=
  (db.stepQuestion s).bind fun r => db.questionDecision r.id

/-- The question of the form, under the stored ids. -/
def plainQuestion (db : Database) (i : Nat) (q : QuestionAttributes) : QuestionHash where
  id := (db.stepQuestion i).elim [] fun r => toS r.id
  destroy := false
  description := q.description
  answered := q.answered
  featured := none
  decision :=
    match q.decision with
    | none => .absent
    | some t => .hash ⟨(stepDecision db i).elim [] fun x => toS x.id, false, some t⟩

/-- The hash that the step form sends for these attributes. -/
def plainForm (db : Database) (s : Nat) (params : List StepAttr) : StepHash where
  columns := params.filter StepAttr.isColumn
  question := (StepAttr.questionOf params).elim .absent fun q => .hash (plainQuestion db s q)
  images := .absent
  designFiles := .absent
  date := none
  bare := StepAttr.questionOf_filter params

/-- The step has at most one question, which has a text, a question has at most one decision, and no decision is
there before its question. -/
structure OneQuestion (db : Database) (s : Nat) : Prop where
  question : ∀ r ∈ db.questions.rows, r.stepId = s → db.stepQuestion s = some r ∧ blank r.description = false
  decision : ∀ x ∈ db.decisions.rows, db.questionDecision x.questionId = some x
  known : ∀ x ∈ db.decisions.rows, x.questionId < db.questions.next

/-- The save that has no images to write. -/
theorem saveImageHashes_nil (db : Database) (s : Nat) : saveImageHashes db s [] = db := by
  have hrow : ∀ m : Image, ImageHash.row s [] m = m := by
    intro m
    unfold ImageHash.row
    split <;> rfl
  have hmarked : markedImages db s [] = [] := by
    rw [markedImages, List.map_eq_nil_iff, List.filter_eq_nil_iff]
    intro m _
    exact Bool.false_ne_true
  rw [saveImageHashes, hmarked, List.foldl_nil, storeImages, List.filter_nil, List.foldl_nil,
    Table.map_eq_self fun m _ => hrow m]

/-! ## The question and its decision -/

theorem checkDecision_eq (db : Database) (s : Nat) :
    db.checkDecision s = (db.stepQuestion s).elim db fun r => saveHeldDecision db r .unloaded := by
  unfold checkDecision
  cases db.stepQuestion s with
  | none => rfl
  | some r => rfl

section

variable {db : Database} {r : Question} {x : Decision}

/-- A decision that is saved and then checked: it was there. -/
theorem saveHeldDecision_found (hx : db.questionDecision r.id = some x)
    (hone : ∀ y ∈ db.decisions.rows, db.questionDecision y.questionId = some y) (t : Text) :
    saveHeldDecision (saveDecision db r.id (some t)) r .unloaded = saveHeldDecision db r (.found x t) := by
  have hsaved : saveDecision db r.id (some t) = { db with
      decisions := if blank t then db.decisions.filter (·.id ≠ x.id)
        else db.decisions.modify x.id (fun x => { x with description := t }) (fun _ => rfl) } := by
    rw [saveDecision, hx]
  rw [hsaved]
  by_cases hblank : blank t = true
  · have hgone : Database.questionDecision { db with decisions := db.decisions.filter (·.id ≠ x.id) } r.id = none := by
      refine List.find?_eq_none.mpr fun y hy hquestion => ?_
      obtain ⟨hmem, hne⟩ := List.mem_filter.mp hy
      rw [decide_eq_true_eq] at hquestion
      have hsame := hone y hmem
      rw [hquestion, hx, Option.some.injEq] at hsame
      rw [hsame] at hne
      simp at hne
    rw [if_pos hblank]
    simp only [saveHeldDecision, hgone, hblank, Bool.true_or, if_true]
    rfl
  · have hfound : Database.questionDecision { db with
        decisions := db.decisions.modify x.id (fun x => { x with description := t }) (fun _ => rfl) } r.id =
        some { x with description := t } :=
      Table.find?_where_modify (f := fun y => { y with description := t }) hx (fun _ => rfl) fun _ => rfl
    rw [if_neg hblank]
    simp only [saveHeldDecision, hfound, hblank, Bool.false_or]
    split
    · exact congrArg (fun ds => ({ db with decisions := ds } : Database))
        (Table.filter_modify db.decisions x.id (fun x => { x with description := t }) fun _ => rfl)
    · rfl

/-- A decision that is saved and then checked: it was not there. -/
theorem saveHeldDecision_built (hx : db.questionDecision r.id = none) (t : Text) :
    saveHeldDecision (saveDecision db r.id (some t)) r .unloaded = saveHeldDecision db r (.built none t) := by
  have hsaved : saveDecision db r.id (some t) =
      { db with decisions := db.decisions.insert (fun i => ⟨i, r.id, t⟩) (fun _ => rfl) } := by
    rw [saveDecision, hx]
  have hfound : Database.questionDecision
      { db with decisions := db.decisions.insert (fun i => ⟨i, r.id, t⟩) (fun _ => rfl) } r.id =
      some ⟨db.decisions.next, r.id, t⟩ := by
    have hnone : db.decisions.rows.find? (·.questionId = r.id) = none := hx
    rw [questionDecision, Table.rows_insert, List.find?_append, hnone, List.find?_cons, decide_eq_true rfl]
    rfl
  rw [hsaved]
  simp only [saveHeldDecision, hfound, Option.elim_none]

end

/-- The record that the step holds shows the question of the step, or the one that is gone. -/
def Shows (db : Database) (s : Nat) (gone : Option Question) : Option HeldRecord → Prop
  | none => gone = none ∧ db.stepQuestion s = none
  | some x =>
    if x.destroyed then gone = some x.question
    else gone = none ∧ (db.stepQuestion s).map (·.id) = some x.question.id

theorem announceQuestion_none (db : Database) (u s : Nat) : announceQuestion db u s none =
    (db.stepQuestion s).elim db fun q =>
      if announced db q then db else db.createActivity .question q.id "question.create".toList (some u) none := by
  unfold announceQuestion
  cases db.stepQuestion s <;> rfl

theorem announceQuestion_some (db : Database) (u s : Nat) (r : Question) : announceQuestion db u s (some r) = db := by
  unfold announceQuestion
  cases db.stepQuestion s <;> rfl

theorem endOutcome_announceQuestion (db : Database) (u s : Nat) (gone : Option Question) :
    endOutcome gone (announceQuestion db u s gone) = endOutcome gone db := by
  cases gone with
  | none => rfl
  | some r => rw [announceQuestion_some]

/-- The announcement asks for the id of the record alone. -/
theorem announceRecord_of_shows {db : Database} {u s : Nat} {gone : Option Question} {record : Option HeldRecord}
    (hshows : Shows db s gone record) :
    announceRecord db u record = (endOutcome gone db, announceQuestion db u s gone) := by
  cases record with
  | none =>
    obtain ⟨rfl, hnone⟩ := hshows
    rw [announceRecord, announceQuestion_none, hnone]
    rfl
  | some x =>
    rw [Shows] at hshows
    rw [announceRecord]
    split at hshows
    · rename_i hdestroyed
      rw [hshows, hdestroyed, announceQuestion_some, endOutcome, Option.all_some]
      cases announced db x.question <;> rfl
    · rename_i hdestroyed
      obtain ⟨rfl, hid⟩ := hshows
      obtain ⟨r, hr, hid⟩ := Option.map_eq_some_iff.mp hid
      have hsame : announced db r = announced db x.question := by rw [announced, hid, announced]
      rw [Bool.eq_false_iff.mpr hdestroyed, announceQuestion_none, hr, endOutcome, Option.all_none, Option.elim_some,
        hsame, hid]
      cases announced db x.question <;> rfl

/-- A project that has been touched is not changed by another touch of the same moment. -/
theorem touchProject_touched {db db' : Database} {now p : Nat} (h : db'.projects = (db.touchProject now p).projects) :
    db'.touchProject now p = db' := by
  have hprojects : db'.projects.modify p (fun p => { p with updatedAt := now }) (fun _ => rfl) = db'.projects := by
    refine Table.map_eq_self fun r hr => ?_
    rw [h, touchProject, Table.rows_modify] at hr
    obtain ⟨r', -, rfl⟩ := List.mem_map.mp hr
    by_cases hid : Keyed.key r' = p
    · rw [if_pos hid, if_pos (show Keyed.key ({ r' with updatedAt := now } : Project) = p from hid)]
    · rw [if_neg hid, if_neg hid]
  rw [touchProject, hprojects]

/-! ## The question of the form -/

section

variable {db : Database} {i now p : Nat} {params : List StepAttr} {q : QuestionAttributes} {r : Question} {s : Step}

theorem plainForm_question (hq : StepAttr.questionOf params = some q) :
    (plainForm db i params).question = .hash (plainQuestion db i q) := by
  rw [plainForm, hq, Option.elim_some]

/-- A form without a question, or with a blank one, leaves the question alone. -/
theorem updateQuestion_of_blank (hq : ∀ q, StepAttr.questionOf params = some q → blank q.description = true) :
    updateQuestion db i params = (db.stepQuestion i).elim db fun r => saveHeldDecision db r .unloaded := by
  have hsave : saveQuestion db i params = db := by
    unfold saveQuestion
    split
    · rfl
    · rename_i q hsome
      exact if_pos (hq q hsome)
  rw [updateQuestion, hsave, checkDecision_eq]

theorem shows_saveHeldDecision (hr : db.stepQuestion i = some r) (x : Question) (d : HeldDecision) :
    Shows (saveHeldDecision db x d) i none (some ⟨r, false⟩) := by
  refine ⟨rfl, ?_⟩
  rw [stepQuestion_saveHeldDecision, hr]
  rfl

/-- The decision that a question holds once the form is assigned. -/
def plainDecision (x : Option Decision) : Option Text → HeldDecision
  | none => .unloaded
  | some t => x.elim (.built none t) fun x => .found x t

theorem assignDecision_plainQuestion (db : Database) (i : Nat) (q : QuestionAttributes) :
    assignDecision (stepDecision db i) (plainQuestion db i q).decision =
      .ok (plainDecision (stepDecision db i) q.decision) := by
  rw [plainQuestion]
  cases q.decision with
  | none => rfl
  | some t =>
    cases stepDecision db i with
    | none => rfl
    | some x =>
      show (if blank (toS x.id) = true then _ else if toS x.id = toS x.id then _ else _) = _
      rw [blank_toS, if_neg Bool.false_ne_true, if_pos rfl]
      rfl

/-- The decision of the form, saved and then checked. -/
theorem saveHeldDecision_plainDecision (db : Database)
    (hone : ∀ y ∈ db.decisions.rows, db.questionDecision y.questionId = some y) (r : Question) (t : Option Text) :
    saveHeldDecision (saveDecision db r.id t) r .unloaded =
      saveHeldDecision db r (plainDecision (db.questionDecision r.id) t) := by
  cases t with
  | none => rfl
  | some t =>
    cases hx : db.questionDecision r.id with
    | none => exact saveHeldDecision_built hx t
    | some x => exact saveHeldDecision_found hx hone t

theorem questions_saveDecision (db : Database) (n : Nat) (t : Option Text) :
    (saveDecision db n t).questions = db.questions := by
  unfold saveDecision
  split
  · rfl
  · split <;> rfl

/-- The tables with the question `r` as the form has it. -/
def writeQuestion (db : Database) (i : Nat) (q : QuestionAttributes) (r : Question) : Database :=
  { db with questions := db.questions.modify r.id (plainQuestion db i q).onto (fun _ => rfl) }

/-- The question of the step is written with the submitted attributes. -/
theorem updateQuestion_assigned (hone : ∀ y ∈ db.decisions.rows, db.questionDecision y.questionId = some y)
    (hq : StepAttr.questionOf params = some q) (hdesc : blank q.description = false) (hr : db.stepQuestion i = some r) :
    updateQuestion db i params = saveHeldDecision (writeQuestion db i q r) ((plainQuestion db i q).onto r)
      (plainDecision (db.questionDecision r.id) q.decision) := by
  have hsave : saveQuestion db i params = saveDecision (writeQuestion db i q r) r.id q.decision := by
    unfold saveQuestion
    rw [hq]
    dsimp only
    rw [hdesc, if_neg Bool.false_ne_true, hr]
    rfl
  have hrow : (saveQuestion db i params).stepQuestion i = some ((plainQuestion db i q).onto r) := by
    rw [hsave, stepQuestion_congr (questions_saveDecision _ _ _)]
    exact Table.find?_where_modify (f := (plainQuestion db i q).onto) hr (fun _ => rfl) fun _ => rfl
  rw [updateQuestion, checkDecision_eq, hrow, Option.elim_some, hsave]
  exact saveHeldDecision_plainDecision (writeQuestion db i q r) hone ((plainQuestion db i q).onto r) q.decision

/-- The question that the form builds. -/
def builtQuestion (db : Database) (i : Nat) (q : QuestionAttributes) : Question :=
  ⟨db.questions.next, i, q.description, q.answered.getD false, none⟩

def insertQuestion (db : Database) (i : Nat) (q : QuestionAttributes) : Database :=
  { db with questions := db.questions.insert (fun n => { builtQuestion db i q with id := n }) (fun _ => rfl) }

/-- A question that the step did not have is built. -/
theorem updateQuestion_built (hone : OneQuestion db i) (hq : StepAttr.questionOf params = some q)
    (hdesc : blank q.description = false) (hr : db.stepQuestion i = none) :
    updateQuestion db i params =
      saveHeldDecision (insertQuestion db i q) (builtQuestion db i q) (plainDecision none q.decision) := by
  have hnone : (insertQuestion db i q).questionDecision db.questions.next = none := by
    refine List.find?_eq_none.mpr fun x hx hquestion => ?_
    rw [decide_eq_true_eq] at hquestion
    exact absurd (hone.known x hx) (hquestion ▸ Nat.lt_irrefl _)
  have hsave : saveQuestion db i params = saveDecision (insertQuestion db i q) db.questions.next q.decision := by
    unfold saveQuestion
    rw [hq]
    dsimp only
    rw [hdesc, if_neg Bool.false_ne_true, hr]
    cases q.decision with
    | none => rfl
    | some t =>
      unfold saveDecision
      dsimp only
      rw [hnone]
      rfl
  have hrow : (saveQuestion db i params).stepQuestion i = some (builtQuestion db i q) := by
    have hold : db.questions.rows.find? (·.stepId = i) = none := hr
    rw [hsave, stepQuestion_congr (questions_saveDecision _ _ _), stepQuestion, insertQuestion, Table.rows_insert,
      List.find?_append, hold, List.find?_cons]
    simp [builtQuestion]
  rw [updateQuestion, checkDecision_eq, hrow, Option.elim_some, hsave]
  have hsettled := saveHeldDecision_plainDecision (insertQuestion db i q) hone.decision (builtQuestion db i q) q.decision
  rw [show (insertQuestion db i q).questionDecision (builtQuestion db i q).id = none from hnone] at hsettled
  exact hsettled

/-- A question that is not looked at is checked for its decision. -/
theorem saveHeldQuestion_unloaded (db : Database) (now : Nat) (hid : s.id = i)
    (hblank : ∀ q, StepAttr.questionOf params = some q → blank q.description = true) :
    ∃ record, saveHeldQuestion db now s .unloaded = some (updateQuestion db i params, record) ∧
      Shows (updateQuestion db i params) i none record := by
  rw [updateQuestion_of_blank hblank, saveHeldQuestion, hid]
  cases hr : db.stepQuestion i with
  | none => exact ⟨none, rfl, rfl, hr⟩
  | some r => exact ⟨some ⟨r, false⟩, rfl, shows_saveHeldDecision hr r .unloaded⟩

/-- The question of the form is assigned and saved as `update` saves it. -/
def SavesQuestion (db : Database) (now i : Nat) (s : Step) (params : List StepAttr) : Prop :=
  ∃ held record, assignQuestion db i none (plainForm db i params).question = .ok held ∧
    saveHeldQuestion db now s held = some (updateQuestion db i params, record) ∧
    Shows (updateQuestion db i params) i none record

/-- A form without a question does not look at it. -/
theorem savesQuestion_absent (db : Database) (now : Nat) (hid : s.id = i) (hq : StepAttr.questionOf params = none) :
    SavesQuestion db now i s params := by
  obtain ⟨record, hsave⟩ := saveHeldQuestion_unloaded db now hid fun q hq' => by
    rw [hq] at hq'
    cases hq'
  refine ⟨.unloaded, record, ?_, hsave⟩
  rw [plainForm, hq]
  rfl

/-- A step without a question gets one, unless its text is blank. -/
theorem savesQuestion_built {x : Database} {project : Project} (hid : s.id = i) (hone : OneQuestion db i)
    (hproject : s.projectId.bind db.projects.find? = some project)
    (htouched : db.projects = (x.touchProject now project.id).projects) (hq : StepAttr.questionOf params = some q)
    (hr : db.stepQuestion i = none) : SavesQuestion db now i s params := by
  have hnew : blank (plainQuestion db i q).id = true := by
    rw [plainQuestion, hr]
    rfl
  rw [SavesQuestion, plainForm_question hq, assignQuestion]
  rw [if_pos hnew]
  cases hdesc : blank q.description with
  | true =>
    obtain ⟨record, hsave⟩ := saveHeldQuestion_unloaded db now hid fun q' hq' => by
      rw [hq, Option.some.injEq] at hq'
      rw [← hq']
      exact hdesc
    exact ⟨.unloaded, record, if_pos hdesc, hsave⟩
  | false =>
    have hdecision : stepDecision db i = none := by
      rw [stepDecision, hr]
      rfl
    have hassign := assignDecision_plainQuestion db i q
    rw [hdecision] at hassign
    rw [if_neg (by rw [plainQuestion, Bool.false_or, hdesc]; exact Bool.false_ne_true), hassign]
    refine ⟨_, some ⟨builtQuestion db i q, false⟩, rfl, ?_⟩
    rw [updateQuestion_built hone hq hdesc hr, saveHeldQuestion, hproject, Option.map_some, hid, hr]
    have hprojects : (saveHeldDecision (insertQuestion db i q) (builtQuestion db i q)
        (plainDecision none q.decision)).projects = (x.touchProject now project.id).projects :=
      (touches_saveHeldDecision _ _ _ .projects (by decide) : _ = _).trans htouched
    constructor
    · exact congrArg (fun d => some (d, some (⟨builtQuestion db i q, false⟩ : HeldRecord)))
        (touchProject_touched hprojects)
    · refine ⟨rfl, ?_⟩
      have hnone : db.questions.rows.find? (·.stepId = i) = none := hr
      rw [stepQuestion_saveHeldDecision, insertQuestion, stepQuestion, Table.rows_insert, List.find?_append, hnone,
        List.find?_cons]
      simp [builtQuestion]

/-- A question that is there is written, unless the text is blank. -/
theorem savesQuestion_found (now : Nat) (s : Step) (hone : OneQuestion db i) (hq : StepAttr.questionOf params = some q)
    (hr : db.stepQuestion i = some r) : SavesQuestion db now i s params := by
  have hmem := List.mem_of_find?_eq_some hr
  have hstep : r.stepId = i := by simpa using List.find?_some hr
  have hid : (plainQuestion db i q).id = toS r.id := by
    rw [plainQuestion, hr]
    rfl
  have hold : ¬ blank (plainQuestion db i q).id = true := by
    rw [hid, blank_toS]
    exact Bool.false_ne_true
  rw [SavesQuestion, plainForm_question hq, assignQuestion]
  rw [if_neg hold, hr]
  dsimp only
  rw [if_neg (not_not.mpr hid.symm)]
  cases hdesc : blank q.description with
  | true =>
    have hfound : (!(plainQuestion db i q).destroy && blank (plainQuestion db i q).description) = true := hdesc
    have hblank : ∀ q', StepAttr.questionOf params = some q' → blank q'.description = true := by
      intro q' hq'
      rw [hq, Option.some.injEq] at hq'
      rw [← hq']
      exact hdesc
    rw [if_pos hfound]
    refine ⟨.found r, some ⟨r, false⟩, rfl, ?_⟩
    rw [updateQuestion_of_blank hblank, hr, saveHeldQuestion,
      if_neg (by rw [(hone.question r hmem hstep).2]; exact Bool.false_ne_true)]
    exact ⟨rfl, shows_saveHeldDecision hr r .unloaded⟩
  | false =>
    have hdecision : stepDecision db i = db.questionDecision r.id := by
      rw [stepDecision, hr]
      rfl
    have hnew : ¬ (!(plainQuestion db i q).destroy && blank (plainQuestion db i q).description) = true := by
      rw [plainQuestion, Bool.not_false, Bool.true_and, hdesc]
      exact Bool.false_ne_true
    have hassign := assignDecision_plainQuestion db i q
    rw [hdecision] at hassign
    rw [if_neg hnew, hassign]
    refine ⟨_, some ⟨r, false⟩, rfl, ?_⟩
    rw [updateQuestion_assigned hone.decision hq hdesc hr]
    refine ⟨rfl, rfl, ?_⟩
    have hrow : (writeQuestion db i q r).stepQuestion i = some ((plainQuestion db i q).onto r) :=
      Table.find?_where_modify (f := (plainQuestion db i q).onto) hr (fun _ => rfl) fun _ => rfl
    rw [stepQuestion_saveHeldDecision, hrow]
    rfl

/-- Unless it has been emptied before, the question is saved as `update` saves it. -/
theorem savesQuestion {x : Database} {project : Project} (hid : s.id = i) (hone : OneQuestion db i)
    (hproject : s.projectId.bind db.projects.find? = some project)
    (htouched : db.projects = (x.touchProject now project.id).projects) : SavesQuestion db now i s params := by
  cases hq : StepAttr.questionOf params with
  | none => exact savesQuestion_absent db now hid hq
  | some q =>
    cases hr : db.stepQuestion i with
    | none => exact savesQuestion_built hid hone hproject htouched hq hr
    | some r => exact savesQuestion_found now s hone hq hr

end

/-! ## The request -/

section

variable {c : SaveContext} {u : User} {now p : Nat} {id : Int} {project : Project} {s s' : Step} {db db' : Database}
  {params : List StepAttr} {gone : Option Question} {record : Option HeldRecord} {held : HeldQuestion}

theorem Shows.congr {i : Nat} (h : Shows db i gone record) (hquestions : db'.questions = db.questions) :
    Shows db' i gone record := by
  cases record with
  | none => exact ⟨h.1, (stepQuestion_congr hquestions i).trans h.2⟩
  | some x =>
    rw [Shows, stepQuestion_congr hquestions]
    exact h

/-- Behind the save the two requests are the same. -/
theorem afterSave_of_shows (hshows : Shows (updateQuestion db s'.id params) s'.id gone record) :
    afterSave u now project s' record (updateQuestion db s'.id params) = afterUpdate u now project s' params gone db := by
  have hlabel := touches_relabel db now s' params
  have hclear : clearLabel (updateQuestion db s'.id params) now s' = relabel now s' params db := rfl
  have hedit : (relabel now s' params db).editOf u.id s'.id = db.editOf u.id s'.id := by
    rw [editOf, (hlabel .edits (by decide) : _ = _), editOf]
  have hquestions : (relabel now s' params db).questions = (updateQuestion db s'.id params).questions := by
    unfold relabel
    dsimp only
    split <;> rfl
  rw [afterSave, hclear, hedit]
  rcases afterUpdate_cases db u now project s' params gone with ⟨hnone, heq⟩ | ⟨e, hsome, heq⟩
  · rw [hnone, heq]
  · rw [hsome, heq]
    show endHash u now project s' e record (relabel now s' params db) = _
    rw [endHash, endEdit, endOutcome_announceQuestion]
    refine announceRecord_of_shows (hshows.congr ?_)
    refine .trans ((SameRecords.setBuilt _ _ _).touches .questions (by decide)) ?_
    refine .trans (touches_publish _ _ _ _ _ _ .questions (by decide)) ?_
    exact hquestions

/-- Without nested images and files the validity is that of the step. -/
theorem valid_plain (db : Database) (s' : Step) (held : HeldQuestion) :
    Assigned.valid db ⟨s', held, [], []⟩ = s'.valid := by
  have himages : imagesValid db s'.id [] = true := by
    rw [imagesValid, List.filter_nil, List.all_nil, Bool.true_and, List.all_eq_true]
    exact fun m _ => rfl
  rw [Assigned.valid, himages]
  exact (Bool.and_true _).trans (Bool.and_true _)

theorem fits_plain (htakes : (∀ s, c.takesStep s = true) ∧ ∀ t, c.takesText t = true) (db : Database) (s' : Step)
    (held : HeldQuestion) : Assigned.fits c db ⟨s', held, [], []⟩ = true := by
  have hrow : ∀ m : Image, ImageHash.row s'.id [] m = m := by
    intro m
    unfold ImageHash.row
    split <;> rfl
  have hmarked : markedImages db s'.id [] = [] := by
    rw [markedImages, List.map_eq_nil_iff, List.filter_eq_nil_iff]
    exact fun m _ => Bool.false_ne_true
  have htexts : held.texts.all c.takesText = true := List.all_eq_true.mpr fun t _ => htakes.2 t
  simp [Assigned.fits, htakes.1, htexts, hrow, hmarked]

theorem save_plain (htakes : (∀ s, c.takesStep s = true) ∧ ∀ t, c.takesText t = true) (db : Database) (s' : Step)
    (held : HeldQuestion) :
    Assigned.save c db now ⟨s', held, [], []⟩ = saveHeldQuestion (db.storeRow (some now) s') now s' held := by
  rw [Assigned.save, fits_plain htakes, if_pos rfl, saveImageHashes_nil]

/-- The assignment of the form, once the question is assigned. -/
theorem assign_plainForm {x : Database}
    (hquestion : assignQuestion db s.id gone (plainForm x s.id params).question = .ok held) :
    assign c db s gone (params.filter StepAttr.isColumn) (plainForm x s.id params) =
      ((StepAttr.assignAll db s params).elim (.error .notFound) fun s' => .ok ⟨s', held, [], []⟩) := by
  rw [assign, StepAttr.assignAll_filter, hquestion]
  cases StepAttr.assignAll db s params <;> rfl

/-! ## The question that the form empties -/

theorem plainForm_congr (hquestions : db'.questions = db.questions) (hdecisions : db'.decisions = db.decisions)
    (i : Nat) (params : List StepAttr) : plainForm db' i params = plainForm db i params := by
  have hdecision : db'.questionDecision = db.questionDecision := funext (questionDecision_congr hdecisions)
  have hquestion : plainQuestion db' i = plainQuestion db i := by
    funext q
    rw [plainQuestion, plainQuestion, stepDecision, stepDecision, stepQuestion_congr hquestions, hdecision]
  rw [plainForm, plainForm, hquestion]

theorem OneQuestion.congr {i : Nat} (hone : OneQuestion db i) (hquestions : db'.questions = db.questions)
    (hdecisions : db'.decisions = db.decisions) : OneQuestion db' i where
  question := by
    rw [hquestions]
    intro r hr hstep
    rw [stepQuestion_congr hquestions]
    exact hone.question r hr hstep
  decision := by
    rw [hdecisions]
    intro x hx
    rw [questionDecision_congr hdecisions]
    exact hone.decision x hx
  known := by
    rw [hdecisions, hquestions]
    exact hone.known

theorem emptied_plainForm (db x : Database) (i : Nat) (params : List StepAttr) :
    emptied db i (plainForm x i params).question = emptiedQuestion db i params := by
  rw [plainForm, emptiedQuestion]
  cases StepAttr.questionOf params with
  | none => rfl
  | some q =>
    cases hr : db.stepQuestion i with
    | none =>
      rw [Option.elim_some, emptied, hr]
      exact ite_self _
    | some r =>
      rw [Option.elim_some, emptied, hr]
      rfl

theorem removeQuestion_eq (db : Database) (i : Nat) (params : List StepAttr) :
    removeQuestion db i params = (emptiedQuestion db i params).elim db fun r => db.destroyQuestion r.id := by
  rw [removeQuestion, emptiedQuestion]
  cases StepAttr.questionOf params with
  | none => rfl
  | some q =>
    cases db.stepQuestion i with
    | none => rfl
    | some r =>
      dsimp only
      split <;> rfl

/-- The form keeps the destroyed record, and nothing is left to be saved. -/
theorem saveHeldQuestion_emptied {r : Question} (x : Database) (hone : OneQuestion db s.id)
    (hgone : emptiedQuestion db s.id params = some r) (hquestions : x.questions = (db.destroyQuestion r.id).questions)
    (s' : Step) :
    assignQuestion x s.id (some r) (plainForm db s.id params).question = .ok (.destroyed r) ∧
      updateQuestion x s.id params = x ∧ saveHeldQuestion x now s' (.destroyed r) = some (x, some ⟨r, true⟩) := by
  rw [emptiedQuestion] at hgone
  split at hgone
  · rename_i q r' hq hr
    split at hgone
    · rename_i hempty
      rw [Option.some.injEq] at hgone
      subst hgone
      have hid : (plainQuestion db s.id q).id = toS r'.id := by
        rw [plainQuestion, hr]
        rfl
      have hblank : blank q.description = true := by
        rw [List.isEmpty_iff.mp hempty]
        rfl
      have hnone : x.stepQuestion s.id = none := by
        refine List.find?_eq_none.mpr fun y hy hstep => ?_
        rw [hquestions] at hy
        obtain ⟨hmem, hne⟩ := List.mem_filter.mp hy
        have hsame := (hone.question y hmem (of_decide_eq_true hstep)).1
        rw [hr, Option.some.injEq] at hsame
        exact of_decide_eq_true hne (congrArg Question.id hsame.symm)
      refine ⟨?_, ?_, rfl⟩
      · rw [plainForm_question hq, assignQuestion, hid, blank_toS]
        simp [plainQuestion]
      · rw [updateQuestion_of_blank, hnone]
        · rfl
        · intro q' hq'
          rw [hq, Option.some.injEq] at hq'
          rw [← hq']
          exact hblank
    · cases hgone
  · cases hgone

/-! ## The two requests agree -/

/-- The tables when the attributes are assigned. -/
theorem tables_beforeUpdate (now p : Nat) (s : Step) (params : List StepAttr) (db : Database) :
    (beforeUpdate now p s params db).projects = (db.touchProject now p).projects ∧
      (beforeUpdate now p s params db).questions =
        ((emptiedQuestion db s.id params).elim db fun r => db.destroyQuestion r.id).questions ∧
      (beforeUpdate now p s params db).decisions =
        ((emptiedQuestion db s.id params).elim db fun r => db.destroyQuestion r.id).decisions := by
  have hsame : emptiedQuestion (saveImages (touchCollections db now p) s.id) s.id params =
      emptiedQuestion db s.id params := rfl
  rw [beforeUpdate, removeQuestion_eq, hsame]
  cases emptiedQuestion db s.id params <;> exact ⟨rfl, rfl, rfl⟩

/-- The question of the step is still there, and is saved as `update` saves it. -/
theorem saves_kept (x : Database) (hone : OneQuestion db s.id) (hid : s'.id = s.id) (hown : s'.projectId = some p)
    (hproject : db.projects.find? p = some project) (hprojects : x.projects = (db.touchProject now p).projects)
    (hquestions : x.questions = db.questions) (hdecisions : x.decisions = db.decisions) :
    ∃ held record, assignQuestion x s.id none (plainForm db s.id params).question = .ok held ∧
      saveHeldQuestion x now s' held = some (updateQuestion x s.id params, record) ∧
      Shows (updateQuestion x s.id params) s.id none record := by
  obtain ⟨-, hp⟩ := Table.find?_eq_some.mp hproject
  have hfound : s'.projectId.bind x.projects.find? = some { project with updatedAt := now } := by
    rw [hown, Option.bind_some, hprojects, touchProject, Table.find?_modify, hproject, Option.map_some, if_pos hp]
  rw [← plainForm_congr hquestions hdecisions]
  refine savesQuestion hid (hone.congr hquestions hdecisions) hfound (x := db) ?_
  rw [hprojects]
  exact congrArg (fun i => (db.touchProject now i).projects) hp.symm

/-- From the assignment on. -/
theorem applyHash_plainForm (htakes : (∀ s, c.takesStep s = true) ∧ ∀ t, c.takesText t = true)
    (hproject : db.projects.find? p = some project) (hone : OneQuestion db s.id)
    (hstays : ∀ s', StepAttr.assignAll db s params = some s' → s'.projectId = some p) :
    applyHash c u now project s (emptiedQuestion db s.id params) (params.filter StepAttr.isColumn)
        (plainForm db s.id params) (beforeUpdate now p s params db) =
      match StepAttr.assignAll (beforeUpdate now p s params db) s params with
      | none => (.notFound, beforeUpdate now p s params db)
      | some s' =>
        if s'.valid then
          afterUpdate u now project s' params (emptiedQuestion db s.id params)
            ((beforeUpdate now p s params db).storeRow (some now) s')
        else (.invalid, beforeUpdate now p s params db) := by
  obtain ⟨hprojects, hquestions, hdecisions⟩ := tables_beforeUpdate now p s params db
  have hsteps := StepAttr.assignAll_congr (touches_beforeUpdate db now p s params .steps (by decide)) params s
  cases hassign : StepAttr.assignAll (beforeUpdate now p s params db) s params with
  | none =>
    rw [applyHash, assign, StepAttr.assignAll_filter, hassign]
    rfl
  | some s' =>
    have hid : s'.id = s.id := (StepAttr.assignAll_ids hassign).1
    have hown : s'.projectId = some p := hstays s' (hsteps ▸ hassign)
    have hsaved : ∃ held record, assignQuestion (beforeUpdate now p s params db) s.id (emptiedQuestion db s.id params)
        (plainForm db s.id params).question = .ok held ∧
        saveHeldQuestion ((beforeUpdate now p s params db).storeRow (some now) s') now s' held =
          some (updateQuestion ((beforeUpdate now p s params db).storeRow (some now) s') s.id params, record) ∧
        Shows (updateQuestion ((beforeUpdate now p s params db).storeRow (some now) s') s.id params) s.id
          (emptiedQuestion db s.id params) record := by
      have hassigned : ∀ gone, assignQuestion (beforeUpdate now p s params db) s.id gone
          (plainForm db s.id params).question = assignQuestion ((beforeUpdate now p s params db).storeRow (some now) s') s.id gone
            (plainForm db s.id params).question := fun gone => (assignQuestion_congr (fun _ => ⟨rfl, rfl⟩) s.id _).symm
      rw [hassigned]
      cases hgone : emptiedQuestion db s.id params with
      | none =>
        rw [hgone] at hquestions hdecisions
        exact saves_kept _ hone hid hown hproject hprojects hquestions hdecisions
      | some r =>
        rw [hgone] at hquestions
        obtain ⟨hquestion, hkept, hsave⟩ := saveHeldQuestion_emptied
          ((beforeUpdate now p s params db).storeRow (some now) s') hone hgone hquestions s'
        exact ⟨.destroyed r, some ⟨r, true⟩, hquestion, hsave.trans (by rw [hkept]), rfl⟩
    obtain ⟨held, record, hquestion, hsave, hshows⟩ := hsaved
    rw [← hid] at hsave hshows
    rw [applyHash, assign_plainForm hquestion, hassign]
    dsimp only [Option.elim_some]
    rw [valid_plain, save_plain htakes, hsave]
    dsimp only
    rw [afterSave_of_shows hshows, hid]

/-- On tables where a step has one question, a form of columns and a question is an `update`. -/
theorem updateHash_plainForm (htakes : (∀ s, c.takesStep s = true) ∧ ∀ t, c.takesText t = true) (fmt : DateFormat)
    (hstep : findByPosition db p id = some s) (hone : OneQuestion db s.id)
    (hstays : ∀ s', StepAttr.assignAll db s params = some s' → s'.projectId = some p) :
    updateHash fmt c u now p id (some (plainForm db s.id params)) db = update u now p id params db := by
  rw [updateHash, update]
  cases hproject : db.projects.find? p with
  | none => rfl
  | some project =>
    dsimp only
    rw [hstep]
    refine congrArg (authorize (Ability.updateStep db u s) db) ?_
    have hfound : (plainForm db s.id params).question ≠ .malformed := by
      rw [plainForm]
      cases StepAttr.questionOf params <;> simp
    rw [if_neg hfound, emptied_plainForm, ← removeQuestion_eq]
    exact applyHash_plainForm htakes hproject hone hstays

end

end StepsController
