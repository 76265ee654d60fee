import BuildInProgress.StepUpdate

/-!
# All or nothing

An update of a step completes, or it leaves the step with its question and its images as they were.  The exact
condition takes the exits one by one: in front of the save only the images and an emptied question have been written;
behind it stand the edit of the user and the activity about the question that the step holds.
-/

open Text

namespace StepsController

open Database

/-! ## The announcement -/

section

variable {db db' : Database} {q : Question}

theorem announced_congr (h : db'.activities = db.activities) (q : Question) : announced db' q = announced db q := by
  rw [announced, h, announced]

theorem announced_createActivity {t : Trackable} (ht : t ≠ .question) (db : Database) (i : Nat) (key : Text)
    (owner recipient : Option Nat) (q : Question) :
    announced (db.createActivity t i key owner recipient) q = announced db q := by
  have hnew : (some t == some Trackable.question) = false := beq_eq_false_iff_ne.mpr fun h => ht (Option.some.inj h)
  rw [announced, createActivity, Table.rows_insert, List.any_append, List.any_cons, List.any_nil, hnew, Bool.false_and,
    Bool.or_false, Bool.or_false, announced]

theorem announced_createActivities {t : Trackable} (ht : t ≠ .question) (i : Nat) (key : Text) (owner : Option Nat)
    (rs : List User) (db : Database) (q : Question) :
    announced (rs.foldl (fun (db : Database) (r : User) => db.createActivity t i key owner (some r.id)) db) q =
      announced db q := by
  induction rs generalizing db with
  | nil => rfl
  | cons r rs ih => exact (ih _).trans (announced_createActivity ht db i key owner (some r.id) q)

theorem announced_announceProject (db : Database) (u : Nat) (p : Project) (q : Question) :
    announced (db.announceProject u p) q = announced db q := by
  unfold announceProject
  split
  · exact announced_createActivities (by decide) _ _ _ _ db q
  · exact announced_createActivity (by decide) db _ _ _ _ q

theorem announced_announceStep (db : Database) (u : Nat) (p : Project) (s : Step) (q : Question) :
    announced (db.announceStep u p s) q = announced db q := by
  unfold announceStep
  split
  · exact announced_createActivities (by decide) _ _ _ _ db q
  · exact announced_createActivity (by decide) db _ _ _ _ q

theorem announced_destroyActivities (db : Database) (i : Option Nat) (q : Question) :
    announced (db.destroyActivities i) q = (announced db q && !(some q.id == i)) := by
  rw [announced, destroyActivities, Table.rows_filter, List.any_filter, announced]
  by_cases hi : some q.id = i
  · rw [beq_iff_eq.mpr hi, Bool.not_true, Bool.and_false, List.any_eq_false]
    intro a _
    rw [← hi, Bool.and_eq_true, Bool.and_eq_true, decide_eq_true_eq, beq_iff_eq, beq_iff_eq]
    exact fun h => h.1 h.2.2
  · rw [beq_eq_false_iff_ne.mpr hi, Bool.not_false, Bool.and_true]
    congr 1
    funext a
    cases hid : a.trackableId == some q.id with
    | false => rw [Bool.and_false, Bool.and_false]
    | true =>
      rw [beq_iff_eq] at hid
      rw [hid, decide_eq_true hi, Bool.true_and]

theorem announced_forgetActivities (db : Database) (i : Nat) (q : Question) :
    announced (db.forgetActivities i) q =
      (announced db q && !(some i :: (db.projectSteps i).map fun s => some s.id).contains (some q.id)) := by
  have hsteps : ∀ (l : List Step) (db : Database),
      announced (l.foldl (fun (db : Database) (s : Step) => db.destroyActivities (some s.id)) db) q =
        (announced db q && !(l.map fun s => some s.id).contains (some q.id)) := by
    intro l
    induction l with
    | nil => exact fun db => (Bool.and_true _).symm
    | cons s l ih =>
      intro db
      rw [List.foldl_cons, ih, announced_destroyActivities, List.map_cons, List.contains_cons, Bool.not_or,
        Bool.and_assoc]
  rw [forgetActivities, hsteps, announced_destroyActivities, List.contains_cons, Bool.not_or, Bool.and_assoc]

/-- `set_published` takes away exactly the activities with an id of an unpublished project. -/
theorem announced_setPublished (db : Database) (now u i : Nat) (step : Option Nat) (q : Question) :
    announced (db.setPublished now u i step) q = (announced db q && !(db.unpublishIds i).contains (some q.id)) := by
  have hupdate : ∀ (db : Database) (f : Project → Project),
      announced (db.updateProject (some now) i f) q = announced db q := fun db f =>
    announced_congr (touches_updateProject db _ _ _ .activities (by decide)) q
  rw [setPublished, unpublishIds]
  cases db.projects.find? i with
  | none => exact (Bool.and_true _).symm
  | some p =>
    dsimp only
    cases db.published p with
    | true =>
      simp only [Bool.true_and, Bool.not_true, Bool.false_eq_true, if_false, if_true, List.contains_nil, Bool.not_false,
        Bool.and_true]
      split
      · rw [hupdate, announced_announceProject]
      · split
        · rw [hupdate]
          cases step.bind db.steps.find? with
          | none => rfl
          | some s => exact announced_announceStep db u p s q
        · rfl
    | false =>
      simp only [Bool.false_and, Bool.false_eq_true, if_false, Bool.not_false, if_true]
      rw [hupdate]
      split
      · rw [hupdate, announced_forgetActivities]
      · exact announced_forgetActivities db i q

end

/-! ## The two outcomes -/

/-- The step is saved, the edit of the user is over, and after that the project is published and marked as built. -/
structure Completed (c : SaveContext) (u : User) (now : Nat) (project : Project) (s : Step) (a : Assigned)
    (r : Outcome × Database) : Prop where
  ok : r.1 = .ok
  saved : r.2.steps.find? s.id = some (written now a.step)
  closed : ∀ e, r.2.editOf u.id s.id = some e → e.startedEditingAt = none
  evaluated : ∃ before db record e, a.save c before now = some (db, record) ∧
    r = endHash u now project a.step e record (clearLabel db now a.step)

/-- The step, its question and decision, and its images are as they were. -/
structure Untouched (db db' : Database) (s : Step) : Prop where
  row : db'.steps.find? s.id = db.steps.find? s.id
  question : SameQuestion db db' s.id
  images : db'.stepImages s.id = db.stepImages s.id

def AllOrNothing (fmt : DateFormat) (c : SaveContext) (u : User) (now p : Nat) (id : Int) (project : Project) (s : Step)
    (h : Option StepHash) (db : Database) : Prop :=
  (∃ a, accepted fmt c db s h = some a ∧ Completed c u now project s a (updateHash fmt c u now p id h db)) ∨
    Untouched db (updateHash fmt c u now p id h db).2 s

/-! ## The condition -/

/-- Every image of the step has been saved with it before. -/
def ImagesSaved (db : Database) (s : Step) : Prop := ∀ m ∈ db.stepImages s.id, m.saved = some true

/-- The attributes say what the step, its question and its images say already. -/
def Unchanged (now : Nat) (db : Database) (s : Step) (a : Assigned) : Prop :=
  written now a.step = s ∧ keepsQuestion db s.id a.question = true ∧ keepsImages db s.id a.images = true

/-- The tables with the step and the images of the form. -/
def formTables (now p : Nat) (db : Database) (s : Step) (a : Assigned) : Database :=
  saveImageHashes ((saveImages (db.touchProject now p) s.id).storeRow (some now) a.step) s.id a.images

/-- A question that the save destroys has an activity, and not one with an id by which `set_published` deletes. -/
def StaysAnnounced (now : Nat) (project : Project) (db : Database) (s : Step) (a : Assigned) : Prop :=
  ∀ r, a.question.dropped = some r → announced db r = true ∧
    ((project.isPublic || project.unpublished) = true →
      some r.id ∉ (formTables now project.id db s a).unpublishIds project.id)

/-! ## In front of the save -/

section

variable {fmt : DateFormat} {c : SaveContext} {u : User} {now p : Nat} {project : Project} {s : Step}
  {db db₁ db₂ : Database} {h : Option StepHash} {a : Assigned} {record : Option HeldRecord}

/-- The images keep what they hold exactly when they had been saved before. -/
theorem imagesSaved_iff (himages : db₁.images = (saveImages db s.id).images) :
    db₁.stepImages s.id = db.stepImages s.id ↔ ImagesSaved db s := by
  rw [stepImages_saveImages himages]
  constructor
  · intro heq m hm
    have hsame := List.map_inj_left.mp (heq.trans (List.map_id _).symm) m hm
    exact congrArg Image.saved hsame.symm
  · intro hsaved
    apply List.map_eq_self_of_forall
    intro m hm
    rw [← hsaved m hm]

/-- A question that has been emptied is missed. -/
theorem not_sameQuestion_of_removed {r : Question} (hr : emptiedBy db s h = some r)
    (hgone : ∀ x ∈ db₂.questions.rows, x.id ≠ r.id) : ¬ SameQuestion db db₂ s.id := by
  have hquestion : db.stepQuestion s.id = some r := by
    obtain ⟨h, -, hempty⟩ := Option.bind_eq_some_iff.mp hr
    exact stepQuestion_of_emptied hempty
  exact not_sameQuestion_of_ne hquestion fun hfind => hgone r (List.mem_of_find?_eq_some hfind) rfl

/-- A request that stops in front of the save leaves the step alone exactly when its images were saved before and it
does not empty its question. -/
theorem untouched_entered (hentered : Entered db db₁ s h) :
    Untouched db db₁ s ↔ ImagesSaved db s ∧ emptiedBy db s h = none := by
  constructor
  · intro huntouched
    refine ⟨(imagesSaved_iff hentered.images).mp huntouched.images, ?_⟩
    cases hr : emptiedBy db s h with
    | none => rfl
    | some r => exact absurd huntouched.question (not_sameQuestion_of_removed hr (hentered.removed r hr))
  · intro ⟨hsaved, hno⟩
    obtain ⟨hquestions, hdecisions⟩ := hentered.kept hno
    exact ⟨by rw [hentered.steps],
      ⟨stepQuestion_congr hquestions s.id, fun r _ => questionDecision_congr hdecisions r.id⟩, (imagesSaved_iff hentered.images).mpr hsaved⟩

/-- The question comes out of the save as it was exactly when it is kept. -/
theorem sameQuestion_save (hentered : Entered db db₁ s h) (hid : a.step.id = s.id)
    (hheld : a.question.Of db s.id (emptiedBy db s h)) (hsave : a.save c db₁ now = some (db₂, record)) :
    SameQuestion db db₂ s.id ↔ keepsQuestion db s.id a.question = true := by
  have hsaved := save_eq_some hsave
  rw [hid] at hsaved
  have himages := touches_saveImageHashes (db₁.storeRow (some now) a.step) s.id a.images
  have hquestions : (saveImageHashes (db₁.storeRow (some now) a.step) s.id a.images).questions = db₁.questions :=
    himages .questions (by decide)
  have hdecisions : (saveImageHashes (db₁.storeRow (some now) a.step) s.id a.images).decisions = db₁.decisions :=
    himages .decisions (by decide)
  cases hr : emptiedBy db s h with
  | some r =>
    -- the record that was destroyed is held, and nothing comes in its place
    rw [hr] at hheld
    cases hq : a.question with
    | destroyed r' =>
      rw [hq] at hsaved
      rw [saveHeldQuestion, Option.some.injEq, Prod.mk.injEq] at hsaved
      refine iff_of_false (not_sameQuestion_of_removed hr ?_) Bool.false_ne_true
      rw [← hsaved.1, hquestions]
      exact hentered.removed r hr
    | _ =>
      rw [hq] at hheld
      simp [HeldQuestion.Of] at hheld
  | none =>
    obtain ⟨hsameQuestions, hsameDecisions⟩ := hentered.kept hr
    rw [hr] at hheld
    have hquestion := hquestions.trans hsameQuestions
    have hdecision := hdecisions.trans hsameDecisions
    have hkept := sameQuestion_saveHeldQuestion (hid ▸ heldQuestion_congr hquestion hdecision hheld) hsaved
    rw [hid] at hkept
    rw [← keepsQuestion_congr hquestion hdecision, ← hkept]
    exact sameQuestion_congr hquestion.symm hdecision.symm rfl rfl

/-- A request that stops behind the save leaves the step alone only if the save has changed nothing. -/
theorem untouched_clearLabel (hentered : Entered db db₁ s h) (hs : s ∈ db.steps.rows) (hid : a.step.id = s.id)
    (hheld : a.question.Of db s.id (emptiedBy db s h)) (hsave : a.save c db₁ now = some (db₂, record)) :
    Untouched db (clearLabel db₂ now a.step) s ↔ Unchanged now db s a := by
  have hrow := find?_clearLabel (hentered.steps ▸ hs) hid hsave
  have hold : db.steps.find? s.id = some s := Table.find?_eq_some.mpr ⟨hs, rfl⟩
  have hlabel := touches_clearLabel db₂ now a.step
  have himages : (clearLabel db₂ now a.step).stepImages s.id = db.stepImages s.id ↔
      keepsImages db s.id a.images = true := by
    have hsame : (clearLabel db₂ now a.step).images = (saveImageHashes db₁ s.id a.images).images := by
      rw [(hlabel .images (by decide) : _ = _), images_save hsave, hid]
    rw [stepImages_congr hsame]
    exact stepImages_saveImageHashes hentered.images
  have hquestion : SameQuestion db (clearLabel db₂ now a.step) s.id ↔ keepsQuestion db s.id a.question = true :=
    (sameQuestion_congr rfl rfl (hlabel .questions (by decide)) (hlabel .decisions (by decide))).trans
      (sameQuestion_save hentered hid hheld hsave)
  constructor
  · intro huntouched
    refine ⟨?_, hquestion.mp huntouched.question, himages.mp huntouched.images⟩
    have hsame := huntouched.row
    rw [hrow, hold] at hsame
    exact Option.some.inj hsame
  · intro ⟨hwritten, hkept, hkeptImages⟩
    exact ⟨by rw [hrow, hold, hwritten], hquestion.mpr hkept, himages.mpr hkeptImages⟩

/-! ## Behind the save -/

/-- The record that the step holds is a destroyed one exactly when the question was dropped. -/
theorem dropped_saveHeldQuestion {db db' : Database} {s : Step} {held : HeldQuestion}
    (hsave : saveHeldQuestion db now s held = some (db', record)) :
    (record.filter (·.destroyed)).map (·.question) = held.dropped := by
  cases held with
  | unloaded =>
    rw [saveHeldQuestion] at hsave
    split at hsave <;> cases hsave <;> rfl
  | destroyed r =>
    cases hsave
    rfl
  | found r =>
    rw [saveHeldQuestion] at hsave
    rw [HeldQuestion.dropped]
    split at hsave
    · rename_i hblank
      cases hsave
      exact (if_pos hblank).symm
    · rename_i hblank
      cases hsave
      exact (if_neg hblank).symm
  | assigned r q d =>
    rw [saveHeldQuestion] at hsave
    rw [HeldQuestion.dropped]
    split at hsave
    · rename_i hdestroy
      cases hsave
      exact (if_pos hdestroy).symm
    · rename_i hdestroy
      cases hsave
      exact (if_neg hdestroy).symm
  | built old q d =>
    obtain ⟨project, -, heq⟩ := Option.map_eq_some_iff.mp hsave
    cases heq
    rfl

/-- The announcement raises only for a dropped question that has no activity. -/
theorem announceRecord_ok {db : Database} {i : Nat} :
    (announceRecord db i record).1 = .ok ↔
      ∀ r, (record.filter (·.destroyed)).map (·.question) = some r → announced db r = true := by
  cases record with
  | none => simp [announceRecord]
  | some x =>
    rw [announceRecord]
    cases hannounced : announced db x.question with
    | true =>
      rw [if_pos rfl]
      refine iff_of_true rfl fun r hr => ?_
      obtain ⟨y, hy, hquestion⟩ := Option.map_eq_some_iff.mp hr
      obtain ⟨hy, -⟩ := Option.filter_eq_some_iff.mp hy
      rw [← hquestion, ← Option.some.inj hy]
      exact hannounced
    | false =>
      rw [if_neg Bool.false_ne_true]
      cases hdestroyed : x.destroyed with
      | true =>
        refine iff_of_false (by simp) fun hall => ?_
        have hyes := hall x.question (by rw [Option.filter_some, hdestroyed]; rfl)
        rw [hannounced] at hyes
        cases hyes
      | false =>
        refine iff_of_true rfl fun r hr => ?_
        rw [Option.filter_some, hdestroyed] at hr
        cases hr

/-- A dropped question leaves the projects alone. -/
theorem projects_saveHeldQuestion {db db' : Database} {s : Step} {held : HeldQuestion} {r : Question}
    (hdropped : held.dropped = some r) (hsave : saveHeldQuestion db now s held = some (db', record)) :
    db'.projects = db.projects := by
  cases held with
  | unloaded => cases hdropped
  | destroyed r =>
    cases hsave
    rfl
  | found r =>
    rw [saveHeldQuestion] at hsave
    split at hsave
    · cases hsave
      rfl
    · cases hsave
      exact touches_saveHeldDecision _ _ _ .projects (by decide)
  | assigned r q d =>
    rw [saveHeldQuestion] at hsave
    split at hsave
    · cases hsave
      rfl
    · cases hsave
      exact touches_saveHeldDecision _ _ _ .projects (by decide)
  | built old q d => cases hdropped

/-- The ids by which `set_published` deletes once a form is saved that drops a question. -/
theorem unpublishIds_clearEdit {r : Question} (hentered : Entered db db₁ s h) (hid : a.step.id = s.id)
    (hprojects : db₁.projects = (db.touchProject now p).projects) (hdropped : a.question.dropped = some r)
    (hsave : a.save c db₁ now = some (db₂, record)) (e : Edit) :
    (clearEdit (clearLabel db₂ now a.step) e p).unpublishIds p = (formTables now p db s a).unpublishIds p := by
  have hlabel := touches_clearLabel db₂ now a.step
  have hform := touches_saveImageHashes
    ((saveImages (db.touchProject now p) s.id).storeRow (some now) a.step) s.id a.images
  refine unpublishIds_congr ?_ ?_ ?_ p
  · have hsaved : db₂.projects = db₁.projects :=
      (projects_saveHeldQuestion hdropped (save_eq_some hsave)).trans
        (touches_saveImageHashes _ _ _ .projects (by decide))
    have hsame : (formTables now p db s a).projects = (db.touchProject now p).projects := hform .projects (by decide)
    rw [hsame, ← hprojects, ← hsaved]
    exact hlabel .projects (by decide)
  · have hsame : (clearLabel db₂ now a.step).images = (saveImageHashes db₁ s.id a.images).images := by
      rw [(hlabel .images (by decide) : _ = _), images_save hsave, hid]
    refine hsame.trans ?_
    rw [formTables]
    apply images_saveImageHashes_congr
    exact hentered.images
  · have hsteps : (formTables now p db s a).steps.rows = db.steps.rows.map fun r =>
        if r.id = a.step.id then ({ a.step with updatedAt := now } : Step) else r := by
      rw [formTables, (hform .steps (by decide) : _ = _), rows_storeRow]
      rfl
    have hrows := rows_clearLabel hsave
    rw [hentered.steps] at hrows
    show (clearLabel db₂ now a.step).steps.rows.map Step.owner = _
    rw [hrows, hsteps, List.map_map, List.map_map]
    apply List.map_congr_left
    intro r _
    rw [Function.comp, Function.comp]
    split
    · unfold written
      split <;> rfl
    · rfl

/-- The request ends well exactly when a question that it drops stays announced. -/
theorem endHash_ok (hentered : Entered db db₁ s h) (hid : a.step.id = s.id)
    (hprojects : db₁.projects = (db.touchProject now project.id).projects)
    (hsave : a.save c db₁ now = some (db₂, record)) (e : Edit) :
    (endHash u now project a.step e record (clearLabel db₂ now a.step)).1 = .ok ↔
      StaysAnnounced now project db s a := by
  have hactivities : (clearEdit (clearLabel db₂ now a.step) e project.id).activities = db.activities := by
    refine .trans (touches_clearLabel db₂ now a.step .activities (by decide)) (.trans ?_ hentered.activities)
    exact touches_save hsave .activities (by decide)
  have hbuilt : ∀ (d : Database) (r : Question), announced (d.setBuilt now project.id) r = announced d r := fun d r =>
    announced_congr (touches_updateProject d _ _ _ .activities (by decide)) r
  rw [endHash, announceRecord_ok, dropped_saveHeldQuestion (save_eq_some hsave), StaysAnnounced]
  refine forall₂_congr fun r hr => ?_
  rw [hbuilt]
  by_cases hgate : (project.isPublic || project.unpublished) = true
  · rw [if_pos hgate, announced_setPublished, announced_congr hactivities,
      unpublishIds_clearEdit hentered hid hprojects hr hsave, forall_prop_of_true hgate, Bool.and_eq_true,
      Bool.not_eq_true', List.contains_eq_mem, decide_eq_false_iff_not]
  · rw [if_neg hgate, announced_congr hactivities]
    exact (and_iff_left fun hyes => absurd hyes hgate).symm

/-- The rest of the request does not touch the step. -/
theorem untouched_endHash (u : User) (project : Project) (e : Edit) (d : Database) :
    Untouched db (endHash u now project a.step e record d).2 s ↔ Untouched db d s := by
  have hend := touches_endHash u now project a.step e record d
  have hquestion := sameQuestion_congr (s := s.id) (d := db) rfl rfl (hend .questions (by decide))
    (hend .decisions (by decide))
  have himages := stepImages_congr (hend .images (by decide)) s.id
  have hsteps : (endHash u now project a.step e record d).2.steps = d.steps := hend .steps (by decide)
  constructor
  · intro h
    exact ⟨hsteps ▸ h.row, hquestion.mp h.question, himages ▸ h.images⟩
  · intro h
    exact ⟨hsteps.symm ▸ h.row, hquestion.mpr h.question, himages.symm ▸ h.images⟩

/-- With an edit of the user, and no dropped question in the way, the request completes. -/
theorem completed {e : Edit} (hs : s ∈ db.steps.rows) (hid : a.step.id = s.id)
    (hsave : a.save c db now = some (db₂, record)) (he : (clearLabel db₂ now a.step).editOf u.id s.id = some e)
    (hok : (endHash u now project a.step e record (clearLabel db₂ now a.step)).1 = .ok) :
    Completed c u now project s a (endHash u now project a.step e record (clearLabel db₂ now a.step)) where
  ok := hok
  saved := by
    rw [(touches_endHash u now project a.step e record _ .steps (by decide) : _ = _)]
    exact find?_clearLabel hs hid hsave
  closed := by
    intro e' he'
    have hedits : (clearEdit (clearLabel db₂ now a.step) e project.id).editOf u.id s.id =
        some { e with startedEditingAt := none, projectId := some (e.projectId.getD project.id) } :=
      Table.find?_where_modify (f := fun y => { y with
        startedEditingAt := none, projectId := some (y.projectId.getD project.id) }) he (fun _ => rfl) fun _ => rfl
    rw [editOf, edits_endHash, ← editOf, hedits] at he'
    rw [← Option.some.inj he']
  evaluated := ⟨db, db₂, record, e, hsave, rfl⟩

end

end StepsController

open StepsController Database

/-- An update that the user may make completes or leaves the step alone exactly in these cases: its attributes are
accepted, and the user has an edit of the step while a question that goes stays announced, or they change nothing; or
they are not accepted, and the images had been saved before and no question is emptied. -/
theorem update_all_or_nothing_iff {db : Database} {p : Nat} {project : Project} {id : Int} {s : Step} {u : User}
    (hproject : db.projects.find? p = some project) (hstep : findByPosition db p id = some s)
    (hallowed : Ability.updateStep db u s = some true) (fmt : DateFormat) (c : SaveContext) (now : Nat)
    (h : Option StepHash) :
    AllOrNothing fmt c u now p id project s h db ↔
      (∃ a, accepted fmt c db s h = some a ∧
        ((db.editOf u.id s.id).isSome = true ∧ StaysAnnounced now project db s a ∨ Unchanged now db s a)) ∨
        (accepted fmt c db s h = none ∧ ImagesSaved db s ∧ emptiedBy db s h = none) := by
  have hs : s ∈ db.steps.rows := (mem_projectSteps.mp (List.mem_of_find?_eq_some hstep)).1
  obtain ⟨-, rfl⟩ := Table.find?_eq_some.mp hproject
  rw [AllOrNothing]
  rcases updateHash_cases fmt c now h hproject hstep hallowed with
    ⟨hnone, hentered⟩ | ⟨a, db₁, db₂, record, hsome, hheld, hid, hentered, hprojects, hsave, heq⟩
  · rw [untouched_entered hentered, hnone]
    simp
  · have hedit : (clearLabel db₂ now a.step).editOf u.id a.step.id = db.editOf u.id s.id := by
      have hedits : (clearLabel db₂ now a.step).edits = db.edits :=
        .trans (touches_clearLabel db₂ now a.step .edits (by decide)) (.trans (touches_save hsave .edits (by decide))
          hentered.edits)
      rw [editOf, hedits, hid, editOf]
    have huntouched := untouched_clearLabel hentered hs hid hheld hsave
    simp only [hsome, Option.some.injEq, exists_eq_left', reduceCtorEq, false_and, or_false]
    rw [heq, afterSave, hedit]
    cases he : db.editOf u.id s.id with
    -- without an edit the request raises behind the save
    | none =>
      rw [huntouched]
      constructor
      · rintro (hcompleted | hsame)
        · exact absurd hcompleted.ok (by simp)
        · exact Or.inr hsame
      · rintro (⟨hno, -⟩ | hsame)
        · cases hno
        · exact Or.inr hsame
    | some e =>
      dsimp only
      rw [untouched_endHash, huntouched]
      have hok := endHash_ok (u := u) hentered hid hprojects hsave e
      constructor
      · rintro (hcompleted | hsame)
        · exact Or.inl ⟨rfl, hok.mp hcompleted.ok⟩
        · exact Or.inr hsame
      · rintro (⟨-, hstays⟩ | hsame)
        · exact Or.inl (completed (hentered.steps ▸ hs) hid hsave (hid ▸ hedit.trans he) (hok.mpr hstays))
        · exact Or.inr hsame

/-- A calendar for forms without date fields. -/
def noDates : DateFormat := ⟨fun _ => none, fun _ => 0⟩

/-- An author renames a step and asks a question. -/
theorem update_all_or_nothing_renamed :
    let db := Run.after (StepRequest.perform 1) (.oneProject "Lamp".toList none) fourSteps
    let h : StepHash := ⟨[.name "Sand it".toList], .hash ⟨[], false, "Which grain?".toList, none, none, .absent⟩,
      .absent, .absent, none, rfl⟩
    ∃ project s, db.projects.find? 1 = some project ∧ findByPosition db 1 1 = some s ∧
      (updateHash noDates plainServer ada 5 1 1 (some h) db).1 = .ok ∧
      AllOrNothing noDates plainServer ada 5 1 1 project s (some h) db := by
  intro db h
  have hfound : ∃ project s, db.projects.find? 1 = some project ∧ findByPosition db 1 1 = some s ∧
      Ability.updateStep db ada s = some true ∧
      (accepted noDates plainServer db s (some h)).map (fun a => a.question.dropped) = some none ∧
      (db.editOf ada.id s.id).isSome = true ∧ (updateHash noDates plainServer ada 5 1 1 (some h) db).1 = .ok := by
    refine ⟨db.projects.rows[0], db.steps.rows[1], ?_⟩
    decide +kernel
  obtain ⟨project, s, hproject, hstep, hallowed, haccepted, hedit, hok⟩ := hfound
  obtain ⟨a, ha, hdropped⟩ := Option.map_eq_some_iff.mp haccepted
  refine ⟨project, s, hproject, hstep, hok,
    (update_all_or_nothing_iff hproject hstep hallowed noDates plainServer 5 (some h)).mpr
      (Or.inl ⟨a, ha, Or.inl ⟨hedit, ?_⟩⟩)⟩
  intro r hr
  rw [hdropped] at hr
  cases hr

/-- An admin without an edit of the step renames it: the new name stays, and then the action raises. -/
theorem update_without_edit :
    let db := Run.after (StepRequest.perform 1) (.oneProject "Lamp".toList none) fourSteps
    let admin : User := ⟨2, "bob".toList, some true⟩
    let h : StepHash := ⟨[.name "Cut".toList], .absent, .absent, .absent, none, rfl⟩
    ∃ project s, db.projects.find? 1 = some project ∧ findByPosition db 1 1 = some s ∧
      Ability.updateStep db admin s = some true ∧ db.editOf admin.id s.id = none ∧
      (updateHash noDates plainServer admin 5 1 1 (some h) db).1 = .error ∧
      ¬ AllOrNothing noDates plainServer admin 5 1 1 project s (some h) db := by
  intro db admin h
  have hfound : db.projects.find? 1 = some db.projects.rows[0] ∧ findByPosition db 1 1 = some db.steps.rows[1] ∧
      Ability.updateStep db admin db.steps.rows[1] = some true ∧ db.editOf admin.id db.steps.rows[1].id = none ∧
      (updateHash noDates plainServer admin 5 1 1 (some h) db).1 = .error ∧
      (updateHash noDates plainServer admin 5 1 1 (some h) db).2.steps.find? db.steps.rows[1].id ≠
        db.steps.find? db.steps.rows[1].id := by decide +kernel
  obtain ⟨hproject, hstep, hallowed, hedit, herror, hchanged⟩ := hfound
  refine ⟨_, _, hproject, hstep, hallowed, hedit, herror, fun hall => ?_⟩
  rcases hall with ⟨_, -, hcompleted⟩ | huntouched
  · exact absurd (herror.symm.trans hcompleted.ok) (by decide)
  · exact hchanged huntouched.row
