import BuildInProgress.ProjectsController

/-!
# Which tables an action writes

Each function of the controllers writes a few tables and leaves the others as they are.  `Touches`
states this for a list of table names, so that one lemma for each function serves every question
about a single table.
-/

/-- The tables of the database. -/
inductive TableName where
  | users | projects | projectsUsers | steps | edits | images | videos | questions | decisions
  | activities | collections | collectifies | favoriteProjects | news
  deriving DecidableEq, Repr

namespace Database

/-- `db'` has the same table `t` as `db`. -/
def Agree (db db' : Database) : TableName → Prop
  | .users => db'.users = db.users
  | .projects => db'.projects = db.projects
  | .projectsUsers => db'.projectsUsers = db.projectsUsers
  | .steps => db'.steps = db.steps
  | .edits => db'.edits = db.edits
  | .images => db'.images = db.images
  | .videos => db'.videos = db.videos
  | .questions => db'.questions = db.questions
  | .decisions => db'.decisions = db.decisions
  | .activities => db'.activities = db.activities
  | .collections => db'.collections = db.collections
  | .collectifies => db'.collectifies = db.collectifies
  | .favoriteProjects => db'.favoriteProjects = db.favoriteProjects
  | .news => db'.news = db.news

/-- `db'` differs from `db` at most in the listed tables. -/
def Touches (names : List TableName) (db db' : Database) : Prop := ∀ t, t ∉ names → Agree db db' t

namespace Touches

variable {names names' : List TableName} {db db' db'' : Database}

theorem refl (names : List TableName) (db : Database) : Touches names db db := by
  intro t _
  cases t <;> rfl

theorem trans (h : Touches names db db') (h' : Touches names db' db'') : Touches names db db'' := by
  intro t ht
  have h₁ := h t ht
  have h₂ := h' t ht
  cases t <;> exact Eq.trans h₂ h₁

theorem mono (h : Touches names db db') (hsub : names ⊆ names') : Touches names' db db' :=
  fun t ht => h t fun hm => ht (hsub hm)

theorem foldl {α : Type} {f : Database → α → Database} (hf : ∀ db a, Touches names db (f db a))
    (l : List α) (db : Database) : Touches names db (l.foldl f db) := by
  induction l generalizing db with
  | nil => exact refl names db
  | cons a l ih => exact (hf db a).trans (ih (f db a))

theorem ite {c : Prop} [Decidable c] {a b : Database} (ha : c → Touches names db a)
    (hb : ¬ c → Touches names db b) : Touches names db (if c then a else b) := by
  split
  · exact ha ‹_›
  · exact hb ‹_›

end Touches

/-! ## The models -/

section Models

variable (db : Database)

theorem SameRecords.touches {db db' : Database} (h : SameRecords db db') :
    Touches [.projects, .activities] db db' := by
  obtain ⟨ps, as, rfl⟩ := h
  intro t ht
  cases t <;> first | rfl | exact absurd (by decide) ht

theorem SameButSteps.touches {db db' : Database} (h : SameButSteps db db') :
    Touches [.steps, .decisions] db db' := by
  obtain ⟨ss, ds, rfl⟩ := h
  intro t ht
  cases t <;> first | rfl | exact absurd (by decide) ht

theorem touches_activities (x : Table Activity) :
    Touches [.activities] db { db with activities := x } := by
  intro t ht
  cases t <;> first | rfl | exact absurd (by decide) ht

theorem touches_projects (x : Table Project) : Touches [.projects] db { db with projects := x } := by
  intro t ht
  cases t <;> first | rfl | exact absurd (by decide) ht

theorem touches_media (x : Table Image) (y : Table Video) :
    Touches [.images, .videos] db { db with images := x, videos := y } := by
  intro t ht
  cases t <;> first | rfl | exact absurd (by decide) ht

theorem touches_edits (x : Table Edit) : Touches [.edits] db { db with edits := x } := by
  intro t ht
  cases t <;> first | rfl | exact absurd (by decide) ht

theorem touches_questions (x : Table Question) (y : Table Decision) :
    Touches [.questions, .decisions] db { db with questions := x, decisions := y } := by
  intro t ht
  cases t <;> first | rfl | exact absurd (by decide) ht

theorem touches_steps (x : Table Step) : Touches [.steps] db { db with steps := x } := by
  intro t ht
  cases t <;> first | rfl | exact absurd (by decide) ht

theorem touches_collections (x : Table Collection) (y : Table Collectify) :
    Touches [.collections, .collectifies] db { db with collections := x, collectifies := y } := by
  intro t ht
  cases t <;> first | rfl | exact absurd (by decide) ht

theorem touches_updateProject (stamp : Option Nat) (i : Nat) (f : Project → Project) :
    Touches [.projects] db (db.updateProject stamp i f) := by
  unfold updateProject
  split
  · exact .refl _ db
  · exact .ite (fun _ => .refl _ db) fun _ => touches_projects db _

theorem touches_touchProject (now i : Nat) : Touches [.projects] db (db.touchProject now i) :=
  touches_projects db _

/-- The step actions publish a project only for some privacies. -/
theorem touches_publish (gate : Bool) (now u i : Nat) (step : Option Nat) :
    Touches [.projects, .activities] db (if gate then db.setPublished now u i step else db) :=
  .ite (fun _ => (SameRecords.setPublished db now u i step).touches) fun _ => .refl _ db

theorem touches_createActivities (t : Trackable) (i : Nat) (key : Text) (owner : Option Nat)
    (rs : List User) :
    Touches [.activities] db (rs.foldl (fun (db : Database) (r : User) =>
      db.createActivity t i key owner (some r.id)) db) :=
  .foldl (fun db _ => touches_activities db _) rs db

theorem touches_announceProject (u : Nat) (p : Project) :
    Touches [.activities] db (db.announceProject u p) :=
  .ite (fun _ => touches_createActivities db _ _ _ _ _) fun _ => touches_activities db _

theorem touches_announceStep (u : Nat) (p : Project) (s : Step) :
    Touches [.activities] db (db.announceStep u p s) :=
  .ite (fun _ => touches_createActivities db _ _ _ _ _) fun _ => touches_activities db _

theorem touches_forgetActivities (i : Nat) : Touches [.activities] db (db.forgetActivities i) :=
  (touches_activities db _).trans (.foldl (fun db _ => touches_activities db _) _ _)

theorem touches_destroyImage (i : Nat) : Touches [.images, .videos] db (db.destroyImage i) := by
  have hvideo : ∀ (db : Database) (j : Nat), Touches [.images, .videos] db (db.destroyImageVideo j) := by
    intro db j
    unfold destroyImageVideo
    split
    · exact .refl _ db
    · exact touches_media db _ _
  exact (Touches.foldl hvideo _ db).trans (touches_media _ _ _)

theorem touches_adoptChildren (now : Nat) (d : Step) :
    Touches [.steps, .decisions] db (db.adoptChildren now d) :=
  .foldl (fun db _ => (SameButSteps.storeStep db _ _).touches) _ db

theorem touches_destroyDependents (s : Nat) :
    Touches [.edits, .images, .videos, .questions, .decisions] db (db.destroyDependents s) := by
  unfold destroyDependents
  dsimp only
  have hmedia : Touches [.edits, .images, .videos, .questions, .decisions] db
      (let db := { db with edits := db.edits.filter (·.stepId ≠ some s) }
       let db := (db.stepImages s).foldl (fun db m => db.destroyImage m.id) db
       { db with videos := db.videos.filter (·.stepId ≠ some (s : Int)) }) := by
    have hedits := touches_edits db (db.edits.filter (·.stepId ≠ some s))
    have himages := Touches.foldl (fun (db : Database) (m : Image) => touches_destroyImage db m.id)
    refine (hedits.mono (by decide)).trans (.trans ?_ ((touches_media _ _ _).mono (by decide)))
    exact (himages _ _).mono (by decide)
  split
  · exact hmedia
  · exact hmedia.trans ((touches_questions _ _ _).mono (by decide))

theorem touches_destroyStep (now : Nat) (d : Step) :
    Touches [.steps, .edits, .images, .videos, .questions, .decisions] db (db.destroyStep now d) :=
  (((touches_adoptChildren db now d).mono (by decide)).trans
    ((touches_destroyDependents _ d.id).mono (by decide))).trans ((touches_steps _ _).mono (by decide))

theorem touches_updateCollection (stamp : Option Nat) (i : Nat) (f : Collection → Collection) :
    Touches [.collections, .collectifies] db (db.updateCollection stamp i f) := by
  unfold updateCollection
  split
  · exact .refl _ db
  · exact .ite (fun _ => .refl _ db) fun _ => touches_collections db _ _

theorem touches_removeFromCollection (now : Nat) (k : Collection) (p : Nat) {db db' : Database}
    (h : db.removeFromCollection now k p = some db') :
    Touches [.collections, .collectifies] db db' := by
  unfold removeFromCollection at h
  split at h
  · cases h
  · cases h
    exact (touches_collections db _ _).trans (touches_updateCollection _ _ _ _)

theorem touches_settleCopy (now : Nat) (original s : Step) :
    Touches [.steps, .decisions, .edits] db (db.settleCopy now original s) := by
  have hsave : ∀ (db : Database) (s : Step), Touches [.steps, .decisions, .edits] db (db.trySave now s) := by
    intro db s
    rw [trySave, saveStep]
    split
    · exact (SameButSteps.storeStep db _ _).touches.mono (by decide)
    · exact .refl _ db
  have husers : ∀ (l : List User) (s : Nat) (db : Database),
      Touches [.steps, .decisions, .edits] db (l.foldl (addStepUser s) db) := fun l s db =>
    .foldl (fun db _ => (touches_edits db _).mono (by decide)) l db
  unfold settleCopy
  dsimp only
  split
  · exact (((hsave _ _).trans (husers _ _ _)).trans (hsave _ _)).trans (hsave _ _)
  · exact ((hsave _ _).trans (husers _ _ _)).trans (hsave _ _)

theorem touches_remixStep (now p : Nat) (hash : Nat → Option Nat) (s : Step) :
    Touches [.steps, .decisions, .edits] db (remixStep now p hash db s) := by
  unfold remixStep
  split
  · exact .refl _ db
  · exact touches_settleCopy db now _ _

theorem touches_remixSteps (now p q : Nat) :
    Touches [.steps, .decisions, .edits] db (db.remixSteps now p q) :=
  .foldl (fun db s => touches_remixStep db now p _ s) _ db

theorem touches_remixImages (q : Nat) (hash : Nat → Option Nat) (ms : List Image) :
    Touches [.images, .videos] db (ms.foldl (remixImage q hash) db) :=
  .foldl (fun db _ => touches_media db _ _) ms db

theorem touches_insertCopies (now q : Nat) (ss : List Step) :
    Touches [.steps] db (db.insertCopies now q ss) :=
  .foldl (fun db _ => touches_steps db _) ss db

/-! The ids of new projects. -/

theorem next_updateProject (stamp : Option Nat) (i : Nat) (f : Project → Project) :
    (db.updateProject stamp i f).projects.next = db.projects.next := by
  rw [updateProject]
  split
  · rfl
  · dsimp only
    split
    · rfl
    · rw [putProject, Table.next_modify]

theorem next_setPublished (now u i : Nat) (step : Option Nat) :
    (db.setPublished now u i step).projects.next = db.projects.next := by
  unfold setPublished
  split
  · rfl
  · dsimp only
    split
    · rw [next_updateProject, (touches_announceProject db _ _ .projects (by decide) : _ = _)]
    · split
      · rw [next_updateProject]
        cases step.bind db.steps.find? with
        | none => rfl
        | some s => exact congrArg Table.next (touches_announceStep db _ _ _ .projects (by decide))
      · split
        · rw [next_updateProject]
          have hforget := congrArg Table.next (touches_forgetActivities db i .projects (by decide) : _ = _)
          split
          · rw [next_updateProject]
            exact hforget
          · exact hforget
        · rfl

end Models

/-! ## Columns of the projects -/

/-- The projects have the same values of `g`, in the same order. -/
def SameColumn {β : Type} (g : Project → β) (db db' : Database) : Prop :=
  db'.projects.rows.map g = db.projects.rows.map g

namespace SameColumn

variable {β : Type} {g : Project → β} {db db' db'' : Database}

theorem refl (db : Database) : SameColumn g db db := rfl

theorem trans (h : SameColumn g db db') (h' : SameColumn g db' db'') : SameColumn g db db'' := Eq.trans h' h

theorem of_touches {names : List TableName} (h : Touches names db db') (hn : TableName.projects ∉ names) :
    SameColumn g db db' := by
  rw [SameColumn, (h .projects hn : _ = _)]

-- a row rewritten to one with the same value
theorem modify {i : Nat} {f : Project → Project} {hf : ∀ r, Keyed.key (f r) = Keyed.key r} (db : Database)
    (h : ∀ r ∈ db.projects.rows, r.id = i → g (f r) = g r) :
    SameColumn g db { db with projects := db.projects.modify i f hf } := by
  rw [SameColumn, Table.rows_modify, List.map_map]
  apply List.map_congr_left
  intro r hr
  rw [Function.comp]
  split
  · rename_i hid
    exact h r hr hid
  · rfl

variable (hstamp : ∀ r t, g { r with updatedAt := t } = g r)

include hstamp

theorem touchProject (db : Database) (now i : Nat) : SameColumn g db (db.touchProject now i) :=
  modify db fun r _ _ => hstamp r now

theorem updateProject (db : Database) (stamp : Option Nat) (i : Nat) {f : Project → Project}
    (hid : ∀ r, (f r).id = r.id) (hf : ∀ r, g (f r) = g r) : SameColumn g db (db.updateProject stamp i f) := by
  unfold Database.updateProject
  cases hfind : db.projects.find? i with
  | none => exact refl db
  | some p =>
    dsimp only
    split
    · exact refl db
    · apply modify
      intro r hr hri
      have hp := (Table.find?_eq_some.mp hfind).1
      have hrp : r = p := Table.eq_of_key hr hp (hri.trans (hid p))
      subst hrp
      have hsame : ({ f r with id := r.id, updatedAt := stamp.getD (f r).updatedAt } : Project) =
          { f r with updatedAt := stamp.getD (f r).updatedAt } := by
        rw [← hid r]
      show g { f r with id := r.id, updatedAt := stamp.getD (f r).updatedAt } = g r
      rw [hsame, hstamp, hf]

theorem setBuilt (hbuilt : ∀ r v, g { r with built := v } = g r) (db : Database) (now i : Nat) :
    SameColumn g db (db.setBuilt now i) :=
  updateProject hstamp db _ _ (fun _ => rfl) fun r => hbuilt r _

theorem setPublished (hprivacy : ∀ r v, g { r with privacy := v } = g r)
    (hfeatured : ∀ r v, g { r with featured := v } = g r) (db : Database) (now u i : Nat) (step : Option Nat) :
    SameColumn g db (db.setPublished now u i step) := by
  have hprivate : ∀ (db : Database) (v : Option Text), SameColumn g db
      (db.updateProject (some now) i fun p => { p with privacy := v }) := fun db v =>
    updateProject hstamp db _ _ (fun _ => rfl) fun r => hprivacy r v
  unfold Database.setPublished
  split
  · exact refl db
  · dsimp only
    split
    · exact (of_touches (touches_announceProject db _ _) (by decide)).trans (hprivate _ _)
    · split
      · refine trans ?_ (hprivate _ _)
        cases step.bind db.steps.find? with
        | none => exact refl db
        | some s => exact of_touches (touches_announceStep db _ _ _) (by decide)
      · split
        · refine (of_touches (touches_forgetActivities db i) (by decide)).trans (trans ?_ (hprivate _ _))
          split
          · exact updateProject hstamp _ _ _ (fun _ => rfl) fun r => hfeatured r _
          · exact refl _
        · exact refl db

theorem publish (hprivacy : ∀ r v, g { r with privacy := v } = g r)
    (hfeatured : ∀ r v, g { r with featured := v } = g r) (db : Database) (gate : Bool) (now u i : Nat)
    (step : Option Nat) : SameColumn g db (if gate then db.setPublished now u i step else db) := by
  split
  · exact setPublished hstamp hprivacy hfeatured db now u i step
  · exact refl db

end SameColumn

/-! ## The projects there are -/

/-- The same projects, whatever their rows say. -/
def SameProjects (db db' : Database) : Prop :=
  db'.projects.rows.map Keyed.key = db.projects.rows.map Keyed.key

namespace SameProjects

variable {db db' db'' : Database}

theorem refl (db : Database) : SameProjects db db := rfl

theorem trans (h : SameProjects db db') (h' : SameProjects db' db'') : SameProjects db db'' := Eq.trans h' h

theorem of_touches {names : List TableName} (h : Touches names db db') (hn : TableName.projects ∉ names) :
    SameProjects db db' := by
  rw [SameProjects, (h .projects hn : _ = _)]

theorem isSome_find? (h : SameProjects db db') (p : Nat) :
    (db'.projects.find? p).isSome = (db.projects.find? p).isSome := by
  rw [Bool.eq_iff_iff, Table.isSome_find?, Table.isSome_find?, h]

end SameProjects

end Database

theorem touches_authorize {names : List TableName} {permission : Option Bool} {db : Database}
    {rest : Outcome × Database} (h : Database.Touches names db rest.2) :
    Database.Touches names db (authorize permission db rest).2 := by
  rcases authorize_cases permission db rest with ⟨-, heq⟩ | ⟨-, heq⟩
  · rw [heq]
    exact h
  · rw [heq]
    exact .refl _ db

/-! ## The steps controller -/

namespace StepsController

open Database

variable (db : Database)

theorem touches_saveDecision (q : Nat) (decision : Option Text) :
    Touches [.questions, .decisions] db (saveDecision db q decision) := by
  unfold saveDecision
  split
  · exact .refl _ db
  · split <;> exact touches_questions db _ _

theorem touches_saveQuestion (s : Nat) (params : List StepAttr) :
    Touches [.questions, .decisions] db (saveQuestion db s params) := by
  unfold saveQuestion
  split
  · exact .refl _ db
  · refine .ite (fun _ => .refl _ db) fun _ => ?_
    split
    · exact .trans (touches_questions db _ _) (touches_saveDecision _ _ _)
    · exact touches_questions db _ _

theorem touches_checkDecision (s : Nat) : Touches [.questions, .decisions] db (db.checkDecision s) := by
  unfold checkDecision
  split
  · exact .refl _ db
  · split
    · exact .refl _ db
    · exact .ite (fun _ => touches_questions db _ _) fun _ => .refl _ db

theorem touches_updateQuestion (s : Nat) (params : List StepAttr) :
    Touches [.questions, .decisions] db (updateQuestion db s params) :=
  (touches_saveQuestion db s params).trans (touches_checkDecision _ s)

theorem touches_removeQuestion (s : Nat) (params : List StepAttr) :
    Touches [.questions, .decisions] db (removeQuestion db s params) := by
  unfold removeQuestion
  split
  · exact .ite (fun _ => touches_questions db _ _) fun _ => .refl _ db
  · exact .refl _ db

theorem touches_touchCollections (now p : Nat) :
    Touches [.collections] db (touchCollections db now p) := by
  intro t ht
  cases t <;> first | rfl | exact absurd (by decide) ht

theorem touches_createQuestionActivity (u s : Nat) :
    Touches [.activities] db (createQuestionActivity db u s) := by
  unfold createQuestionActivity
  split
  · exact .refl _ db
  · exact touches_activities db _

theorem touches_announceQuestion (u s : Nat) (gone : Option Question) :
    Touches [.activities] db (announceQuestion db u s gone) := by
  unfold announceQuestion
  split
  · exact .ite (fun _ => .refl _ db) fun _ => touches_activities db _
  · exact .refl _ db

theorem touches_createEdit (u s p : Nat) (startedEditingAt : Option Nat) (temp : Option Bool) :
    Touches [.edits] db (createEdit db u s p startedEditingAt temp) := touches_edits db _

/-- A create writes everything else before it comes to the images and videos. -/
theorem afterCreate_eq (u : User) (now : Nat) (html : Bool) (project : Project) (s : Step)
    (params : List StepAttr) :
    ∃ db', Touches [.projects, .steps, .edits, .questions, .decisions, .activities, .collections] db db' ∧
      afterCreate u now html project s params db = if html then claimMedia db' project.id s.id else db' := by
  refine ⟨_, ?_, rfl⟩
  refine .trans ((touches_saveQuestion db s.id params).mono (by decide))
    (.trans ((touches_touchCollections _ now project.id).mono (by decide)) ?_)
  refine .trans ((touches_createEdit _ u.id s.id project.id none none).mono (by decide)) ?_
  refine .trans ((touches_publish _ (project.isPublic || project.unpublished) now u.id project.id
    (some s.id)).mono (by decide)) ?_
  refine .trans ((SameRecords.setBuilt _ now project.id).touches.mono (by decide)) ?_
  refine .trans ((touches_touchProject _ now project.id).mono (by decide)) ?_
  refine .trans ((SameButSteps.updateStep _ (some now) s.id fun s => { s with
    publishedOn := some s.createdAt }).touches.mono (by decide)) ?_
  exact (touches_createQuestionActivity _ u.id s.id).mono (by decide)

theorem touches_reroot (now : Nat) (d : Step) (ss : List Step) :
    Touches [.steps, .decisions] db (reroot now d ss db).2 := by
  induction ss generalizing db with
  | nil => exact .refl _ db
  | cons s ss ih =>
    unfold reroot
    cases s.ancestry with
    | none => exact .refl _ db
    | some a =>
      refine .trans ?_ (ih _)
      rw [saveStep]
      split
      · exact (SameButSteps.storeStep db _ _).touches
      · exact .refl _ db

theorem touches_renumber (now p n : Nat) (position : Int) :
    Touches [.steps, .decisions] db (renumber now p n position db) := by
  induction n generalizing db position with
  | zero => exact .refl _ db
  | succ n ih =>
    refine .trans ?_ (ih _ _)
    unfold moveDown
    split
    · exact .refl _ db
    · exact (SameButSteps.storeStep db _ _).touches

theorem touches_closeGap (now p : Nat) (d : Step) : Touches [.steps, .decisions] db (closeGap now p d db) :=
  .ite (fun _ => touches_renumber db now p _ _) fun _ => .refl _ db

theorem touches_forgetStep (d : Step) : Touches [.activities, .news] db (forgetStep db d) := by
  have hnews : ∀ (db : Database) (x : Table News), Touches [.activities, .news] db { db with news := x } := by
    intro db x t ht
    cases t <;> first | rfl | exact absurd (by decide) ht
  unfold forgetStep
  refine .trans ?_ (hnews _ _)
  cases db.stepQuestion d.id with
  | none => exact (touches_activities db _).mono (by decide)
  | some q => exact ((touches_activities db _).trans (touches_activities _ _)).mono (by decide)

theorem touches_sortFrom (index : Nat) (ids : List Nat) :
    Touches [.steps] db (sortFrom index ids db) := by
  induction ids generalizing db index with
  | nil => exact .refl _ db
  | cons i ids ih => exact (touches_steps db _).trans (ih _ _)

theorem touches_beforeUpdate (now p : Nat) (s : Step) (params : List StepAttr) :
    Touches [.collections, .images, .videos, .questions, .decisions, .projects] db
      (beforeUpdate now p s params db) := by
  refine .trans (.trans (.trans ((touches_touchCollections db now p).mono (by decide)) ?_)
    ((touches_removeQuestion _ _ _).mono (by decide))) ((touches_projects _ _).mono (by decide))
  exact (touches_media _ _ _).mono (by decide)

theorem touches_beforeDestroy (now p : Nat) (d : Step) :
    Touches [.steps, .decisions] db (beforeDestroy now p d db).2 := by
  unfold beforeDestroy
  split
  · exact touches_reroot db _ _ _
  · exact .refl _ db

end StepsController

namespace StepsController

open Database

variable (db : Database)

theorem touches_afterDestroy (u : User) (now : Nat) (project : Project) (d : Step) :
    Touches [.projects, .steps, .decisions, .activities] db (afterDestroy u now project d db) := by
  rw [afterDestroy_eq]
  refine .trans (.trans ?_ ((touches_publish _ project.isPublic now u.id project.id none).mono (by decide)))
    ((SameRecords.setBuilt _ now project.id).touches.mono (by decide))
  exact (touches_closeGap db now project.id d).mono (by decide)

theorem next_afterDestroy (u : User) (now : Nat) (project : Project) (d : Step) :
    (afterDestroy u now project d db).projects.next = db.projects.next := by
  have hloop : (closeGap now project.id d db).projects = db.projects :=
    touches_closeGap db now project.id d .projects (by decide)
  rw [afterDestroy_eq, Database.setBuilt, Database.next_updateProject]
  split
  · rw [Database.next_setPublished, hloop]
  · rw [hloop]

/-- What `update` writes to the question and the label of the saved step. -/
def relabel (now : Nat) (s : Step) (params : List StepAttr) (db : Database) : Database :=
  let db := updateQuestion db s.id params
  if s.label = some false then db.putStep { s with labelColor := none, updatedAt := now } else db

/-- How `update` ends the edit of its user. -/
def endEdit (u : User) (now : Nat) (project : Project) (s : Step) (e : Edit) (gone : Option Question)
    (db : Database) : Database :=
  announceQuestion ((if project.isPublic || project.unpublished then
    (clearEdit db e project.id).setPublished now u.id project.id (some s.id)
    else clearEdit db e project.id).setBuilt now project.id) u.id s.id gone

/-- How the action ends there; a destroyed question leaves the activities alone. -/
def endOutcome (gone : Option Question) (db : Database) : Outcome := if gone.all (announced db) then .ok else .error

theorem touches_relabel (now : Nat) (s : Step) (params : List StepAttr) :
    Touches [.steps, .questions, .decisions] db (relabel now s params db) := by
  have hquestion := touches_updateQuestion db s.id params
  unfold relabel
  exact .ite (fun _ => (hquestion.mono (by decide)).trans ((touches_steps _ _).mono (by decide)))
    fun _ => hquestion.mono (by decide)

theorem touches_endEdit (u : User) (now : Nat) (project : Project) (s : Step) (e : Edit) (gone : Option Question) :
    Touches [.projects, .edits, .activities] db (endEdit u now project s e gone db) := by
  have hclear : Touches [.edits] db (clearEdit db e project.id) := touches_edits db _
  refine .trans (hclear.mono (by decide)) (.trans ?_ ((touches_announceQuestion _ _ _ _).mono (by decide)))
  exact .trans ((touches_publish _ _ _ _ _ _).mono (by decide)) ((SameRecords.setBuilt _ _ _).touches.mono (by decide))

/-- A user without an edit of the step makes `update` raise after the label is written. -/
theorem afterUpdate_cases (u : User) (now : Nat) (project : Project) (s : Step) (params : List StepAttr)
    (gone : Option Question) :
    (db.editOf u.id s.id = none ∧ afterUpdate u now project s params gone db = (.error, relabel now s params db)) ∨
      ∃ e, db.editOf u.id s.id = some e ∧ afterUpdate u now project s params gone db =
        (endOutcome gone (endEdit u now project s e gone (relabel now s params db)),
          endEdit u now project s e gone (relabel now s params db)) := by
  have hedit : (relabel now s params db).editOf u.id s.id = db.editOf u.id s.id := by
    rw [editOf, (touches_relabel db now s params .edits (by decide) : _ = _), editOf]
  unfold afterUpdate
  dsimp only
  split
  · rename_i hnone
    exact Or.inl ⟨hedit.symm.trans hnone, rfl⟩
  · rename_i e he
    refine Or.inr ⟨e, hedit.symm.trans he, ?_⟩
    cases gone with
    | none => rfl
    | some q => rfl

theorem touches_afterUpdate (u : User) (now : Nat) (project : Project) (s : Step) (params : List StepAttr)
    (gone : Option Question) :
    Touches [.projects, .steps, .edits, .questions, .decisions, .activities] db
      (afterUpdate u now project s params gone db).2 := by
  have hlabel := touches_relabel db now s params
  rcases afterUpdate_cases db u now project s params gone with ⟨-, heq⟩ | ⟨e, -, heq⟩
  · rw [heq]
    exact hlabel.mono (by decide)
  · rw [heq]
    exact (hlabel.mono (by decide)).trans ((touches_endEdit _ u now project s e gone).mono (by decide))

theorem touches_update (u : User) (now p : Nat) (id : Int) (params : List StepAttr) :
    Touches [.projects, .steps, .edits, .images, .videos, .questions, .decisions, .activities, .collections] db
      (update u now p id params db).2 := by
  rcases update_cases u now p id params db with heq | ⟨project, s, -, -, -, heq | ⟨s', -, -, heq⟩⟩
  · rw [heq]
    exact .refl _ db
  · rw [heq]
    exact (touches_beforeUpdate db now p s params).mono (by decide)
  · rw [heq]
    refine .trans ((touches_beforeUpdate db now p s params).mono (by decide)) (.trans ?_
      ((touches_afterUpdate _ u now project s' params _).mono (by decide)))
    exact (SameButSteps.storeRow _ _ _).touches.mono (by decide)

section Columns

variable {β : Type} {g : Project → β} (hstamp : ∀ r t, g { r with updatedAt := t } = g r)
  (hbuilt : ∀ r v, g { r with built := v } = g r) (hprivacy : ∀ r v, g { r with privacy := v } = g r)
  (hfeatured : ∀ r v, g { r with featured := v } = g r)

include hstamp hbuilt hprivacy hfeatured

theorem sameColumn_afterDestroy (u : User) (now : Nat) (project : Project) (d : Step) :
    SameColumn g db (afterDestroy u now project d db) := by
  have hloop : SameColumn g db (closeGap now project.id d db) := .of_touches (touches_closeGap db _ _ _) (by decide)
  rw [afterDestroy_eq]
  exact (hloop.trans (.publish hstamp hprivacy hfeatured _ _ _ _ _ _)).trans (.setBuilt hstamp hbuilt _ _ _)

/-- Requests about steps write no other column of a project than its stamps, `built`, the privacy and
`featured`. -/
theorem sameColumn_create (u : User) (now : Nat) (html : Bool) (p : Nat) (params : List StepAttr) :
    SameColumn g db (create u now html p params db).2 := by
  have hmedia : ∀ (db : Database) (i s : Nat), SameColumn g db (if html then claimMedia db i s else db) := by
    intro db i s
    split
    · exact .of_touches (touches_media db _ _) (by decide)
    · exact .refl db
  rcases create_cases u now html p params db with ⟨-, heq⟩ | ⟨project, s, -, -, -, -, heq⟩
  · rw [heq]
    exact .refl db
  · rw [heq]
    unfold afterCreate
    refine .trans ?_ (hmedia _ _ _)
    refine .trans ?_ (.of_touches (touches_createQuestionActivity _ _ _) (by decide))
    refine .trans ?_ (.of_touches (SameButSteps.updateStep _ _ _ _).touches (by decide))
    refine .trans ?_ (.touchProject hstamp _ _ _)
    refine .trans ?_ (.setBuilt hstamp hbuilt _ _ _)
    refine .trans ?_ (.publish hstamp hprivacy hfeatured _ _ _ _ _ _)
    refine .trans ?_ (.of_touches (touches_createEdit _ u.id s.id project.id none none) (by decide))
    refine .trans ?_ (.of_touches (touches_touchCollections _ now project.id) (by decide))
    have hinsert : SameColumn g db (insertStep db { s with position := createPosition db p (createParams db p params) }) :=
      .refl db
    exact hinsert.trans (.of_touches (touches_saveQuestion _ s.id _) (by decide))

theorem sameColumn_update (u : User) (now p : Nat) (id : Int) (params : List StepAttr) :
    SameColumn g db (update u now p id params db).2 := by
  have hbefore : ∀ s, SameColumn g db (beforeUpdate now p s params db) := by
    intro s
    unfold beforeUpdate
    refine .trans ?_ (.touchProject hstamp _ _ _)
    refine .trans ?_ (.of_touches (touches_removeQuestion _ _ _) (by decide))
    exact .trans (.of_touches (touches_touchCollections db now p) (by decide))
      (.of_touches (touches_media _ _ _) (by decide))
  rcases update_cases u now p id params db with heq | ⟨project, s, -, -, -, heq | ⟨s', -, -, heq⟩⟩
  · rw [heq]
    exact .refl db
  · rw [heq]
    exact hbefore s
  · rw [heq]
    have hstore := SameButSteps.storeRow (beforeUpdate now p s params db) (some now) s'
    refine (hbefore s).trans (.trans (.of_touches hstore.touches (by decide)) ?_)
    generalize (beforeUpdate now p s params db).storeRow (some now) s' = db'
    have hlabel : SameColumn g db' (relabel now s' params db') := .of_touches (touches_relabel db' now s' params) (by decide)
    rcases afterUpdate_cases db' u now project s' params (emptiedQuestion db s.id params) with ⟨-, heq⟩ | ⟨e, -, heq⟩
    · rw [heq]
      exact hlabel
    · rw [heq]
      have hclear : SameColumn g (relabel now s' params db') (clearEdit (relabel now s' params db') e project.id) :=
        .of_touches (touches_edits _ _) (by decide)
      refine hlabel.trans (.trans ?_ (.of_touches (touches_announceQuestion _ _ _ _) (by decide)))
      exact .trans (hclear.trans (.publish hstamp hprivacy hfeatured _ _ _ _ _ _)) (.setBuilt hstamp hbuilt _ _ _)

end Columns

/-- A create keeps the projects. -/
theorem sameProjects_create (u : User) (now : Nat) (html : Bool) (p : Nat) (params : List StepAttr) :
    SameProjects db (create u now html p params db).2 :=
  sameColumn_create db (g := Keyed.key) (fun _ _ => rfl) (fun _ _ => rfl) (fun _ _ => rfl) (fun _ _ => rfl) u now html
    p params

end StepsController

/-! ## The image and video controllers -/

namespace ImagesController

open Database

variable (db : Database)

theorem touches_insertImage (m : Image) : Touches [.images, .videos] db (insertImage db m) :=
  touches_media db _ _

theorem touches_modifyImage (i : Nat) (f : Image → Image) (hf : ∀ m, (f m).id = m.id) :
    Touches [.images, .videos] db (modifyImage db i f hf) := touches_media db _ _

theorem touches_destroyRemixes (ms : List Image) :
    Touches [.images, .videos] db (destroyRemixes ms db).2 := by
  induction ms generalizing db with
  | nil => exact .refl _ db
  | cons m ms ih =>
    unfold destroyRemixes
    split
    · split
      · exact .refl _ db
      · exact .trans ((touches_media db _ _).trans (touches_destroyImage _ _)) (ih _)
    · exact .trans (touches_destroyImage db _) (ih _)

end ImagesController

/-! ## The project controller -/

namespace ProjectsController

open Database

theorem touches_saveNestedImage (p : Nat) (db : Database) (e : Option Nat × List ImageAttr) :
    Touches [.images, .videos] db (saveNestedImage p db e) := by
  unfold saveNestedImage
  split
  · exact ImagesController.touches_modifyImage db _ _ _
  · exact ImagesController.touches_insertImage db _

/-- `update` is turned away, or refuses the parameters, or saves and asks whether to publish. -/
theorem update_cases (u : User) (now i : Nat) (params : List ProjectAttr) (db : Database) :
    (update u now i params db).2 = db ∨
      ∃ project, db.projects.find? i = some project ∧ Ability.updateProject db u project = true ∧
        ((update u now i params db).2 = StepsController.touchCollections db now i ∨
          (nestedImagesFound db i params = true ∧ (ProjectAttr.record now params project).valid = true ∧
            (update u now i params db).2 =
              let saved := ProjectAttr.record now params project
              let db := saveProject (StepsController.touchCollections db now i) now project params
              if saved.unpublished || untitled saved then db.setPublished now u.id i none else db)) := by
  rw [update]
  cases hproj : db.projects.find? i with
  | none => exact Or.inl rfl
  | some project =>
    dsimp only
    rcases authorize_cases (some (Ability.updateProject db u project)) db _ with ⟨hauth, heq⟩ | ⟨-, heq⟩
    · rw [heq]
      refine Or.inr ⟨project, rfl, Option.some.inj hauth, ?_⟩
      -- touching the collections loses no image
      have hsame : nestedImagesFound (StepsController.touchCollections db now i) i params =
          nestedImagesFound db i params := rfl
      rw [hsame]
      by_cases hfound : nestedImagesFound db i params = true
      · rw [hfound, if_neg (by decide)]
        by_cases hv : (ProjectAttr.record now params project).valid = true
        · rw [hv, if_neg (by decide)]
          refine Or.inr ⟨rfl, rfl, ?_⟩
          by_cases hpub : ((ProjectAttr.record now params project).unpublished ||
              untitled (ProjectAttr.record now params project)) = true
          · rw [if_pos hpub]
            exact (if_pos hpub).symm
          · rw [if_neg hpub]
            exact (if_neg hpub).symm
        · rw [if_pos (by rw [Bool.not_eq_true] at hv; rw [hv]; rfl)]
          exact Or.inl rfl
      · rw [if_pos (by rw [Bool.not_eq_true] at hfound; rw [hfound]; rfl)]
        exact Or.inl rfl
    · exact Or.inl heq

theorem touches_forgetProject (db : Database) (u p : Nat) : Touches [.activities] db (forgetProject db u p) := by
  unfold forgetProject
  dsimp only
  have hquestions : Touches [.activities] db ((questions db p).foldl (fun (db : Database) (q : Question) =>
      db.destroyActivitiesOf .question q.id) (db.destroyActivitiesOf .project p)) :=
    (touches_activities db _).trans (.foldl (fun db _ => touches_activities db _) _ _)
  refine .trans (hquestions.trans ?_) (.foldl (fun db _ => touches_activities db _) _ _)
  cases favoriteOf db u p with
  | none => exact .refl _ _
  | some f => exact touches_activities _ _

/-- The tables `project.destroy` filters, and those it leaves alone. -/
theorem destroyProject_tables (db : Database) (now i : Nat) :
    (destroyProject db now i).projects = db.projects.filter (·.id ≠ i) ∧
      (destroyProject db now i).favoriteProjects = db.favoriteProjects.filter (·.projectId ≠ i) ∧
      (destroyProject db now i).collectifies = db.collectifies.filter (·.projectId ≠ i) ∧
      Touches [.steps, .questions, .favoriteProjects, .collectifies, .projects, .projectsUsers, .edits, .images, .videos,
        .decisions] db (destroyProject db now i) := by
  have hsteps : Touches [.steps, .edits, .images, .videos, .questions, .decisions] db
      ((db.projectSteps i).foldl (fun (db : Database) (s : Step) => db.destroyStep now s) db) :=
    .foldl (fun db s => touches_destroyStep db now s) _ db
  unfold destroyProject
  dsimp only
  generalize (db.projectSteps i).foldl (fun (db : Database) (s : Step) => db.destroyStep now s) db = db₁ at hsteps ⊢
  have himages : Touches [.images, .videos] db₁
      ((db₁.projectImages i).foldl (fun (db : Database) (m : Image) => db.destroyImage m.id) db₁) :=
    .foldl (fun db (m : Image) => touches_destroyImage db m.id) _ db₁
  generalize (db₁.projectImages i).foldl (fun (db : Database) (m : Image) => db.destroyImage m.id) db₁ = db₂ at himages ⊢
  have hboth : Touches [.steps, .edits, .images, .videos, .questions, .decisions] db db₂ :=
    hsteps.trans (himages.mono (by decide))
  refine ⟨?_, ?_, ?_, ?_⟩
  · rw [(hboth .projects (by decide) : _ = _)]
  · rw [(hboth .favoriteProjects (by decide) : _ = _)]
  · rw [(hboth .collectifies (by decide) : _ = _)]
  · refine .trans (hboth.mono (by decide)) ?_
    intro t ht
    cases t <;> first | rfl | exact absurd (by decide) ht

/-- `destroy` is turned away, or forgets the project and destroys it. -/
theorem destroy_cases (u : User) (now i : Nat) (db : Database) :
    ((∀ project ∈ db.projects.find? i, Ability.destroyProject db u project = false) ∧
        (destroy u now i db).2 = db) ∨
      ∃ project db', db.projects.find? i = some project ∧ Ability.destroyProject db u project = true ∧
        Touches [.activities, .collectifies] db db' ∧
        (destroy u now i db).2 = destroyProject (adoptRemixes db' project) now i := by
  rw [destroy]
  cases hproj : db.projects.find? i with
  | none => exact Or.inl ⟨(fun _ hr => by cases hr), rfl⟩
  | some project =>
    dsimp only
    rcases authorize_cases (some (Ability.destroyProject db u project)) db _ with ⟨hauth, heq⟩ | ⟨hauth, heq⟩
    · rw [heq]
      refine Or.inr ⟨project, _, rfl, Option.some.inj hauth, ?_, rfl⟩
      refine .trans ((touches_forgetProject db u.id i).mono (by decide)) ?_
      intro t ht
      cases t <;> first | rfl | exact absurd (by decide) ht
    · rw [heq]
      refine Or.inl ⟨fun r hr => ?_, rfl⟩
      rw [← Option.some.inj hr]
      exact Bool.eq_false_iff.mpr fun htrue => hauth (by rw [htrue])

/-- A completed deletion of a project. -/
theorem destroy_ok {u : User} {now i : Nat} {db : Database} (hok : (destroy u now i db).1 = .ok) :
    ∃ project, db.projects.find? i = some project ∧ Ability.destroyProject db u project = true ∧
      (destroy u now i db).2 = destroyProject (adoptRemixes
        { forgetProject db u.id i with collectifies := db.collectifies.filter (·.projectId ≠ i) } project) now i := by
  unfold destroy at hok ⊢
  cases hproject : db.projects.find? i with
  | none =>
    rw [hproject] at hok
    cases hok
  | some project =>
    rw [hproject] at hok
    dsimp only at hok ⊢
    obtain ⟨hallowed, heq⟩ := authorize_ok hok
    refine ⟨project, rfl, Option.some.inj hallowed, ?_⟩
    rw [heq, (touches_forgetProject db u.id i .collectifies (by decide) : _ = _)]

end ProjectsController
