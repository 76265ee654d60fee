import BuildInProgress.ActivityDeletion
import BuildInProgress.PublishedRows
import BuildInProgress.RemixLineage

/-!
# Activities about records that are gone

Destroying a project or a step destroys the records that depend on it, and the controllers delete the
activities about some of them.  Here it matters what each activity is about, so the comments, on which nothing
else depends, are kept beside the database.
-/

open Text

/-- `comments` -/
structure Comment where
  id : Nat
  commentableType : Text
  commentableId : Nat
  deriving DecidableEq, Repr

instance : Keyed Comment := ⟨Comment.id⟩

structure Discussed where
  db : Database
  comments : Table Comment

namespace Discussed

/-- The comment is in `step.comment_threads` for one of the steps. -/
def onSteps (ss : List Nat) (c : Comment) : Bool := c.commentableType == "Step".toList && ss.contains c.commentableId

/-- The ids of the records of a class. -/
def trackableIds (w : Discussed) : Trackable → List Nat
  | .project => w.db.projects.rows.map Keyed.key
  | .step => w.db.steps.rows.map Keyed.key
  | .question => w.db.questions.rows.map Keyed.key
  | .collection => w.db.collections.rows.map Keyed.key
  | .collectify => w.db.collectifies.rows.map Keyed.key
  | .favoriteProject => w.db.favoriteProjects.rows.map Keyed.key
  | .comment => w.comments.rows.map Keyed.key
  | .user => w.db.users.rows.map Keyed.key

/-- The trackable of every activity exists. -/
def AllTracked (w : Discussed) : Prop :=
  ∀ a ∈ w.db.activities.rows, ∃ t n, a.Of t n ∧ n ∈ w.trackableIds t

end Discussed

/-- The two requests that destroy a project or a step. -/
inductive Deletion where
  | project (u : User) (now i : Nat)
  | step (u : User) (now p : Nat) (key : StepKey)

namespace Deletion

/-- The request on the database. -/
def run (db : Database) : Deletion → Outcome × Database
  | project u now i => ProjectsController.destroy u now i db
  | step u now p key => StepsController.destroy u now p key db

/-- The steps that are destroyed. -/
def steps (db : Database) : Deletion → List Nat
  | project _ _ i => (db.projectSteps i).map Step.id
  | step _ _ _ key => (db.findStep key).toList.map Step.id

/-- The comments of a step go when the step is destroyed. -/
def handle (w : Discussed) (r : Deletion) : Outcome × Discussed :=
  ((r.run w.db).1,
    { db := (r.run w.db).2
      comments := if (r.run w.db).1 = .ok then w.comments.filter fun c => !Discussed.onSteps (r.steps w.db) c
        else w.comments })

/-- The ids by which the request deletes activities of any class. -/
def askedIds (db : Database) : Deletion → List (Option Nat)
  | project u _ i => ProjectsController.projectIds u i db
  | step u now p key => StepsController.destroyIds u now p key db

/-- The ids of the records of a class that are destroyed. -/
def destroyedIds (w : Discussed) : Deletion → Trackable → List Nat
  | project _ _ i, .project => [i]
  | project _ _ i, .step => (w.db.projectSteps i).map Step.id
  | project _ _ i, .question => (ProjectsController.questions w.db i).map Question.id
  | project _ _ i, .collectify => (w.db.collectifies.rows.filter (·.projectId = i)).map Collectify.id
  | project _ _ i, .favoriteProject => (w.db.favoriteProjects.rows.filter (·.projectId = i)).map FavoriteProject.id
  | step _ _ _ key, .step => (w.db.findStep key).toList.map Step.id
  | step _ _ _ key, .question => ((w.db.findStep key).bind fun d => w.db.stepQuestion d.id).toList.map Question.id
  | r, .comment => (w.comments.rows.filter (Discussed.onSteps (r.steps w.db))).map Comment.id
  | _, _ => []

/-- The activity is about a record that is destroyed and that no deletion of activities names: a comment, a
favorite of another user, a membership in a collection. -/
def Overlooked (w : Discussed) (r : Deletion) (a : Activity) : Prop :=
  (∃ c ∈ w.comments.rows, Discussed.onSteps (r.steps w.db) c = true ∧ a.Of .comment c.id) ∨
    match r with
    | project u _ i =>
      (∃ f ∈ w.db.favoriteProjects.rows, f.projectId = i ∧ ProjectsController.favoriteOf w.db u.id i ≠ some f ∧
        a.Of .favoriteProject f.id) ∨
      ∃ c ∈ w.db.collectifies.rows, c.projectId = i ∧ a.Of .collectify c.id
    | step _ _ _ _ => False

end Deletion

/-! ## The records that are left -/

theorem Table.mem_keys_without {α : Type} [Keyed α] {t t' : Table α} {gone : List α} (hgone : gone ⊆ t.rows)
    (h : ∀ r, r ∈ t'.rows ↔ r ∈ t.rows ∧ r ∉ gone) (n : Nat) :
    n ∈ t'.rows.map Keyed.key ↔ n ∈ t.rows.map Keyed.key ∧ n ∉ gone.map Keyed.key := by
  constructor
  · intro hn
    obtain ⟨r, hr, rfl⟩ := List.mem_map.mp hn
    obtain ⟨hrow, hleft⟩ := (h r).mp hr
    refine ⟨List.mem_map_of_mem hrow, fun hkey => ?_⟩
    obtain ⟨r', hr', hkey⟩ := List.mem_map.mp hkey
    cases Table.eq_of_key (hgone hr') hrow hkey
    exact hleft hr'
  · rintro ⟨hn, hleft⟩
    obtain ⟨r, hr, rfl⟩ := List.mem_map.mp hn
    exact List.mem_map_of_mem ((h r).mpr ⟨hr, fun hgone => hleft (List.mem_map_of_mem hgone)⟩)

theorem Table.mem_keys_filter {α : Type} [Keyed α] (t : Table α) {p q : α → Bool} (h : ∀ r, p r = !q r) (n : Nat) :
    n ∈ (t.filter p).rows.map Keyed.key ↔ n ∈ t.rows.map Keyed.key ∧ n ∉ (t.rows.filter q).map Keyed.key := by
  refine mem_keys_without List.filter_sublist.subset (fun r => ?_) n
  rw [Table.rows_filter, List.mem_filter, List.mem_filter, h, Bool.not_eq_true', ← Bool.not_eq_true, not_and]
  exact and_congr_right fun hr => (imp_iff_right hr).symm

namespace Database

variable {db : Database}

/-- A destroyed step takes its question along. -/
theorem questions_destroyStep (db : Database) (now : Nat) (d : Step) :
    (db.destroyStep now d).questions.rows = db.questions.rows.filter fun q => db.stepQuestion d.id ≠ some q := by
  have hadopted : (db.adoptChildren now d).questions = db.questions := touches_adoptChildren db now d .questions (by decide)
  have himages : ∀ (l : List Image) (db : Database),
      (l.foldl (fun db m => db.destroyImage m.id) db).questions = db.questions := fun l db =>
    Touches.foldl (fun (db : Database) (m : Image) => touches_destroyImage db m.id) l db .questions (by decide)
  rw [destroyStep, destroyDependents]
  dsimp only
  rw [show ∀ (db' : Database), db'.questions = db.questions → db'.stepQuestion d.id = db.stepQuestion d.id from
    fun db' h => by rw [stepQuestion, h, stepQuestion]]
  · cases hq : db.stepQuestion d.id with
    | none =>
      dsimp only
      rw [himages, hadopted]
      exact (List.filter_eq_self.mpr fun q _ => rfl).symm
    | some q =>
      dsimp only
      rw [destroyQuestion, Table.rows_filter, himages, hadopted]
      apply List.filter_congr
      intro r hr
      have hrow : q ∈ db.questions.rows := List.mem_of_find?_eq_some hq
      rw [decide_eq_decide]
      refine not_congr ⟨fun hid => ?_, fun heq => ?_⟩
      · rw [Table.eq_of_key hr hrow hid]
      · rw [Option.some.inj heq]
  · exact (himages _ _).trans hadopted

theorem stepQuestion_destroyStep (db : Database) (now : Nat) (d : Step) {s : Nat} (hs : s ≠ d.id) :
    (db.destroyStep now d).stepQuestion s = db.stepQuestion s := by
  rw [stepQuestion, questions_destroyStep, stepQuestion]
  refine List.find?_filter_unseen fun q _ hq => decide_eq_true fun heq => hs ?_
  have hd := List.find?_some heq
  rw [decide_eq_true_eq] at hd hq
  exact hq.symm.trans hd

/-- Destroying several steps takes the question of each. -/
theorem questions_destroySteps (now : Nat) (ss : List Step) (hn : (ss.map Step.id).Nodup) (db : Database) (q : Question) :
    q ∈ (ss.foldl (fun (db : Database) (s : Step) => db.destroyStep now s) db).questions.rows ↔
      q ∈ db.questions.rows ∧ ∀ s ∈ ss, db.stepQuestion s.id ≠ some q := by
  induction ss generalizing db with
  | nil => simp
  | cons s ss ih =>
    rw [List.map_cons, List.nodup_cons] at hn
    have hother : ∀ t ∈ ss, (db.destroyStep now s).stepQuestion t.id = db.stepQuestion t.id := fun t ht =>
      stepQuestion_destroyStep db now s fun heq => hn.1 (heq ▸ List.mem_map_of_mem ht)
    rw [List.foldl_cons, ih hn.2, questions_destroyStep, List.mem_filter, decide_eq_true_eq, List.forall_mem_cons,
      and_assoc]
    refine and_congr_right fun _ => and_congr_right fun _ => ?_
    exact forall₂_congr fun t ht => by rw [hother t ht]

theorem destroyActivities_subset (db : Database) (i : Option Nat) :
    (db.destroyActivities i).activities.rows ⊆ db.activities.rows := List.filter_sublist.subset

theorem destroyActivitiesOf_subset (db : Database) (t : Trackable) (i : Nat) :
    (db.destroyActivitiesOf t i).activities.rows ⊆ db.activities.rows := List.filter_sublist.subset

theorem foldl_activities_subset {α : Type} {f : Database → α → Database}
    (hf : ∀ db x, (f db x).activities.rows ⊆ db.activities.rows) (l : List α) (db : Database) :
    (l.foldl f db).activities.rows ⊆ db.activities.rows := by
  induction l generalizing db with
  | nil => exact List.Subset.refl _
  | cons x l ih => exact List.Subset.trans (ih (f db x)) (hf db x)

end Database

namespace ProjectsController

open Database

/-- Destroying a project takes the question of each of its steps. -/
theorem questions_destroyProject (db : Database) (now i : Nat) (q : Question) :
    q ∈ (destroyProject db now i).questions.rows ↔ q ∈ db.questions.rows ∧ q ∉ questions db i := by
  have hids : ((db.projectSteps i).map Step.id).Nodup := (List.filter_sublist.map Step.id).nodup db.steps.nodup
  have hquestions := questions_destroySteps now (db.projectSteps i) hids db
  unfold destroyProject
  dsimp only
  generalize (db.projectSteps i).foldl (fun (db : Database) (s : Step) => db.destroyStep now s) db = db₁ at hquestions ⊢
  have himages : Touches [.images, .videos] db₁
      ((db₁.projectImages i).foldl (fun (db : Database) (m : Image) => db.destroyImage m.id) db₁) :=
    .foldl (fun db (m : Image) => touches_destroyImage db m.id) _ db₁
  rw [(himages .questions (by decide) : _ = _), hquestions]
  refine and_congr_right fun _ => ?_
  rw [questions, List.mem_filterMap, not_exists]
  exact forall_congr' fun s => by rw [not_and]

theorem forgetProject_subset (db : Database) (u p : Nat) :
    (forgetProject db u p).activities.rows ⊆ db.activities.rows := by
  have hquestions := foldl_activities_subset (fun db (q : Question) => destroyActivitiesOf_subset db .question q.id)
    (questions db p) (db.destroyActivitiesOf .project p)
  unfold forgetProject
  dsimp only
  refine List.Subset.trans (foldl_activities_subset (fun db (s : Step) => destroyActivities_subset db (some s.id)) _ _) ?_
  refine List.Subset.trans ?_ (List.Subset.trans hquestions (destroyActivitiesOf_subset db _ _))
  cases favoriteOf db u p with
  | none => exact List.Subset.refl _
  | some f => exact destroyActivitiesOf_subset _ _ _

/-- What is left after a project is destroyed. -/
theorem destroy_leaves {u : User} {now i : Nat} {db : Database} (hok : (destroy u now i db).1 = .ok) :
    (destroy u now i db).2.steps.rows.map Step.owner =
        (db.steps.rows.map Step.owner).filter (fun o => !((db.projectSteps i).map Step.id).contains o.1) ∧
      (∀ q, q ∈ (destroy u now i db).2.questions.rows ↔ q ∈ db.questions.rows ∧ q ∉ questions db i) ∧
      (destroy u now i db).2.favoriteProjects = db.favoriteProjects.filter (·.projectId ≠ i) ∧
      (destroy u now i db).2.collectifies.rows = (db.collectifies.filter (·.projectId ≠ i)).rows ∧
      (destroy u now i db).2.collections = db.collections ∧ (destroy u now i db).2.users = db.users ∧
      (destroy u now i db).2.activities = (forgetProject db u.id i).activities := by
  obtain ⟨project, -, -, heq⟩ := destroy_ok hok
  have hforget := touches_forgetProject db u.id i
  rw [heq]
  -- `destroyProject` starts when the activities and the memberships are gone
  generalize hdb₁ : adoptRemixes { forgetProject db u.id i with
    collectifies := db.collectifies.filter (·.projectId ≠ i) } project = db₁
  have hsteps : db₁.steps = db.steps := by
    rw [← hdb₁]
    exact hforget .steps (by decide)
  have hquestions : db₁.questions = db.questions := by
    rw [← hdb₁]
    exact hforget .questions (by decide)
  have hfavorites : db₁.favoriteProjects = db.favoriteProjects := by
    rw [← hdb₁]
    exact hforget .favoriteProjects (by decide)
  have hcollectifies : db₁.collectifies = db.collectifies.filter (·.projectId ≠ i) := by
    rw [← hdb₁]
    rfl
  obtain ⟨-, hfavorite, hmember, htouches⟩ := destroyProject_tables db₁ now i
  have hsame : ∀ p, db₁.projectSteps p = db.projectSteps p := fun p => by rw [projectSteps, hsteps, projectSteps]
  refine ⟨?_, fun q => ?_, ?_, ?_, ?_, ?_, ?_⟩
  · rw [owners_destroyProject, hsteps, hsame]
  · rw [questions_destroyProject, questions, hsame, hquestions, questions]
    have hstepQuestion : ∀ s, db₁.stepQuestion s = db.stepQuestion s := fun s => by
      rw [stepQuestion, hquestions, stepQuestion]
    simp only [hstepQuestion]
  · rw [hfavorite, hfavorites]
  · rw [hmember, hcollectifies, Table.rows_filter, Table.rows_filter, List.filter_filter]
    simp only [Bool.and_self]
  · rw [(htouches .collections (by decide) : _ = _), ← hdb₁]
    exact hforget .collections (by decide)
  · rw [(htouches .users (by decide) : _ = _), ← hdb₁]
    exact hforget .users (by decide)
  · rw [(htouches .activities (by decide) : _ = _), ← hdb₁]
    rfl

end ProjectsController

namespace Database

/-- Nothing is announced when a public project is settled again. -/
theorem activities_setPublished {db : Database} {project : Project} {i : Nat} (hproject : db.projects.find? i = some project)
    (hpublic : project.isPublic = true) (now u : Nat) :
    (db.setPublished now u i none).activities.rows ⊆ db.activities.rows := by
  have hset : project.unpublished = false := by
    rw [Project.isPublic, beq_iff_eq] at hpublic
    rw [Project.unpublished, hpublic]
    decide
  have hupdate : ∀ (db : Database) (f : Project → Project),
      (db.updateProject (some now) i f).activities = db.activities := fun db f =>
    touches_updateProject db _ _ _ .activities (by decide)
  have hforget : (db.forgetActivities i).activities.rows ⊆ db.activities.rows :=
    List.Subset.trans (foldl_activities_subset (fun db (s : Step) => destroyActivities_subset db (some s.id)) _ _)
      (destroyActivities_subset db _)
  rw [setPublished, hproject]
  dsimp only
  rw [hset, Bool.and_false, if_neg Bool.false_ne_true]
  split
  · rw [hupdate]
    exact List.Subset.refl _
  · split
    · rw [hupdate]
      split
      · rw [hupdate]
        exact hforget
      · exact hforget
    · exact List.Subset.refl _

end Database

namespace StepsController

open Database

/-- What is left after a step is destroyed. -/
theorem destroy_leaves {u : User} {now p : Nat} {key : StepKey} {db : Database}
    (hok : (destroy u now p key db).1 = .ok) :
    ∃ d, db.findStep key = some d ∧ SameProjects db (destroy u now p key db).2 ∧
      (destroy u now p key db).2.steps.rows.map Step.owner = (db.steps.rows.map Step.owner).filter (·.1 ≠ d.id) ∧
      (destroy u now p key db).2.questions.rows = db.questions.rows.filter (fun q => db.stepQuestion d.id ≠ some q) ∧
      Touches [.projects, .steps, .decisions, .activities, .edits, .images, .videos, .questions, .news] db
        (destroy u now p key db).2 ∧
      (destroy u now p key db).2.activities.rows ⊆ db.activities.rows := by
  obtain ⟨project, d, hproject, hd, -, -, -, heq⟩ := destroy_ok hok
  obtain ⟨-, rfl⟩ := Table.find?_eq_some.mp hproject
  refine ⟨d, hd, ?_⟩
  rw [heq]
  have hforget : Touches [.steps, .decisions, .activities, .news] db
      (forgetStep (beforeDestroy now (Keyed.key project) d db).2 d) :=
    ((touches_beforeDestroy db now _ d).mono (by decide)).trans ((touches_forgetStep _ d).mono (by decide))
  have howners : (forgetStep (beforeDestroy now (Keyed.key project) d db).2 d).steps.rows.map Step.owner =
      db.steps.rows.map Step.owner :=
    ((samePlaces_beforeDestroy now _ d db).trans (.of_eq (steps_forgetStep _ d))).owners
  -- neither the step nor its question brings an activity
  have hfewer : (forgetStep (beforeDestroy now (Keyed.key project) d db).2 d).activities.rows ⊆ db.activities.rows := by
    have hbefore : (beforeDestroy now (Keyed.key project) d db).2.activities = db.activities :=
      touches_beforeDestroy db now _ d .activities (by decide)
    rw [← hbefore, forgetStep]
    dsimp only
    cases (beforeDestroy now (Keyed.key project) d db).2.stepQuestion d.id with
    | none => exact destroyActivities_subset _ _
    | some q => exact List.Subset.trans (destroyActivities_subset _ _) (destroyActivities_subset _ _)
  generalize forgetStep (beforeDestroy now (Keyed.key project) d db).2 d = db₁ at hforget howners hfewer ⊢
  have hdestroyed := touches_destroyStep db₁ now d
  have hafter := touches_afterDestroy (db₁.destroyStep now d) u now project d
  refine ⟨?_, ?_, ?_, ?_, ?_⟩
  · refine .trans (.of_touches hforget (by decide)) (.trans (.of_touches hdestroyed (by decide)) ?_)
    exact sameColumn_afterDestroy _ (g := Keyed.key) (fun _ _ => rfl) (fun _ _ => rfl) (fun _ _ => rfl) (fun _ _ => rfl)
      u now project d
  · rw [owners_afterDestroy, owners_destroyStep, howners]
  · rw [(hafter .questions (by decide) : _ = _), questions_destroyStep, stepQuestion,
      (hforget .questions (by decide) : _ = _)]
    rfl
  · exact ((hforget.mono (by decide)).trans (hdestroyed.mono (by decide))).trans (hafter.mono (by decide))
  · have hsame : (db₁.destroyStep now d).activities = db₁.activities := hdestroyed .activities (by decide)
    refine List.Subset.trans ?_ (hsame ▸ hfewer)
    rw [afterDestroy_eq]
    have htouches := touches_closeGap (db₁.destroyStep now d) now project.id d
    generalize closeGap now project.id d (db₁.destroyStep now d) = db₂ at htouches
    have hfind : db₂.projects.find? project.id = some project := by
      rw [(htouches .projects (by decide) : _ = _), (hdestroyed .projects (by decide) : _ = _),
        (hforget .projects (by decide) : _ = _)]
      exact hproject
    have hbuilt : ∀ db : Database, (db.setBuilt now project.id).activities = db.activities := fun db =>
      touches_updateProject db _ _ _ .activities (by decide)
    rw [hbuilt, ← (htouches .activities (by decide) : _ = _)]
    split
    · rename_i hpublic
      exact activities_setPublished hfind hpublic now u.id
    · exact List.Subset.refl _

end StepsController

/-! ## Which activities are left dangling -/

namespace Deletion

open Database

variable {w : Discussed} {r : Deletion}

theorem mem_owner_keys {db db' : Database} {ids : List Nat}
    (h : db'.steps.rows.map Step.owner = (db.steps.rows.map Step.owner).filter fun o => !ids.contains o.1) (n : Nat) :
    n ∈ db'.steps.rows.map Step.id ↔ n ∈ db.steps.rows.map Step.id ∧ n ∉ ids := by
  have hkeys : db'.steps.rows.map Step.id = (db.steps.rows.map Step.id).filter fun n => !ids.contains n := by
    have hfst : ∀ l : List Step, l.map Step.id = (l.map Step.owner).map Prod.fst := fun l => by
      rw [List.map_map]
      rfl
    rw [hfst, h, hfst, List.filter_map (f := Prod.fst)]
    rfl
  rw [hkeys, List.mem_filter, Bool.not_eq_true', ← Bool.not_eq_true, List.contains_iff_mem]

/-- A record is left exactly when it is not one of those that are destroyed. -/
theorem mem_trackableIds (hok : (r.run w.db).1 = .ok) (t : Trackable) (n : Nat) :
    n ∈ (r.handle w).2.trackableIds t ↔ n ∈ w.trackableIds t ∧ n ∉ r.destroyedIds w t := by
  have hcomments : n ∈ (r.handle w).2.trackableIds .comment ↔
      n ∈ w.trackableIds .comment ∧ n ∉ r.destroyedIds w .comment := by
    have hrows : (r.handle w).2.comments = w.comments.filter fun c => !Discussed.onSteps (r.steps w.db) c := if_pos hok
    have hids : r.destroyedIds w .comment = (w.comments.rows.filter (Discussed.onSteps (r.steps w.db))).map Keyed.key := by
      cases r with
      | project u now i => rfl
      | step u now p key => rfl
    rw [hids, Discussed.trackableIds, hrows]
    exact Table.mem_keys_filter _ (fun _ => rfl) _
  cases r with
  | project u now i =>
    obtain ⟨howners, hquestions, hfavorites, hcollectifies, hcollections, husers, -⟩ :=
      ProjectsController.destroy_leaves hok
    cases t with
    | project =>
      obtain ⟨project, -, -, hrows⟩ := ProjectsController.projects_destroy hok
      have hkeys : (ProjectsController.destroy u now i w.db).2.projects.rows.map Keyed.key =
          (w.db.projects.rows.map Keyed.key).filter (· ≠ i) := by
        rw [hrows, List.filter_map, List.filter_map, List.map_map]
        have hkey : Keyed.key ∘ ProjectsController.adoptedRemix project = Keyed.key :=
          funext (ProjectsController.adoptedRemix_id project)
        have hid : ((fun x : Project => decide (x.id ≠ i)) ∘ ProjectsController.adoptedRemix project) =
            (fun n => decide (n ≠ i)) ∘ Keyed.key := funext fun x => by
          rw [Function.comp, ProjectsController.adoptedRemix_id]
          rfl
        rw [hkey, hid]
      show n ∈ (ProjectsController.destroy u now i w.db).2.projects.rows.map Keyed.key ↔ _ ∧ n ∉ [i]
      rw [hkeys, List.mem_filter, decide_eq_true_eq, List.mem_singleton]
      rfl
    | step => exact mem_owner_keys howners n
    | question =>
      refine Table.mem_keys_without (fun q hq => ?_) hquestions n
      obtain ⟨s, -, hs⟩ := List.mem_filterMap.mp hq
      exact List.mem_of_find?_eq_some hs
    | favoriteProject =>
      show n ∈ (ProjectsController.destroy u now i w.db).2.favoriteProjects.rows.map Keyed.key ↔ _
      rw [hfavorites]
      exact Table.mem_keys_filter _ (fun _ => decide_not) n
    | collectify =>
      show n ∈ (ProjectsController.destroy u now i w.db).2.collectifies.rows.map Keyed.key ↔ _
      rw [hcollectifies]
      exact Table.mem_keys_filter _ (fun _ => decide_not) n
    | comment => exact hcomments
    | collection =>
      show n ∈ (ProjectsController.destroy u now i w.db).2.collections.rows.map Keyed.key ↔ _ ∧ n ∉ []
      rw [hcollections, and_iff_left List.not_mem_nil]
      rfl
    | user =>
      show n ∈ (ProjectsController.destroy u now i w.db).2.users.rows.map Keyed.key ↔ _ ∧ n ∉ []
      rw [husers, and_iff_left List.not_mem_nil]
      rfl
  | step u now p key =>
    obtain ⟨d, hd, hprojects, howners, hquestions, htouches, -⟩ := StepsController.destroy_leaves hok
    -- the tables that are not touched
    have hsame : ∀ {l l' : List Nat}, l' = l → (n ∈ l' ↔ n ∈ l ∧ n ∉ []) := fun h => by
      rw [h, and_iff_left List.not_mem_nil]
    have htable : ∀ {α : Type} [Keyed α] {t t' : Table α}, t' = t →
        (n ∈ t'.rows.map Keyed.key ↔ n ∈ t.rows.map Keyed.key ∧ n ∉ []) := fun h => hsame (by rw [h])
    cases t with
    | project => exact hsame hprojects
    | step =>
      refine @mem_owner_keys _ _ ((w.db.findStep key).toList.map Step.id) ?_ n
      rw [hd]
      refine howners.trans (List.filter_congr fun o _ => ?_)
      show decide (o.1 ≠ d.id) = !([d.id].contains o.1)
      rw [List.contains_cons, List.contains_nil, Bool.or_false, decide_not]
      rfl
    | question =>
      refine @Table.mem_keys_without _ _ _ _ ((w.db.findStep key).bind fun d => w.db.stepQuestion d.id).toList
        (fun q hq => ?_) (fun q => ?_) n
      · rw [hd] at hq
        exact List.mem_of_find?_eq_some (Option.mem_toList.mp hq)
      · show q ∈ (StepsController.destroy u now p key w.db).2.questions.rows ↔ _
        rw [hquestions, List.mem_filter, decide_eq_true_eq, Option.mem_toList, hd]
        rfl
    | favoriteProject => exact htable (htouches .favoriteProjects (by decide))
    | collectify => exact htable (htouches .collectifies (by decide))
    | comment => exact hcomments
    | collection => exact htable (htouches .collections (by decide))
    | user => exact htable (htouches .users (by decide))

theorem of_inj {a : Activity} {t t' : Trackable} {n n' : Nat} (h : a.Of t n) (h' : a.Of t' n') : t = t' ∧ n = n' :=
  ⟨Option.some.inj (h.1.symm.trans h'.1), Option.some.inj (h.2.symm.trans h'.2)⟩

/-- The activities that a completed request deletes: those with an id it asks for, and those about the project,
the questions and the favorite it names. -/
def Forgotten (db : Database) (r : Deletion) (a : Activity) : Prop :=
  a.trackableId ∈ r.askedIds db ∨
    match r with
    | project u _ i => ProjectsController.OfProject db u.id i a
    | step _ _ _ _ => False

theorem mem_activities (hok : (r.run w.db).1 = .ok) (a : Activity) :
    a ∈ (r.handle w).2.db.activities.rows ↔ a ∈ w.db.activities.rows ∧ ¬ r.Forgotten w.db a := by
  have hfewer : (r.run w.db).2.activities.rows ⊆ w.db.activities.rows := by
    cases r with
    | project u now i =>
      obtain ⟨-, -, -, -, -, -, hactivities⟩ := ProjectsController.destroy_leaves hok
      rw [run, hactivities]
      exact ProjectsController.forgetProject_subset w.db u.id i
    | step u now p key =>
      obtain ⟨d, -, -, -, -, -, hfewer⟩ := StepsController.destroy_leaves hok
      exact hfewer
  have herases : Erases (r.Forgotten w.db) w.db (r.run w.db).2 := by
    cases r with
    | project u now i =>
      obtain ⟨project, hproject, hallowed, -⟩ := ProjectsController.destroy_ok hok
      refine (ProjectsController.erases_destroyProject u now i w.db).congr fun a => ?_
      rw [hproject, Option.any_some, hallowed]
      exact or_congr_right (and_iff_right rfl)
    | step u now p key =>
      exact (StepsController.erases_destroy u now p key w.db).congr fun a => (or_iff_left id).symm
  constructor
  · intro ha
    have hrow := hfewer ha
    exact ⟨hrow, ((herases.rows a (w.db.activities.bound a hrow).2).mp ha).2⟩
  · rintro ⟨ha, hkept⟩
    exact (herases.rows a (w.db.activities.bound a ha).2).mpr ⟨ha, hkept⟩

/-- A completed deletion of a step asks for the step and its question. -/
theorem asked_step {u : User} {now p : Nat} {key : StepKey} {db : Database}
    (hok : (StepsController.destroy u now p key db).1 = .ok) :
    ∃ d, db.findStep key = some d ∧ some d.id ∈ StepsController.destroyIds u now p key db ∧
      ∀ q ∈ db.stepQuestion d.id, some q.id ∈ StepsController.destroyIds u now p key db := by
  obtain ⟨project, d, hproject, hd, hallowed, hguard, hdone, -⟩ := StepsController.destroy_ok hok
  refine ⟨d, hd, ?_⟩
  rw [StepsController.destroyIds, hproject, hd]
  dsimp only
  rw [if_pos ⟨hallowed, hguard, hdone⟩]
  refine ⟨List.mem_append_left _ List.mem_cons_self, fun q hq => ?_⟩
  refine List.mem_append_left _ (List.mem_cons_of_mem _ (List.mem_map_of_mem ?_))
  exact Option.mem_toList.mpr hq

/-- What is about a destroyed record is forgotten or overlooked. -/
theorem forgotten_or_overlooked (hok : (r.run w.db).1 = .ok) {a : Activity} {t : Trackable} {n : Nat} (ha : a.Of t n)
    (hn : n ∈ r.destroyedIds w t) : r.Forgotten w.db a ∨ r.Overlooked w a := by
  have hcomment : n ∈ (w.comments.rows.filter (Discussed.onSteps (r.steps w.db))).map Comment.id → a.Of .comment n →
      r.Overlooked w a := by
    intro hn ha
    obtain ⟨c, hc, rfl⟩ := List.mem_map.mp hn
    obtain ⟨hrow, hon⟩ := List.mem_filter.mp hc
    exact Or.inl ⟨c, hrow, hon, ha⟩
  -- the two requests ask about different types; comments neither of them asks about
  cases r with
  | project u now i =>
    cases t with
    | project =>
      cases List.mem_singleton.mp hn
      exact Or.inl (Or.inr (Or.inl ha))
    | step =>
      obtain ⟨project, hproject, hallowed, -⟩ := ProjectsController.destroy_ok hok
      obtain ⟨s, hs, rfl⟩ := List.mem_map.mp hn
      refine Or.inl (Or.inl ?_)
      rw [ha.2, askedIds, ProjectsController.projectIds, hproject, Option.any_some, if_pos hallowed]
      exact List.mem_map_of_mem hs
    | question =>
      obtain ⟨q, hq, rfl⟩ := List.mem_map.mp hn
      exact Or.inl (Or.inr (Or.inr (Or.inl ⟨q, hq, ha⟩)))
    | favoriteProject =>
      obtain ⟨f, hf, rfl⟩ := List.mem_map.mp hn
      obtain ⟨hrow, hproject⟩ := List.mem_filter.mp hf
      by_cases hown : ProjectsController.favoriteOf w.db u.id i = some f
      · exact Or.inl (Or.inr (Or.inr (Or.inr ⟨f, hown, ha⟩)))
      · exact Or.inr (Or.inr (Or.inl ⟨f, hrow, of_decide_eq_true hproject, hown, ha⟩))
    | collectify =>
      obtain ⟨c, hc, rfl⟩ := List.mem_map.mp hn
      obtain ⟨hrow, hproject⟩ := List.mem_filter.mp hc
      exact Or.inr (Or.inr (Or.inr ⟨c, hrow, of_decide_eq_true hproject, ha⟩))
    | comment => exact Or.inr (hcomment hn ha)
    | collection => cases hn
    | user => cases hn
  | step u now p key =>
    obtain ⟨d, hd, hstep, hquestion⟩ := asked_step hok
    cases t with
    | step =>
      rw [destroyedIds, hd] at hn
      cases List.mem_singleton.mp hn
      exact Or.inl (Or.inl (ha.2 ▸ hstep))
    | question =>
      rw [destroyedIds, hd] at hn
      obtain ⟨q, hq, rfl⟩ := List.mem_map.mp hn
      exact Or.inl (Or.inl (ha.2 ▸ hquestion q (Option.mem_toList.mp hq)))
    | comment => exact Or.inr (hcomment hn ha)
    | project => cases hn
    | favoriteProject => cases hn
    | collectify => cases hn
    | collection => cases hn
    | user => cases hn

/-- What is overlooked is about a destroyed record, and goes only by an id the request asks for. -/
theorem overlooked_spec {a : Activity} (h : r.Overlooked w a) :
    (∃ t n, a.Of t n ∧ n ∈ r.destroyedIds w t) ∧ (r.Forgotten w.db a → a.trackableId ∈ r.askedIds w.db) := by
  have hcomment : ∀ c ∈ w.comments.rows, Discussed.onSteps (r.steps w.db) c = true →
      c.id ∈ r.destroyedIds w .comment := by
    intro c hc hon
    have hmem : c.id ∈ (w.comments.rows.filter (Discussed.onSteps (r.steps w.db))).map Comment.id :=
      List.mem_map_of_mem (List.mem_filter.mpr ⟨hc, hon⟩)
    cases r with
    | project u now i => exact hmem
    | step u now p key => exact hmem
  cases r with
  | project u now i =>
    -- what the project forgets by type is of three types
    have hother : ∀ {t : Trackable} {n : Nat}, a.Of t n → t ≠ .project → t ≠ .question → t ≠ .favoriteProject →
        ¬ ProjectsController.OfProject w.db u.id i a := by
      rintro t n ha hp hq hf (hof | ⟨q, -, hof⟩ | ⟨f, -, hof⟩)
      · exact hp (of_inj ha hof).1
      · exact hq (of_inj ha hof).1
      · exact hf (of_inj ha hof).1
    rcases h with ⟨c, hc, hon, ha⟩ | ⟨f, hf, hproject, hother', ha⟩ | ⟨c, hc, hproject, ha⟩
    · refine ⟨⟨_, _, ha, hcomment c hc hon⟩, fun hgone => hgone.resolve_right ?_⟩
      exact hother ha (by decide) (by decide) (by decide)
    · have hmem : f.id ∈ (w.db.favoriteProjects.rows.filter (·.projectId = i)).map FavoriteProject.id :=
        List.mem_map_of_mem (List.mem_filter.mpr ⟨hf, decide_eq_true hproject⟩)
      refine ⟨⟨_, _, ha, hmem⟩, fun hgone => hgone.resolve_right ?_⟩
      rintro (hof | ⟨q, -, hof⟩ | ⟨g, hg, hof⟩)
      · cases (of_inj ha hof).1
      · cases (of_inj ha hof).1
      · have hrow : g ∈ w.db.favoriteProjects.rows := List.mem_of_find?_eq_some hg
        cases Table.eq_of_key hf hrow (of_inj ha hof).2
        exact hother' hg
    · have hmem : c.id ∈ (w.db.collectifies.rows.filter (·.projectId = i)).map Collectify.id :=
        List.mem_map_of_mem (List.mem_filter.mpr ⟨hc, decide_eq_true hproject⟩)
      refine ⟨⟨_, _, ha, hmem⟩, fun hgone => hgone.resolve_right ?_⟩
      exact hother ha (by decide) (by decide) (by decide)
  | step u now p key =>
    rcases h with ⟨c, hc, hon, ha⟩ | hnone
    · exact ⟨⟨_, _, ha, hcomment c hc hon⟩, fun hgone => hgone.resolve_right id⟩
    · exact hnone.elim

end Deletion

/-- After a completed deletion every activity's trackable exists exactly when each overlooked activity has, by
chance, an id the request asks for. -/
theorem no_dangling_activities_iff {w : Discussed} (h : w.AllTracked) {r : Deletion} (hok : (r.handle w).1 = .ok) :
    (r.handle w).2.AllTracked ↔
      ∀ a ∈ w.db.activities.rows, r.Overlooked w a → a.trackableId ∈ r.askedIds w.db := by
  constructor
  · intro hafter a ha hover
    obtain ⟨⟨t, n, hof, hgone⟩, hasked⟩ := Deletion.overlooked_spec hover
    by_contra hno
    obtain ⟨t', n', hof', hleft⟩ := hafter a ((Deletion.mem_activities hok a).mpr ⟨ha, fun hf => hno (hasked hf)⟩)
    obtain ⟨rfl, rfl⟩ := Deletion.of_inj hof hof'
    exact ((Deletion.mem_trackableIds hok _ _).mp hleft).2 hgone
  · intro hasked a ha
    obtain ⟨hrow, hkept⟩ := (Deletion.mem_activities hok a).mp ha
    obtain ⟨t, n, hof, hexists⟩ := h a hrow
    refine ⟨t, n, hof, (Deletion.mem_trackableIds hok t n).mpr ⟨hexists, fun hgone => ?_⟩⟩
    rcases Deletion.forgotten_or_overlooked hok hof hgone with hf | hover
    · exact hkept hf
    · exact hkept (Or.inl (hasked a hrow hover))

instance (a : Activity) (t : Trackable) (n : Nat) : Decidable (a.Of t n) := inferInstanceAs (Decidable (_ ∧ _))

instance (w : Discussed) : Decidable w.AllTracked :=
  decidable_of_iff (∀ a ∈ w.db.activities.rows, ∃ t ∈ a.trackableType, ∃ n ∈ a.trackableId, n ∈ w.trackableIds t) <|
    forall₂_congr fun a _ => exists_congr fun t => by simp [Activity.Of, and_assoc]

instance (w : Discussed) (r : Deletion) (a : Activity) : Decidable (r.Overlooked w a) := by
  unfold Deletion.Overlooked
  cases r <;> infer_instance

/-- A lamp with one step and an activity about it. -/
def Discussed.lamp : Discussed := ⟨ActivityOp.withActivity "Lamp".toList .step, .empty⟩

theorem no_dangling_activities_lamp :
    (Deletion.handle .lamp (.step ada 5 1 (.ofId 1))).2.AllTracked ∧ (Deletion.handle .lamp (.project ada 5 1)).2.AllTracked :=
  ⟨(no_dangling_activities_iff (by decide +kernel) (by decide +kernel)).mpr (by decide +kernel),
    (no_dangling_activities_iff (by decide +kernel) (by decide +kernel)).mpr (by decide +kernel)⟩

/-- Bob likes the lamp and has commented on its step. -/
def Discussed.likedLamp : Discussed where
  db := { Database.oneImage "Lamp".toList none with
    users := Database.adaAndBob
    favoriteProjects := .ofRows [⟨2, 1, 2⟩] 3 (by decide)
    activities := .ofRows [⟨1, some .favoriteProject, some 2, "x".toList, some 2, none, some true⟩,
      ⟨2, some .comment, some 3, "x".toList, some 2, none, some true⟩] 3 (by decide) }
  comments := .ofRows [⟨3, "Step".toList, 1⟩] 4 (by decide)

theorem activities_left_dangling :
    Discussed.likedLamp.AllTracked ∧
      (Deletion.handle .likedLamp (.project ada 5 1)).1 = .ok ∧
      ¬ (Deletion.handle .likedLamp (.project ada 5 1)).2.AllTracked ∧
      (Deletion.handle .likedLamp (.step ada 5 1 (.ofId 1))).1 = .ok ∧
      ¬ (Deletion.handle .likedLamp (.step ada 5 1 (.ofId 1))).2.AllTracked := by
  refine ⟨by decide +kernel, by decide +kernel, by decide +kernel, by decide +kernel, by decide +kernel⟩
