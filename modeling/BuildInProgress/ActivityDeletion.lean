import BuildInProgress.StepPlaces
import BuildInProgress.MediaAuthorization
import BuildInProgress.ProjectRows

/-!
# Deleting activities

Five operations delete activities about the records they remove or hide.  An activity names its record
by a type and an id, but most of these deletions ask for the id alone, so that they reach activities
about records of other types with the same number.
-/

open Text Ancestry

/-- The activity is about the record `i` of the class `t`. -/
def Activity.Of (a : Activity) (t : Trackable) (i : Nat) : Prop :=
  a.trackableType = some t ∧ a.trackableId = some i

/-- The key of a step and of its project. -/
def Step.owner (s : Step) : Nat × Option Nat := (s.id, s.projectId)

namespace Database

/-! ## Which rows a function deletes -/

/-- Of the activities of `db` exactly those in `gone` are missing in `db'`; new ones get new ids. -/
structure Erases (gone : Activity → Prop) (db db' : Database) : Prop where
  next : db.activities.next ≤ db'.activities.next
  rows : ∀ a : Activity, a.id < db.activities.next →
    (a ∈ db'.activities.rows ↔ a ∈ db.activities.rows ∧ ¬ gone a)

namespace Erases

variable {db db' db'' : Database} {gone gone' : Activity → Prop}

theorem of_eq (h : db'.activities = db.activities) : Erases (fun _ => False) db db' :=
  ⟨by rw [h], fun a _ => by rw [h, not_false_eq_true, and_true]⟩

theorem of_touches {names : List TableName} (h : Touches names db db') (hn : TableName.activities ∉ names) :
    Erases (fun _ => False) db db' := of_eq (h .activities hn)

theorem trans (h : Erases gone db db') (h' : Erases gone' db' db'') :
    Erases (fun a => gone a ∨ gone' a) db db'' := by
  refine ⟨h.next.trans h'.next, fun a ha => ?_⟩
  rw [h'.rows a (lt_of_lt_of_le ha h.next), h.rows a ha, not_or, and_assoc]

theorem congr (h : Erases gone db db') (heq : ∀ a, gone a ↔ gone' a) : Erases gone' db db' :=
  ⟨h.next, fun a ha => by rw [h.rows a ha, heq]⟩

/-- What follows deletes nothing. -/
theorem keep (h : Erases gone db db') (h' : Erases (fun _ => False) db' db'') : Erases gone db db'' :=
  (h.trans h').congr fun a => by rw [or_false]

theorem after (h : Erases (fun _ => False) db db') (h' : Erases gone db' db'') : Erases gone db db'' :=
  (h.trans h').congr fun a => by rw [false_or]

theorem foldl {α : Type} {f : Database → α → Database} {g : α → Activity → Prop}
    (hf : ∀ db x, Erases (g x) db (f db x)) (l : List α) (db : Database) :
    Erases (fun a => ∃ x ∈ l, g x a) db (l.foldl f db) := by
  induction l generalizing db with
  | nil => exact (of_eq rfl).congr fun a => by simp
  | cons x l ih => exact ((hf db x).trans (ih (f db x))).congr fun a => by simp

end Erases

variable (db : Database)

theorem erases_destroyActivities (i : Option Nat) :
    Erases (fun a => a.trackableId = i) db (db.destroyActivities i) := by
  refine ⟨le_rfl, fun a _ => ?_⟩
  rw [destroyActivities, Table.rows_filter, List.mem_filter, decide_eq_true_eq]

theorem erases_destroyActivitiesOf (t : Trackable) (i : Nat) :
    Erases (fun a => a.Of t i) db (db.destroyActivitiesOf t i) := by
  refine ⟨le_rfl, fun a _ => ?_⟩
  rw [destroyActivitiesOf, Table.rows_filter, List.mem_filter, Activity.Of, Bool.not_eq_true',
    ← Bool.not_eq_true, Bool.and_eq_true, beq_iff_eq, beq_iff_eq]

theorem erases_createActivity (t : Trackable) (i : Nat) (key : Text) (owner recipient : Option Nat) :
    Erases (fun _ => False) db (db.createActivity t i key owner recipient) := by
  refine ⟨Nat.le_succ _, fun a ha => ?_⟩
  rw [createActivity, Table.rows_insert, List.mem_append, List.mem_singleton, not_false_eq_true, and_true]
  refine ⟨fun h => h.resolve_right fun heq => ?_, Or.inl⟩
  rw [heq] at ha
  exact Nat.lt_irrefl _ ha

theorem erases_createActivities (t : Trackable) (i : Nat) (key : Text) (owner : Option Nat) (rs : List User) :
    Erases (fun _ => False) db (rs.foldl (fun (db : Database) (r : User) =>
      db.createActivity t i key owner (some r.id)) db) :=
  (Erases.foldl (fun db (r : User) => erases_createActivity db t i key owner (some r.id)) rs db).congr
    fun a => by simp

/-! ## `set_published` -/

/-- The ids by which `set_published` deletes: those of a project that has become unpublished and of its
steps. -/
def unpublishIds (i : Nat) : List (Option Nat) :=
  match db.projects.find? i with
  | none => []
  | some p => if db.published p then [] else some i :: (db.projectSteps i).map fun s => some s.id

theorem erases_forgetActivities (i : Nat) :
    Erases (fun a => a.trackableId ∈ some i :: (db.projectSteps i).map fun s => some s.id) db
      (db.forgetActivities i) := by
  have hsteps := Erases.foldl (fun (db : Database) (s : Step) => erases_destroyActivities db (some s.id))
    (db.projectSteps i) (db.destroyActivities (some i))
  refine ((erases_destroyActivities db (some i)).trans hsteps).congr fun a => ?_
  simp [eq_comm]

theorem erases_setPublished (now u i : Nat) (step : Option Nat) :
    Erases (fun a => a.trackableId ∈ db.unpublishIds i) db (db.setPublished now u i step) := by
  have hproject : ∀ (db : Database) (f : Project → Project),
      Erases (fun _ => False) db (db.updateProject (some now) i f) := fun db f =>
    .of_touches (touches_updateProject db _ _ _) (by decide)
  unfold setPublished unpublishIds
  cases db.projects.find? i with
  | none => exact (Erases.of_eq rfl).congr fun _ => by simp
  | some p =>
    dsimp only
    -- only a project that is not published any more loses activities
    cases hpub : db.published p with
    | true =>
      have hnone : ∀ {db' : Database}, Erases (fun _ => False) db db' →
          Erases (fun a => a.trackableId ∈ (if true then [] else some i :: (db.projectSteps i).map
            fun s => some s.id)) db db' := fun h => h.congr fun _ => by simp
      apply hnone
      split
      · refine Erases.keep ?_ (hproject _ _)
        unfold announceProject
        split
        · exact erases_createActivities db _ _ _ _ _
        · exact erases_createActivity db _ _ _ _ _
      · split
        · refine Erases.keep ?_ (hproject _ _)
          cases step.bind db.steps.find? with
          | none => exact .of_eq rfl
          | some s =>
            rw [Option.elim_some]
            unfold announceStep
            split
            · exact erases_createActivities db _ _ _ _ _
            · exact erases_createActivity db _ _ _ _ _
        · exact .of_eq rfl
    | false =>
      simp only [Bool.false_and, Bool.false_eq_true, if_false, Bool.not_false, if_true]
      refine (erases_forgetActivities db i).keep (Erases.keep ?_ (hproject _ _))
      split
      · exact hproject _ _
      · exact .of_eq rfl

/-! ## Destroying a step -/

theorem ids_projectSteps (db : Database) (p : Nat) :
    (db.projectSteps p).map Step.id =
      ((db.steps.rows.map Step.owner).filter fun x => x.2 = some p).map Prod.fst := by
  rw [List.filter_map, List.map_map, projectSteps]
  rfl

theorem map_some_id (l : List Step) : (l.map fun s => some s.id) = (l.map Step.id).map some := by
  rw [List.map_map]
  rfl

theorem SamePlaces.owners {db db' : Database} (h : SamePlaces db db') :
    db'.steps.rows.map Step.owner = db.steps.rows.map Step.owner := by
  have hmap : ∀ l : List Step, l.map Step.owner = (l.map Step.place).map fun x => (x.1, x.2.1) := by
    intro l
    rw [List.map_map]
    rfl
  rw [hmap, hmap, h]

theorem unpublishIds_congr {db db' : Database} (hprojects : db'.projects = db.projects)
    (himages : db'.images = db.images)
    (howners : db'.steps.rows.map Step.owner = db.steps.rows.map Step.owner) (i : Nat) :
    db'.unpublishIds i = db.unpublishIds i := by
  have hids : ((db'.projectSteps i).map fun s => some s.id) = (db.projectSteps i).map fun s => some s.id := by
    rw [map_some_id, map_some_id, ids_projectSteps, howners, ids_projectSteps]
  rw [unpublishIds, hprojects, unpublishIds, hids]
  cases db.projects.find? i with
  | none => rfl
  | some p =>
    dsimp only
    rw [ProjectsController.published_congr himages]

/-- The images left after the dependents of a step are gone depend on the images alone. -/
theorem images_destroyDependents {db db' : Database} (h : db'.images = db.images) (s : Nat) :
    (db'.destroyDependents s).images = (db.destroyDependents s).images := by
  have hafter : ∀ db : Database, (db.destroyDependents s).images =
      (((db.stepImages s).map (·.id)).foldl destroyImage
        { db with edits := db.edits.filter (·.stepId ≠ some s) }).images := by
    intro db
    rw [List.foldl_map]
    unfold destroyDependents
    dsimp only
    split <;> rfl
  have himages : db'.stepImages s = db.stepImages s := by rw [stepImages, h, stepImages]
  rw [hafter, hafter, himages]
  apply images_destroyImages_congr
  exact h

end Database

namespace StepsController

open Database

theorem owners_afterDestroy (u : User) (now : Nat) (project : Project) (d : Step) (db : Database) :
    (afterDestroy u now project d db).steps.rows.map Step.owner = db.steps.rows.map Step.owner :=
  map_afterDestroy (fun _ _ _ => rfl) u now project d db

theorem owners_destroyStep (db : Database) (now : Nat) (d : Step) :
    (db.destroyStep now d).steps.rows.map Step.owner = (db.steps.rows.map Step.owner).filter (·.1 ≠ d.id) := by
  have hadopted : ∀ s, (adopted now d s).owner = s.owner := by
    intro s
    unfold adopted
    split <;> rfl
  have hmap : (db.steps.rows.map (adopted now d)).map Step.owner = db.steps.rows.map Step.owner := by
    rw [List.map_map]
    exact List.map_congr_left fun s _ => hadopted s
  rw [rows_destroyStep, ← hmap, List.filter_map (p := fun o : Nat × Option Nat => o.1 ≠ d.id)]
  rfl

theorem owners_destroySteps (now : Nat) (ss : List Step) (db : Database) :
    (ss.foldl (fun (db : Database) (s : Step) => db.destroyStep now s) db).steps.rows.map Step.owner =
      (db.steps.rows.map Step.owner).filter fun o => !(ss.map Step.id).contains o.1 := by
  induction ss generalizing db with
  | nil => simp
  | cons s ss ih =>
    rw [List.foldl_cons, ih, owners_destroyStep, List.filter_filter]
    apply List.filter_congr
    intro o _
    rw [List.map_cons, List.contains_cons, Bool.not_or, Bool.and_comm]
    congr 1
    rw [Bool.eq_iff_iff]
    simp

theorem erases_forgetStep (db : Database) (d : Step) :
    Erases (fun a => a.trackableId ∈ some d.id :: (db.stepQuestion d.id).toList.map fun q => some q.id) db
      (forgetStep db d) := by
  have hnews : ∀ (db : Database) (x : Table News), Erases (fun _ => False) db { db with news := x } :=
    fun _ _ => .of_eq rfl
  have hstep := erases_destroyActivities db (some d.id)
  unfold forgetStep
  cases db.stepQuestion d.id with
  | none => exact (hstep.keep (hnews _ _)).congr fun a => by simp
  | some q =>
    refine ((hstep.trans (erases_destroyActivities _ (some q.id))).keep (hnews _ _)).congr fun a => ?_
    simp

/-- The ids by which `destroy` deletes: the step, its question, and the project with its other steps when
it was public and is not published without the images of the step. -/
def destroyIds (u : User) (now p : Nat) (key : StepKey) (db : Database) : List (Option Nat) :=
  match db.projects.find? p, db.findStep key with
  | some project, some d =>
    if Ability.destroyStep db u d = some true ∧ rootGuard db p d = false ∧
        (beforeDestroy now p d db).1 = true then
      some d.id :: (db.stepQuestion d.id).toList.map (fun q => some q.id) ++
        if project.isPublic && !(db.destroyDependents d.id).published project then
          some p :: ((db.projectSteps p).filter (·.id ≠ d.id)).map fun s => some s.id
        else []
    else []
  | _, _ => []

/-- After the step is gone, a public project may have become unpublished. -/
theorem erases_afterDestroy (u : User) (now : Nat) (project : Project) (d : Step) (db : Database) :
    Erases (fun a => project.isPublic = true ∧ a.trackableId ∈ db.unpublishIds project.id) db
      (afterDestroy u now project d db) := by
  rw [afterDestroy_eq]
  have htouches := touches_closeGap db now project.id d
  have howners := map_closeGap (g := Step.owner) (fun _ _ _ => rfl) now project.id d db
  generalize closeGap now project.id d db = db₁ at htouches howners
  have hids := unpublishIds_congr (htouches .projects (by decide)) (htouches .images (by decide)) howners
    project.id
  have hbuilt : Erases (fun _ => False) (if project.isPublic then db₁.setPublished now u.id project.id none
      else db₁) ((if project.isPublic then db₁.setPublished now u.id project.id none else db₁).setBuilt now
        project.id) := .of_touches (touches_updateProject _ _ _ _) (by decide)
  refine Erases.after (.of_touches htouches (by decide)) (Erases.keep ?_ hbuilt)
  split
  · rename_i hpublic
    refine (erases_setPublished db₁ now u.id project.id none).congr fun a => ?_
    rw [hids]
    exact (and_iff_right hpublic).symm
  · rename_i hpublic
    exact (Erases.of_eq rfl).congr fun a => iff_of_false not_false fun h => hpublic h.1

/-- The ids of the steps that are left. -/
theorem ids_destroyStep (db : Database) (now p : Nat) (d : Step) :
    (((forgetStep (beforeDestroy now p d db).2 d).destroyStep now d).projectSteps p).map Step.id =
      ((db.projectSteps p).filter (·.id ≠ d.id)).map Step.id := by
  have howners := (samePlaces_adoptChildren now p d db).owners
  have hleft : ∀ l : List Step, ((l.filter (·.id ≠ d.id)).filter (·.projectId = some p)).map Step.id =
      (((l.map Step.owner).filter (·.1 ≠ d.id)).filter (·.2 = some p)).map Prod.fst := by
    intro l
    rw [List.filter_map, List.filter_map, List.map_map]
    rfl
  rw [projectSteps, destroyStep]
  dsimp only
  rw [Table.rows_filter, steps_destroyDependents, hleft, howners, ← hleft, List.filter_filter, projectSteps,
    List.filter_filter]
  exact congrArg (List.map Step.id) (List.filter_congr fun s _ => Bool.and_comm _ _)

theorem erases_destroyed (u : User) (now : Nat) {p : Nat} {project : Project} {db : Database}
    (hproject : db.projects.find? p = some project) (d : Step) :
    Erases (fun a => a.trackableId ∈ some d.id :: (db.stepQuestion d.id).toList.map (fun q => some q.id) ++
      if project.isPublic && !(db.destroyDependents d.id).published project then
        some p :: ((db.projectSteps p).filter (·.id ≠ d.id)).map fun s => some s.id
      else []) db
      (afterDestroy u now project d ((forgetStep (beforeDestroy now p d db).2 d).destroyStep now d)) := by
  have hp : project.id = p := (Table.find?_eq_some.mp hproject).2
  have hbefore := touches_beforeDestroy db now p d
  have hforget := erases_forgetStep (beforeDestroy now p d db).2 d
  have hquestion : (beforeDestroy now p d db).2.stepQuestion d.id = db.stepQuestion d.id := by
    rw [stepQuestion, (hbefore .questions (by decide) : _ = _), stepQuestion]
  rw [hquestion] at hforget
  generalize hdb₁ : forgetStep (beforeDestroy now p d db).2 d = db₁ at hforget
  have hgone : Erases (fun _ => False) db₁ (db₁.destroyStep now d) :=
    .of_touches (touches_destroyStep db₁ now d) (by decide)
  -- `set_published` asks about the project when the step is gone already
  have hids : (db₁.destroyStep now d).unpublishIds p =
      if (db.destroyDependents d.id).published project then []
      else some p :: ((db.projectSteps p).filter (·.id ≠ d.id)).map fun s => some s.id := by
    have hkept : Touches [.steps, .decisions, .activities, .news] db (db₁.adoptChildren now d) := by
      rw [← hdb₁]
      exact ((hbefore.mono (by decide)).trans ((touches_forgetStep _ d).mono (by decide))).trans
        ((touches_adoptChildren _ now d).mono (by decide))
    have himages : (db₁.destroyStep now d).images = (db.destroyDependents d.id).images :=
      images_destroyDependents (hkept .images (by decide)) d.id
    have hprojects : (db₁.destroyStep now d).projects = db.projects :=
      (touches_destroyStep db₁ now d .projects (by decide) : _ = _).trans
        ((touches_adoptChildren db₁ now d .projects (by decide) : _ = _).symm.trans
          (hkept .projects (by decide)))
    rw [unpublishIds, hprojects, hproject]
    dsimp only
    rw [ProjectsController.published_congr himages, map_some_id, ← hdb₁, ids_destroyStep, ← map_some_id]
  have hall := ((Erases.of_touches hbefore (by decide)).after hforget).trans
    (hgone.after (erases_afterDestroy u now project d (db₁.destroyStep now d)))
  refine hall.congr fun a => ?_
  rw [hp, hids, List.mem_append]
  refine or_congr_right ?_
  cases project.isPublic with
  | false => simp
  | true => cases (db.destroyDependents d.id).published project <;> simp

theorem erases_destroy (u : User) (now p : Nat) (key : StepKey) (db : Database) :
    Erases (fun a => a.trackableId ∈ destroyIds u now p key db) db (destroy u now p key db).2 := by
  have hnothing : ∀ {db' : Database}, Erases (fun _ => False) db db' →
      Erases (fun a => a.trackableId ∈ ([] : List (Option Nat))) db db' := fun h =>
    h.congr fun _ => by simp
  unfold destroy destroyIds
  cases hproject : db.projects.find? p with
  | none => exact hnothing (.of_eq rfl)
  | some project =>
    cases hstep : db.findStep key with
    | none => exact hnothing (.of_eq rfl)
    | some d =>
      dsimp only
      rw [← beforeDestroy]
      rcases authorize_cases (Ability.destroyStep db u d) db (if rootGuard db p d = true then (.refused, db)
        else if (beforeDestroy now p d db).1 = true then
          (.ok, afterDestroy u now project d ((forgetStep (beforeDestroy now p d db).2 d).destroyStep now d))
        else (.error, (beforeDestroy now p d db).2)) with ⟨hallowed, heq⟩ | ⟨hdenied, heq⟩
      · rw [heq]
        by_cases hguard : rootGuard db p d = true
        · rw [if_pos hguard, if_neg fun h => by rw [hguard] at h; cases h.2.1]
          exact hnothing (.of_eq rfl)
        · by_cases hdone : (beforeDestroy now p d db).1 = true
          · rw [if_neg hguard, if_pos hdone, if_pos ⟨hallowed, by simpa using hguard, hdone⟩]
            exact erases_destroyed u now hproject d
          · rw [if_neg hguard, if_neg hdone, if_neg fun h => hdone h.2.2]
            exact hnothing (.of_touches (touches_beforeDestroy db now p d) (by decide))
      · rw [heq, if_neg fun h => hdenied h.1]
        exact hnothing (.of_eq rfl)

end StepsController

/-! ## Leaving collections -/

namespace Database

/-- The unique index of `collectifies`. -/
def UniqueMemberships (db : Database) : Prop :=
  (db.collectifies.rows.map fun c => (c.collectionId, c.projectId)).Nodup

/-- The collections without one project. -/
def withoutProject (db : Database) (p : Nat) : Database :=
  { db with collectifies := db.collectifies.filter (·.projectId ≠ p) }

variable {db db' : Database} {u : User} {p : Nat}

theorem collectionPublished_congr {k k' : Collection} (hprojects : db'.projects = db.projects)
    (hrows : db'.collectifies.rows.filter (·.collectionId = k'.id) =
      db.collectifies.rows.filter (·.collectionId = k.id)) (hname : k'.name = k.name) :
    db'.collectionPublished k' = db.collectionPublished k := by
  rw [collectionPublished, collectionProjects, hrows, hprojects, hname, collectionPublished, collectionProjects]

/-- Without its one membership of a project a collection is published as if the project had none. -/
theorem collectionPublished_removed (hunique : UniqueMemberships db) {c : Collectify}
    (hc : c ∈ db.collectifies.rows) {k k' : Collection} (hk : k.id = c.collectionId) (hid : k'.id = k.id)
    (hname : k'.name = k.name) (hprojects : db'.projects = db.projects)
    (hrows : db'.collectifies.rows = db.collectifies.rows.filter (·.id ≠ c.id)) :
    db'.collectionPublished k' = (db.withoutProject c.projectId).collectionPublished k := by
  have hkept : (db.withoutProject c.projectId).projects = db.projects := rfl
  refine collectionPublished_congr (hprojects.trans hkept.symm) ?_ hname
  rw [hrows, withoutProject, Table.rows_filter, List.filter_filter, List.filter_filter, hid]
  refine List.filter_congr fun r hr => ?_
  by_cases hcoll : r.collectionId = k.id
  · have hiff : r.id ≠ c.id ↔ r.projectId ≠ c.projectId := by
      refine not_congr ⟨fun h => ?_, fun h => ?_⟩
      · rw [Table.eq_of_key hr hc h]
      · have hpair := List.inj_on_of_nodup_map hunique hr hc (Prod.ext (hcoll.trans hk) h)
        rw [hpair]
    rw [decide_eq_true hcoll, Bool.true_and, Bool.true_and, decide_eq_decide.mpr hiff]
  · rw [decide_eq_false hcoll, Bool.false_and, Bool.false_and]

/-- The membership a removal finds. -/
theorem find?_membership (hunique : UniqueMemberships db) {c : Collectify} (hc : c ∈ db.collectifies.rows) :
    (db.collectifies.rows.find? fun r => r.collectionId = c.collectionId ∧ r.projectId = c.projectId) =
      some c := by
  cases hfind : db.collectifies.rows.find? fun r =>
      r.collectionId = c.collectionId ∧ r.projectId = c.projectId with
  | none =>
    have hnot := List.find?_eq_none.mp hfind c hc
    simp at hnot
  | some r =>
    have hr := List.mem_of_find?_eq_some hfind
    have hpair : r.collectionId = c.collectionId ∧ r.projectId = c.projectId := by
      simpa using List.find?_some hfind
    rw [List.inj_on_of_nodup_map hunique hr hc (Prod.ext hpair.1 hpair.2)]

/-- An update that keeps the name and the owner keeps those of every collection. -/
theorem find?_updateCollection (db : Database) (stamp : Option Nat) (i : Nat) {f : Collection → Collection}
    (hf : ∀ r, (f r).name = r.name ∧ (f r).userId = r.userId) (j : Nat) :
    ((db.updateCollection stamp i f).collections.find? j).map (fun k => (k.id, k.name, k.userId)) =
      (db.collections.find? j).map fun k => (k.id, k.name, k.userId) := by
  unfold updateCollection
  cases hi : db.collections.find? i with
  | none => rfl
  | some r =>
    dsimp only
    split
    · rfl
    · rw [Table.find?_modify, Option.map_map]
      cases hj : db.collections.find? j with
      | none => rfl
      | some k =>
        rw [Option.map_some, Option.map_some, Function.comp, Option.some.injEq]
        by_cases hk : Keyed.key k = i
        · have hkr : k = r := by
            have hkj := (Table.find?_eq_some.mp hj).2
            rw [← hkj, hk, hi, Option.some.injEq] at hj
            exact hj.symm
          rw [if_pos hk, hkr, (hf r).1, (hf r).2]
        · rw [if_neg hk]

theorem destroyCollectify_congr (hprojects : db'.projects = db.projects)
    (hauthors : db'.projectsUsers = db.projectsUsers)
    (hcollections : ∀ j, (db'.collections.find? j).map (fun k => (k.id, k.name, k.userId)) =
      (db.collections.find? j).map fun k => (k.id, k.name, k.userId)) (u : User) (c : Collectify) :
    Ability.destroyCollectify db' u c = Ability.destroyCollectify db u c := by
  have hauthor : Ability.authorOf db' u (some c.projectId) = Ability.authorOf db u (some c.projectId) := by
    rw [Ability.authorOf, hprojects, Ability.authorOf]
    unfold author
    rw [hauthors]
  have hc := hcollections c.collectionId
  rw [Ability.destroyCollectify, Ability.destroyCollectify, hauthor]
  cases hk : db.collections.find? c.collectionId with
  | none =>
    rw [hk, Option.map_none, Option.map_eq_none_iff] at hc
    rw [hc]
  | some k =>
    rw [hk, Option.map_some] at hc
    obtain ⟨k', hk', heq⟩ := Option.map_eq_some_iff.mp hc
    rw [Prod.mk.injEq, Prod.mk.injEq] at heq
    rw [hk']
    dsimp only
    rw [heq.2.2]

/-- What a removal from a collection writes: the membership goes, and the collection may be stamped and
change whether it is published. -/
structure Removed (c : Collectify) (db db' : Database) : Prop where
  touches : Touches [.collections, .collectifies] db db'
  collections : ∀ j, (db'.collections.find? j).map (fun k => (k.id, k.name, k.userId)) =
    (db.collections.find? j).map fun k => (k.id, k.name, k.userId)
  rows : db'.collectifies.rows = db.collectifies.rows.filter (·.id ≠ c.id)

theorem collectifies_updateCollection (db : Database) (stamp : Option Nat) (i : Nat)
    (f : Collection → Collection) : (db.updateCollection stamp i f).collectifies = db.collectifies := by
  unfold updateCollection
  split
  · rfl
  · dsimp only
    split <;> rfl

/-- A removal that finds a membership takes this one. -/
theorem removeFromCollection_found {c : Collectify} {k : Collection}
    (hfind : (db.collectifies.rows.find? fun r => r.collectionId = k.id ∧ r.projectId = c.projectId) = some c)
    (now : Nat) : ∃ db', db.removeFromCollection now k c.projectId = some db' ∧ Removed c db db' := by
  unfold removeFromCollection
  rw [hfind]
  refine ⟨_, rfl, (touches_collections db _ _).trans (touches_updateCollection _ _ _ _), fun j => ?_, ?_⟩
  · rw [find?_updateCollection _ _ _ (by intro _; exact ⟨rfl, rfl⟩)]
  · rw [collectifies_updateCollection]
    rfl

theorem removeFromCollection_eq (hunique : UniqueMemberships db) {c : Collectify}
    (hc : c ∈ db.collectifies.rows) {k : Collection} (hk : k.id = c.collectionId) (now : Nat) :
    ∃ db', db.removeFromCollection now k c.projectId = some db' ∧ Removed c db db' := by
  have hfind := find?_membership hunique hc
  rw [← hk] at hfind
  exact removeFromCollection_found hfind now

/-- Marking a collection as not published changes nothing else. -/
theorem Removed.updateCollection {c : Collectify} (h : Removed c db db') (stamp : Option Nat) (i : Nat) :
    Removed c db (db'.updateCollection stamp i fun k => { k with published := some false }) := by
  refine ⟨h.touches.trans (touches_updateCollection _ _ _ _), fun j => ?_, ?_⟩
  · rw [find?_updateCollection _ _ _ (by intro _; exact ⟨rfl, rfl⟩), h.collections]
  · rw [collectifies_updateCollection, h.rows]

/-- The other memberships of the project are left, in their order. -/
theorem Removed.left {c : Collectify} {p : Nat} {cs : List Collectify} (h : Removed c db db')
    (hleft : db.collectifies.rows.filter (·.projectId = p) = c :: cs) :
    db'.collectifies.rows.filter (·.projectId = p) = cs := by
  rw [h.rows, List.filter_filter]
  have hswap : db.collectifies.rows.filter (fun r => decide (r.projectId = p) && decide (r.id ≠ c.id)) =
      (db.collectifies.rows.filter (·.projectId = p)).filter (·.id ≠ c.id) := by
    rw [List.filter_filter]
    exact List.filter_congr fun r _ => Bool.and_comm _ _
  rw [hswap, hleft, List.filter_cons_of_neg (by simp)]
  -- no other membership has the key
  refine List.filter_eq_self.mpr fun r hr => ?_
  have hnodup : ((c :: cs).map Collectify.id).Nodup := by
    rw [← hleft]
    exact db.collectifies.nodup.sublist (List.filter_sublist.map _)
  rw [List.map_cons, List.nodup_cons] at hnodup
  rw [decide_eq_true_eq]
  exact fun e => hnodup.1 (e ▸ List.mem_map_of_mem hr)

/-- The memberships the loop of `update_privacy` reaches: it stops at the first one the user may not
remove, or whose collection is missing. -/
def reached (db : Database) (u : User) : List Collectify → List Collectify
  | [] => []
  | c :: cs =>
    if Ability.destroyCollectify db u c = some true then
      c :: if (db.collections.find? c.collectionId).isSome then reached db u cs else []
    else []

/-- The collection of a membership that is not published without the project. -/
def hiddenWithout (db : Database) (c : Collectify) : Option Collection :=
  (db.collections.find? c.collectionId).filter fun k => !(db.withoutProject c.projectId).collectionPublished k

/-- The ids by which the loop deletes.  For a collection that is not published any more it asks for
activities without a trackable. -/
def leaveIds (db : Database) (u : User) (cs : List Collectify) : List (Option Nat) :=
  (db.reached u cs).flatMap fun c => some c.id :: (db.hiddenWithout c).toList.map fun _ => none

/-- How the database of the loop compares with the one at its start. -/
structure Leaving (db₀ : Database) (u : User) (p : Nat) (cs : List Collectify) (db : Database) : Prop where
  allowed : ∀ c, Ability.destroyCollectify db u c = Ability.destroyCollectify db₀ u c
  collections : ∀ j, (db.collections.find? j).map (fun k => (k.id, k.name, k.userId)) =
    (db₀.collections.find? j).map fun k => (k.id, k.name, k.userId)
  published : ∀ k, (db.withoutProject p).collectionPublished k = (db₀.withoutProject p).collectionPublished k
  left : db.collectifies.rows.filter (·.projectId = p) = cs
  unique : UniqueMemberships db

namespace Leaving

variable {db₀ db db' : Database} {u : User} {p : Nat} {c : Collectify} {cs : List Collectify}

theorem mem (h : Leaving db₀ u p (c :: cs) db) : c ∈ db.collectifies.rows ∧ c.projectId = p := by
  have hc : c ∈ db.collectifies.rows.filter (·.projectId = p) := h.left ▸ List.mem_cons_self
  rw [List.mem_filter, decide_eq_true_eq] at hc
  exact hc

theorem next (h : Leaving db₀ u p (c :: cs) db) (hr : Removed c db db') : Leaving db₀ u p cs db' := by
  obtain ⟨hc, hp⟩ := h.mem
  obtain ⟨htouches, hcollections, hrows⟩ := hr
  have hprojects : db'.projects = db.projects := htouches .projects (by decide)
  have hauthors : db'.projectsUsers = db.projectsUsers := htouches .projectsUsers (by decide)
  refine ⟨fun x => ?_, fun j => (hcollections j).trans (h.collections j), fun k => ?_, ?_, ?_⟩
  · rw [destroyCollectify_congr hprojects hauthors hcollections, h.allowed]
  · rw [← h.published]
    refine collectionPublished_congr hprojects ?_ rfl
    rw [withoutProject, withoutProject, Table.rows_filter, Table.rows_filter, hrows, List.filter_filter,
      List.filter_filter, List.filter_filter]
    refine List.filter_congr fun r hr => ?_
    by_cases hrp : r.projectId = p
    · simp [hrp]
    · have hne : r.id ≠ c.id := fun e => hrp ((congrArg Collectify.projectId (Table.eq_of_key hr hc e)).trans hp)
      simp [hrp, hne]
  · exact Removed.left ⟨htouches, hcollections, hrows⟩ h.left
  · rw [UniqueMemberships, hrows]
    exact h.unique.sublist (List.filter_sublist.map _)

/-- Deleting activities does not matter to the loop. -/
theorem activities (h : Leaving db₀ u p cs db) (as : Table Activity) :
    Leaving db₀ u p cs { db with activities := as } :=
  ⟨h.allowed, h.collections, h.published, h.left, h.unique⟩

end Leaving

end Database

namespace ProjectsController

open Database

theorem erases_leaveCollections {db₀ db : Database} {u : User} {p : Nat} (now : Nat) {cs : List Collectify}
    (h : Leaving db₀ u p cs db) :
    Erases (fun a => a.trackableId ∈ db₀.leaveIds u cs) db (leaveCollections u now cs db).2 := by
  induction cs generalizing db with
  | nil => exact (Erases.of_eq rfl).congr fun a => by simp [leaveIds, reached]
  | cons c cs ih =>
    obtain ⟨hc, hp⟩ := h.mem
    unfold leaveCollections leaveIds reached
    rcases authorize_cases (Ability.destroyCollectify db u c) db _ with ⟨hallowed, heq⟩ | ⟨hdenied, heq⟩
    · rw [heq]
      rw [h.allowed] at hallowed
      rw [if_pos hallowed]
      dsimp only
      have hid := erases_destroyActivities db (some c.id)
      have hleaving := h.activities (db.activities.filter (·.trackableId ≠ some c.id))
      rw [← destroyActivities] at hleaving
      generalize db.destroyActivities (some c.id) = db₁ at hid hleaving
      have hcollection := hleaving.collections c.collectionId
      cases hk : db₁.collections.find? c.collectionId with
      | none =>
        rw [hk, Option.map_none, eq_comm, Option.map_eq_none_iff] at hcollection
        refine hid.congr fun a => ?_
        simp [hcollection, hiddenWithout]
      | some k =>
        have hkid : k.id = c.collectionId := (Table.find?_eq_some.mp hk).2
        rw [hk, Option.map_some, eq_comm] at hcollection
        obtain ⟨k₀, hk₀, hsame⟩ := Option.map_eq_some_iff.mp hcollection
        rw [Prod.mk.injEq, Prod.mk.injEq] at hsame
        obtain ⟨db₂, hremove, hremoved⟩ := removeFromCollection_eq hleaving.unique hleaving.mem.1 hkid now
        -- the collection is looked at without the project
        have hpublished : db₂.collectionPublished k = (db₀.withoutProject p).collectionPublished k₀ := by
          rw [collectionPublished_removed hleaving.unique hleaving.mem.1 (hsame.1.trans hkid) hsame.1.symm
            hsame.2.1.symm (hremoved.touches .projects (by decide)) hremoved.rows, hp, hleaving.published]
        have hhidden : db₀.hiddenWithout c =
            if db₂.collectionPublished k then none else some k₀ := by
          rw [hiddenWithout, hk₀, hp, hpublished, Option.filter_some]
          cases (db₀.withoutProject p).collectionPublished k₀ <;> rfl
        dsimp only
        rw [hremove]
        dsimp only
        rw [hk₀, Option.isSome_some, if_pos rfl, List.flatMap_cons, hhidden, ← leaveIds]
        have hrest := hid.keep (.of_touches hremoved.touches (by decide))
        cases hpub : db₂.collectionPublished k with
        | true =>
          refine (hrest.trans (ih (hleaving.next hremoved))).congr fun a => ?_
          simp
        | false =>
          have hnext := hleaving.next (hremoved.updateCollection (some now) k.id)
          have hmarked := hrest.keep (.of_touches (touches_updateCollection db₂ (some now) k.id
            fun k => { k with published := some false }) (by decide))
          refine ((hmarked.trans (erases_destroyActivities _ none)).trans (ih (hnext.activities _))).congr
            fun a => ?_
          simp [or_assoc]
    · rw [heq]
      rw [h.allowed] at hdenied
      rw [if_neg hdenied]
      exact (Erases.of_eq rfl).congr fun a => by simp

/-- A project keeps its authors when it is updated. -/
theorem destroyCollectify_updateProject (db : Database) (stamp : Option Nat) (i : Nat) {f : Project → Project}
    (hf : ∀ r, (f r).id = r.id) (u : User) (c : Collectify) :
    Ability.destroyCollectify (db.updateProject stamp i f) u c = Ability.destroyCollectify db u c := by
  have htouches := touches_updateProject db stamp i f
  have hfind : ((db.updateProject stamp i f).projects.find? c.projectId).map Project.id =
      (db.projects.find? c.projectId).map Project.id := by
    rw [find?_updateProject db stamp i hf, Option.map_map]
    congr 1
    funext r
    rw [Function.comp]
    split
    · exact Project.updated_id stamp hf r
    · rfl
  have hcollections : (db.updateProject stamp i f).collections = db.collections := htouches .collections (by decide)
  have hauthors : (db.updateProject stamp i f).projectsUsers = db.projectsUsers :=
    htouches .projectsUsers (by decide)
  generalize db.updateProject stamp i f = db' at *
  have hauthor : Ability.authorOf db' u (some c.projectId) = Ability.authorOf db u (some c.projectId) := by
    have hmap : ∀ x : Option Project, x.map (fun q => db.author q.id u.id) =
        (x.map Project.id).map fun q => db.author q u.id := by
      intro x
      rw [Option.map_map]
      rfl
    have hsame : ∀ q, db'.author q u.id = db.author q u.id := fun q => by rw [author, hauthors, author]
    rw [Ability.authorOf, Ability.authorOf, Option.bind_some, Option.bind_some]
    simp only [hsame]
    rw [hmap, hfind, ← hmap]
  rw [Ability.destroyCollectify, hcollections, hauthor, Ability.destroyCollectify]

/-- The loop starts with the new privacy written. -/
theorem leaving_updateProject {db : Database} (hunique : UniqueMemberships db) (u : User) (i : Nat)
    (privacy : Option Text) :
    Leaving db u i (db.collectifies.rows.filter (·.projectId = i))
      (db.updateProject none i fun p => { p with privacy }) := by
  have htouches := touches_updateProject db none i fun p => { p with privacy }
  have hfind : ∀ j ≠ i, (db.updateProject none i fun p => { p with privacy }).projects.find? j =
      db.projects.find? j := by
    intro j hj
    rw [find?_updateProject db none i (by intro _; rfl)]
    cases hfound : db.projects.find? j with
    | none => rfl
    | some q => exact congrArg some (if_neg fun h : q.id = i => hj ((Table.find?_eq_some.mp hfound).2.symm.trans h))
  have hallowed := destroyCollectify_updateProject db none i (f := fun p => { p with privacy }) (fun _ => rfl)
  have hcollections : (db.updateProject none i fun p => { p with privacy }).collections = db.collections :=
    htouches .collections (by decide)
  have hcollectifies : (db.updateProject none i fun p => { p with privacy }).collectifies = db.collectifies :=
    htouches .collectifies (by decide)
  generalize (db.updateProject none i fun p => { p with privacy }) = db' at *
  refine ⟨hallowed u, fun j => by rw [hcollections], fun k => ?_, by rw [hcollectifies], ?_⟩
  · have hprojects : (db'.withoutProject i).collectionProjects k.id =
        (db.withoutProject i).collectionProjects k.id := by
      rw [collectionProjects, collectionProjects, withoutProject, withoutProject, hcollectifies]
      refine List.filterMap_congr fun c hc => ?_
      rw [List.mem_filter, Table.rows_filter, List.mem_filter, decide_eq_true_eq] at hc
      exact hfind c.projectId hc.1.2
    rw [collectionPublished, hprojects, collectionPublished]
  · rw [UniqueMemberships, hcollectifies]
    exact hunique

/-- The ids by which `update_privacy` deletes. -/
def privacyIds (u : User) (i : Nat) (privacy : Option Text) (db : Database) : List (Option Nat) :=
  if (db.projects.find? i).isSome ∧ privacy = some "private".toList then
    db.leaveIds u (db.collectifies.rows.filter (·.projectId = i))
  else []

theorem erases_updatePrivacy {db : Database} (hunique : UniqueMemberships db) (u : User) (now i : Nat)
    (privacy : Option Text) :
    Erases (fun a => a.trackableId ∈ privacyIds u i privacy db) db (updatePrivacy u now i privacy db).2 := by
  have htouches := touches_updateProject db none i fun p => { p with privacy }
  unfold updatePrivacy privacyIds
  cases db.projects.find? i with
  | none => exact (Erases.of_eq rfl).congr fun a => by simp
  | some project =>
    dsimp only
    by_cases hprivate : privacy = some "private".toList
    · rw [if_pos hprivate, if_pos ⟨rfl, hprivate⟩]
      have hloop := erases_leaveCollections now (leaving_updateProject hunique u i privacy)
      rw [(htouches .collectifies (by decide) : _ = _)]
      exact Erases.after (.of_touches htouches (by decide)) hloop
    · rw [if_neg hprivate, if_neg fun h => hprivate h.2]
      exact (Erases.of_touches htouches (by decide)).congr fun a => by simp

/-! ## Destroying a project -/

/-- The ids by which `destroy` deletes without asking for the type. -/
def projectIds (u : User) (i : Nat) (db : Database) : List (Option Nat) :=
  if (db.projects.find? i).any (Ability.destroyProject db u) then (db.projectSteps i).map fun s => some s.id
  else []

/-- The activities it deletes by type and id. -/
def OfProject (db : Database) (u p : Nat) (a : Activity) : Prop :=
  a.Of .project p ∨ (∃ q ∈ questions db p, a.Of .question q.id) ∨
    ∃ f, favoriteOf db u p = some f ∧ a.Of .favoriteProject f.id

theorem erases_forgetProject (db : Database) (u p : Nat) :
    Erases (fun a => (a.trackableId ∈ (db.projectSteps p).map fun s => some s.id) ∨ OfProject db u p a) db
      (forgetProject db u p) := by
  have hproject := erases_destroyActivitiesOf db .project p
  have hquestions := Erases.foldl (fun (db : Database) (q : Question) =>
    erases_destroyActivitiesOf db .question q.id) (questions db p) (db.destroyActivitiesOf .project p)
  have hkept : Touches [.activities] db ((questions db p).foldl (fun (db : Database) (q : Question) =>
      db.destroyActivitiesOf .question q.id) (db.destroyActivitiesOf .project p)) :=
    (touches_activities db _).trans (.foldl (fun db _ => touches_activities db _) _ _)
  unfold forgetProject
  dsimp only
  generalize (questions db p).foldl (fun (db : Database) (q : Question) =>
    db.destroyActivitiesOf .question q.id) (db.destroyActivitiesOf .project p) = db₁ at hquestions hkept ⊢
  have hfavorite : Erases (fun a => ∃ f, favoriteOf db u p = some f ∧ a.Of .favoriteProject f.id) db₁
      ((favoriteOf db u p).elim db₁ fun f => db₁.destroyActivitiesOf .favoriteProject f.id) := by
    cases favoriteOf db u p with
    | none => exact (Erases.of_eq rfl).congr fun a => by simp
    | some f => exact (erases_destroyActivitiesOf db₁ .favoriteProject f.id).congr fun a => by simp
  have hkept' : Touches [.activities] db₁ ((favoriteOf db u p).elim db₁ fun f =>
      db₁.destroyActivitiesOf .favoriteProject f.id) := by
    cases favoriteOf db u p with
    | none => exact .refl _ db₁
    | some f => exact touches_activities db₁ _
  generalize ((favoriteOf db u p).elim db₁ fun f =>
    db₁.destroyActivitiesOf .favoriteProject f.id) = db₂ at hfavorite hkept' ⊢
  have hsteps : db₂.projectSteps p = db.projectSteps p := by
    rw [projectSteps, (hkept.trans hkept' .steps (by decide) : _ = _), projectSteps]
  have hlast := Erases.foldl (fun (db : Database) (s : Step) => erases_destroyActivities db (some s.id))
    (db₂.projectSteps p) db₂
  refine (((hproject.trans hquestions).trans hfavorite).trans hlast).congr fun a => ?_
  rw [hsteps, OfProject, or_comm, or_assoc, List.mem_map]
  simp only [eq_comm]

/-- Destroying a project takes the steps it has. -/
theorem owners_destroyProject (now i : Nat) (db : Database) :
    (destroyProject db now i).steps.rows.map Step.owner =
      (db.steps.rows.map Step.owner).filter fun o => !((db.projectSteps i).map Step.id).contains o.1 := by
  have howners := StepsController.owners_destroySteps now (db.projectSteps i) db
  unfold destroyProject
  dsimp only
  generalize (db.projectSteps i).foldl (fun (db : Database) (s : Step) => db.destroyStep now s) db = db₁ at howners ⊢
  have himages : Touches [.images, .videos] db₁
      ((db₁.projectImages i).foldl (fun (db : Database) (m : Image) => db.destroyImage m.id) db₁) :=
    .foldl (fun db (m : Image) => touches_destroyImage db m.id) _ db₁
  rw [(himages .steps (by decide) : _ = _), howners]

theorem erases_destroyProject (u : User) (now i : Nat) (db : Database) :
    Erases (fun a => a.trackableId ∈ projectIds u i db ∨
      (db.projects.find? i).any (Ability.destroyProject db u) = true ∧ OfProject db u.id i a) db
      (destroy u now i db).2 := by
  unfold destroy projectIds
  cases hproject : db.projects.find? i with
  | none => exact (Erases.of_eq rfl).congr fun a => by simp
  | some project =>
    dsimp only
    cases hallowed : Ability.destroyProject db u project with
    | false => exact (Erases.of_eq rfl).congr fun a => by simp [hallowed]
    | true =>
      have hforget := erases_forgetProject db u.id i
      have hgone : ∀ db : Database, Erases (fun _ => False) db
          (destroyProject (adoptRemixes { db with collectifies := db.collectifies.filter (·.projectId ≠ i) }
            project) now i) := by
        intro db
        have hsteps := Touches.foldl (fun (db : Database) (s : Step) => touches_destroyStep db now s)
        have himages := Touches.foldl (fun (db : Database) (m : Image) => touches_destroyImage db m.id)
        refine .of_eq ?_
        unfold destroyProject
        dsimp only
        rw [(himages _ _ .activities (by decide) : _ = _), (hsteps _ _ .activities (by decide) : _ = _)]
        rfl
      refine (hforget.keep (hgone _)).congr fun a => ?_
      simp [hallowed]

end ProjectsController

/-! ## Removing a project from a collection -/

namespace CollectifiesController

open Database

/-- The membership `destroy` removes, if the user may. -/
def removable (u : User) (k p : Nat) (db : Database) : Option Collectify :=
  if (db.collections.find? k).isSome ∧ (db.projects.find? p).isSome then
    (db.collectifies.rows.find? fun c => c.collectionId = k ∧ c.projectId = p).filter fun c =>
      Ability.destroyCollectify db u c == some true
  else none

/-- The ids by which `destroy` deletes: the membership, and the collection when it is not published
without the project. -/
def collectifyIds (u : User) (k p : Nat) (db : Database) : List (Option Nat) :=
  (removable u k p db).toList.flatMap fun c =>
    some c.id :: (db.hiddenWithout c).toList.map fun r => some r.id

/-- A `destroy` that removes the membership `c` of the collection `r`, and leaves `db₁` to be looked at. -/
structure Removal (u : User) (now k p : Nat) (db : Database) (r : Collection) (c : Collectify) (db₁ : Database) :
    Prop where
  collection : db.collections.find? k = some r
  mem : c ∈ db.collectifies.rows
  pair : c.collectionId = k ∧ c.projectId = p
  removable : removable u k p db = some c
  remove : (db.destroyActivities (some c.id)).removeFromCollection now r p = some db₁
  removed : Removed c (db.destroyActivities (some c.id)) db₁
  published : db₁.collectionPublished r = (db.withoutProject p).collectionPublished r
  eq : destroy u now k p db = (.ok, if db₁.collectionPublished r then db₁ else
    (db₁.updateCollection (some now) k fun k => { k with published := some false }).destroyActivities (some k))

theorem destroy_of_removable_none {u : User} {k p : Nat} {db : Database} (h : removable u k p db = none) (now : Nat) :
    (destroy u now k p db).1 ≠ .ok ∧ (destroy u now k p db).2 = db := by
  unfold removable at h
  unfold destroy
  cases hk : db.collections.find? k with
  | none => exact ⟨by simp, rfl⟩
  | some r =>
    cases hp : db.projects.find? p with
    | none => exact ⟨by simp, rfl⟩
    | some project =>
      rw [hk, hp, if_pos ⟨rfl, rfl⟩] at h
      dsimp only
      cases hc : db.collectifies.rows.find? fun c => c.collectionId = k ∧ c.projectId = p with
      | none => exact ⟨by simp, rfl⟩
      | some c =>
        rw [hc, Option.filter_some] at h
        have hdenied : Ability.destroyCollectify db u c ≠ some true := fun ht => by simp [ht] at h
        refine ⟨fun hok => hdenied (authorize_ok hok).1, ?_⟩
        exact ((authorize_cases _ db _).resolve_left fun hor => hdenied hor.1).2

theorem destroy_of_removable {u : User} {k p : Nat} {db : Database} (hunique : UniqueMemberships db) {c : Collectify}
    (h : removable u k p db = some c) (now : Nat) : ∃ r db₁, Removal u now k p db r c db₁ := by
  have hsome := h
  unfold removable at h
  split at h
  · rename_i hboth
    obtain ⟨r, hk⟩ := Option.isSome_iff_exists.mp hboth.1
    obtain ⟨project, hp⟩ := Option.isSome_iff_exists.mp hboth.2
    obtain ⟨hc, hallowed⟩ := Option.filter_eq_some_iff.mp h
    have hpair : c.collectionId = k ∧ c.projectId = p := by simpa using List.find?_some hc
    have hrc : r.id = c.collectionId := (Table.find?_eq_some.mp hk).2.trans hpair.1.symm
    have hmem : c ∈ db.collectifies.rows := List.mem_of_find?_eq_some hc
    -- nothing depends on the activities
    have hmem' : c ∈ (db.destroyActivities (some c.id)).collectifies.rows := hmem
    have hunique' : UniqueMemberships (db.destroyActivities (some c.id)) := hunique
    obtain ⟨db₁, hremove, hremoved⟩ := removeFromCollection_eq hunique' hmem' hrc now
    have hpublished : db₁.collectionPublished r = (db.withoutProject c.projectId).collectionPublished r :=
      collectionPublished_removed hunique' hmem' hrc rfl rfl (hremoved.touches .projects (by decide)) hremoved.rows
    rw [hpair.2] at hremove hpublished
    refine ⟨r, db₁, hk, hmem, hpair, hsome, hremove, hremoved, hpublished, ?_⟩
    rw [destroy, hk, hp]
    dsimp only
    rw [hc]
    dsimp only
    rw [beq_iff_eq.mp hallowed, authorize, hremove]
    dsimp only
    split
    · rfl
    · rfl
  · cases h

theorem destroy_cases {db : Database} (hunique : UniqueMemberships db) (u : User) (now k p : Nat) :
    ((destroy u now k p db).1 ≠ .ok ∧ (destroy u now k p db).2 = db ∧ removable u k p db = none) ∨
      ∃ r c db₁, Removal u now k p db r c db₁ := by
  cases h : removable u k p db with
  | none =>
    obtain ⟨hno, hsame⟩ := destroy_of_removable_none h now
    exact Or.inl ⟨hno, hsame, rfl⟩
  | some c =>
    obtain ⟨r, db₁, hremoval⟩ := destroy_of_removable hunique h now
    exact Or.inr ⟨r, c, db₁, hremoval⟩

theorem erases_destroy {db : Database} (hunique : UniqueMemberships db) (u : User) (now k p : Nat) :
    Erases (fun a => a.trackableId ∈ collectifyIds u k p db) db (destroy u now k p db).2 := by
  unfold collectifyIds
  rcases destroy_cases hunique u now k p with ⟨-, hsame, hnone⟩ | ⟨r, c, db₁, h⟩
  · rw [hnone]
    exact (Erases.of_eq (by rw [hsame])).congr fun _ => by simp
  · have hrid : r.id = k := (Table.find?_eq_some.mp h.collection).2
    have hhidden : db.hiddenWithout c = if db₁.collectionPublished r then none else some r := by
      rw [hiddenWithout, h.pair.1, h.collection, h.published, Option.filter_some, h.pair.2]
      cases (db.withoutProject p).collectionPublished r <;> rfl
    rw [h.removable, h.eq, Option.toList_some, List.flatMap_singleton, hhidden]
    have hrest := (erases_destroyActivities db (some c.id)).keep (.of_touches h.removed.touches (by decide))
    cases hpub : db₁.collectionPublished r with
    | true => exact hrest.congr fun a => by simp
    | false =>
      have hmarked := hrest.keep (.of_touches (touches_updateCollection db₁ (some now) k
        fun k => { k with published := some false }) (by decide))
      refine (hmarked.trans (erases_destroyActivities _ (some k))).congr fun a => ?_
      simp [hrid]

end CollectifiesController

/-! ## The frame of the deletions -/

/-- An operation that deletes activities. -/
inductive ActivityOp where
  | setPublished (now u i : Nat) (step : Option Nat)
  | destroyStep (u : User) (now p : Nat) (key : StepKey)
  | destroyProject (u : User) (now i : Nat)
  | updatePrivacy (u : User) (now i : Nat) (privacy : Option Text)
  | destroyCollectify (u : User) (now k p : Nat)

namespace ActivityOp

open Database

def perform (db : Database) : ActivityOp → Database
  | setPublished now u i step => db.setPublished now u i step
  | destroyStep u now p key => (StepsController.destroy u now p key db).2
  | destroyProject u now i => (ProjectsController.destroy u now i db).2
  | updatePrivacy u now i privacy => (ProjectsController.updatePrivacy u now i privacy db).2
  | destroyCollectify u now k p => (CollectifiesController.destroy u now k p db).2

/-- The ids by which the operation deletes without asking for the type. -/
def blindIds (db : Database) : ActivityOp → List (Option Nat)
  | setPublished _ _ i _ => db.unpublishIds i
  | destroyStep u now p key => StepsController.destroyIds u now p key db
  | destroyProject u _ i => ProjectsController.projectIds u i db
  | updatePrivacy u _ i privacy => ProjectsController.privacyIds u i privacy db
  | destroyCollectify u _ k p => CollectifiesController.collectifyIds u k p db

/-- The project of the operation. -/
def project : ActivityOp → Nat
  | setPublished _ _ i _ => i
  | destroyStep _ _ p _ => p
  | destroyProject _ _ i => i
  | updatePrivacy _ _ i _ => i
  | destroyCollectify _ _ _ p => p

def user : ActivityOp → Nat
  | setPublished _ u _ _ => u
  | destroyStep u _ _ _ => u.id
  | destroyProject u _ _ => u.id
  | updatePrivacy u _ _ _ => u.id
  | destroyCollectify u _ _ _ => u.id

/-- The steps of the project, and the one that is destroyed. -/
def steps (db : Database) (op : ActivityOp) : List Step :=
  db.projectSteps op.project ++ match op with
    | destroyStep _ _ _ key => (db.findStep key).toList
    | _ => []

/-- The memberships the operation removes. -/
def removed (db : Database) : ActivityOp → List Collectify
  | updatePrivacy u _ i privacy =>
    if (db.projects.find? i).isSome ∧ privacy = some "private".toList then
      (db.reached u (db.collectifies.rows.filter (·.projectId = i))).filter fun c =>
        (db.collections.find? c.collectionId).isSome
    else []
  | destroyCollectify u _ k p => (CollectifiesController.removable u k p db).toList
  | _ => []

/-- The activity is about a record the operation is about: the project, one of its steps or their
questions, the user's favorite of the project, a membership that is removed, or its collection when
that is not published any more. -/
def About (db : Database) (op : ActivityOp) (a : Activity) : Prop :=
  a.Of .project op.project ∨
    (∃ s ∈ op.steps db, a.Of .step s.id ∨ ∃ q ∈ db.questions.rows, q.stepId = s.id ∧ a.Of .question q.id) ∨
    (∃ f ∈ db.favoriteProjects.rows, f.userId = op.user ∧ f.projectId = op.project ∧
      a.Of .favoriteProject f.id) ∨
    ∃ c ∈ op.removed db, a.Of .collectify c.id ∨ ∃ k ∈ db.hiddenWithout c, a.Of .collection k.id

/-- What is deleted by type and id is about the operation. -/
theorem about_ofProject {db : Database} (u : User) (now i : Nat) {a : Activity}
    (h : ProjectsController.OfProject db u.id i a) : About db (.destroyProject u now i) a := by
  rcases h with h | ⟨q, hq, h⟩ | ⟨f, hf, h⟩
  · exact Or.inl h
  · obtain ⟨s, hs, hquestion⟩ := List.mem_filterMap.mp hq
    have hstep : q.stepId = s.id := by simpa using List.find?_some hquestion
    refine Or.inr (Or.inl ⟨s, List.mem_append_left _ hs, Or.inr ⟨q, ?_, hstep, h⟩⟩)
    exact List.mem_of_find?_eq_some hquestion
  · have hpair : f.userId = u.id ∧ f.projectId = i := by simpa using List.find?_some hf
    exact Or.inr (Or.inr (Or.inl ⟨f, List.mem_of_find?_eq_some hf, hpair.1, hpair.2, h⟩))

/-- The activities an operation deletes: those with an id it asks for, and others it is about. -/
theorem erases_perform {db : Database} (hunique : UniqueMemberships db) (op : ActivityOp) :
    ∃ typed : Activity → Prop, (∀ a, typed a → About db op a) ∧
      Erases (fun a => a.trackableId ∈ op.blindIds db ∨ typed a) db (op.perform db) := by
  have hblind : ∀ {ids : List (Option Nat)} {db' : Database}, Erases (fun a => a.trackableId ∈ ids) db db' →
      ∃ typed : Activity → Prop, (∀ a, typed a → About db op a) ∧
        Erases (fun a => a.trackableId ∈ ids ∨ typed a) db db' := fun h =>
    ⟨fun _ => False, fun _ hf => hf.elim, h.congr fun a => by rw [or_false]⟩
  cases op with
  | setPublished now u i step => exact hblind (erases_setPublished db now u i step)
  | destroyStep u now p key => exact hblind (StepsController.erases_destroy u now p key db)
  | destroyProject u now i =>
    exact ⟨_, fun a h => about_ofProject u now i h.2, ProjectsController.erases_destroyProject u now i db⟩
  | updatePrivacy u now i privacy => exact hblind (ProjectsController.erases_updatePrivacy hunique u now i privacy)
  | destroyCollectify u now k p => exact hblind (CollectifiesController.erases_destroy hunique u now k p)

/-- Every activity that goes is about the operation. -/
def Framed (db : Database) (op : ActivityOp) : Prop :=
  ∀ a ∈ db.activities.rows, a ∉ (op.perform db).activities.rows → About db op a

/-- The deletions keep to the records of the operation exactly when no activity about another record
carries one of the ids they ask for. -/
theorem deletion_framed_iff {db : Database} (hunique : UniqueMemberships db) (op : ActivityOp) :
    Framed db op ↔ ∀ a ∈ db.activities.rows, a.trackableId ∈ op.blindIds db → About db op a := by
  obtain ⟨typed, htyped, herases⟩ := erases_perform hunique op
  have hrow : ∀ a ∈ db.activities.rows, (a ∉ (op.perform db).activities.rows ↔
      a.trackableId ∈ op.blindIds db ∨ typed a) := by
    intro a ha
    rw [herases.rows a (db.activities.bound a ha).2, and_iff_right ha, not_not]
  constructor
  · intro h a ha hid
    exact h a ha ((hrow a ha).mpr (Or.inl hid))
  · intro h a ha hgone
    rcases (hrow a ha).mp hgone with hid | htype
    · exact h a ha hid
    · exact htyped a htype

/-- The project of `oneImage` with one activity. -/
def withActivity (title : Text) (t : Trackable) : Database :=
  { oneImage title none with
    activities := .ofRows [⟨1, some t, some 1, "x".toList, some 1, none, some true⟩] 2
      (by simp [Table.WellKeyed, Keyed.key]) }

/-- Destroying the step forgets the activity about it. -/
theorem deletion_framed_iff_step :
    UniqueMemberships (withActivity "Lamp".toList .step) ∧
      Framed (withActivity "Lamp".toList .step) (.destroyStep ada 5 1 (.ofId 1)) := by
  have hunique : UniqueMemberships (withActivity "Lamp".toList .step) := List.nodup_nil
  refine ⟨hunique, (deletion_framed_iff hunique _).mpr fun a ha _ => ?_⟩
  refine Or.inr (Or.inl ⟨StepsController.blankStep 1 1 0, by decide +kernel, Or.inl ?_⟩)
  rw [List.mem_singleton.mp ha]
  exact ⟨rfl, rfl⟩

/-- An untitled project is unpublished by its id 1, and the activity about the collection 1 goes. -/
theorem deletion_reaches_collection :
    ¬ ∀ (db : Database) (op : ActivityOp), UniqueMemberships db → Framed db op := by
  intro hall
  have hframed := hall (withActivity "Untitled".toList .collection) (.setPublished 5 1 1 none) List.nodup_nil
  have habout := hframed ⟨1, some .collection, some 1, "x".toList, some 1, none, some true⟩
    (by decide +kernel) (by decide +kernel)
  rcases habout with ⟨htype, -⟩ | ⟨s, -, ⟨htype, -⟩ | ⟨q, -, -, htype, -⟩⟩ | ⟨f, -, -, -, htype, -⟩ | ⟨c, hc, -⟩
  · cases htype
  · cases htype
  · cases htype
  · cases htype
  · cases hc

end ActivityOp
