import BuildInProgress.ImageCascade
import BuildInProgress.ProjectRows

/-!
# The row of a project after a step action

Every step action publishes its project, if it asks for that, and then writes whether it is built.  What
`published?` reads of the database is whether there is an image; the row itself says the rest.
-/

open Text Ancestry

namespace Project

/-- What `published?` asks of the row itself. -/
def ready (p : Project) : Bool :=
  if p.isRemix then p.updatedAt != p.createdAt else !startsWith p.title "Untitled".toList

/-- The privacy after `set_published`. -/
theorem privacy_republished (published : Bool) (now : Nat) (p : Project) :
    (p.republished published now).privacy =
      if p.valid then if published then if p.isPrivate then p.privacy else some "public".toList else none
      else p.privacy := by
  have hprivate : p.unpublished = true → p.isPrivate = false := by
    intro hblank
    rw [isPrivate, beq_eq_false_iff_ne]
    intro h
    rw [unpublished, h] at hblank
    exact absurd hblank (by decide)
  unfold republished
  cases published with
  | true =>
    rw [Bool.true_and, Bool.true_and, Bool.not_true, if_neg Bool.false_ne_true, if_pos rfl]
    by_cases hblank : p.unpublished = true
    · rw [if_pos hblank, privacy_updated, hprivate hblank, if_neg Bool.false_ne_true]
    · rw [if_neg hblank]
      cases hp : p.isPrivate with
      | true =>
        rw [Bool.not_true, if_neg Bool.false_ne_true, if_pos rfl]
        split
        · rfl
        · rfl
      | false => rw [Bool.not_false, if_pos rfl, if_neg Bool.false_ne_true, privacy_updated]
  | false =>
    rw [Bool.false_and, Bool.false_and, if_neg Bool.false_ne_true, if_neg Bool.false_ne_true, Bool.not_false,
      if_pos rfl, if_neg Bool.false_ne_true]
    dsimp only
    rw [privacy_updated]
    -- the flag is cleared first
    have hcleared : ∀ q : Project, q = (if (p.featured == some true) = true then
        p.updated (some now) fun p => { p with featured := some false } else p) →
        q.valid = p.valid ∧ q.privacy = p.privacy := by
      intro q hq
      rw [hq]
      split
      · unfold updated
        split
        · exact ⟨rfl, rfl⟩
        · exact ⟨rfl, rfl⟩
      · exact ⟨rfl, rfl⟩
    obtain ⟨hv, hp⟩ := hcleared _ rfl
    rw [hv, hp]

/-- A public project that is published is left as it is. -/
theorem republished_of_public {p : Project} (h : p.isPublic = true) (now : Nat) :
    p.republished true now = p := by
  rw [isPublic, beq_iff_eq] at h
  have hsame : ({ p with privacy := some "public".toList } : Project) = p := by rw [← h]
  unfold republished
  rw [Bool.true_and, Bool.true_and, Bool.not_true, if_neg Bool.false_ne_true, updated_of_eq hsame]
  split
  · rfl
  · split
    · rfl
    · rfl

/-- Neither `update_attributes` with `built` or `privacy` nor `set_published` changes what a project is
called, whether it is a remix, and when it was created. -/
def SameTitle (p q : Project) : Prop :=
  q.id = p.id ∧ q.title = p.title ∧ q.remixAncestry = p.remixAncestry ∧ q.createdAt = p.createdAt

theorem SameTitle.trans {p q r : Project} (h : SameTitle p q) (h' : SameTitle q r) : SameTitle p r :=
  ⟨h'.1.trans h.1, h'.2.1.trans h.2.1, h'.2.2.1.trans h.2.2.1, h'.2.2.2.trans h.2.2.2⟩

theorem sameTitle_updated {stamp : Option Nat} {f : Project → Project} (hf : ∀ p, SameTitle p (f p))
    (p : Project) : SameTitle p (p.updated stamp f) := by
  unfold updated
  split
  · exact ⟨rfl, rfl, rfl, rfl⟩
  · exact hf p

theorem sameTitle_republished (published : Bool) (now : Nat) (p : Project) :
    SameTitle p (p.republished published now) := by
  have hprivacy : ∀ (v : Option Text) (p : Project),
      SameTitle p (p.updated (some now) fun p => { p with privacy := v }) := fun v =>
    sameTitle_updated fun _ => ⟨rfl, rfl, rfl, rfl⟩
  unfold republished
  split
  · exact hprivacy _ p
  · split
    · exact hprivacy _ p
    · split
      · refine SameTitle.trans ?_ (hprivacy none _)
        split
        · exact sameTitle_updated (by intro _; exact ⟨rfl, rfl, rfl, rfl⟩) p
        · exact ⟨rfl, rfl, rfl, rfl⟩
      · exact ⟨rfl, rfl, rfl, rfl⟩

theorem ready_of_sameTitle {p q : Project} (h : SameTitle p q) :
    q.ready = if p.isRemix then q.updatedAt != p.createdAt else !startsWith p.title "Untitled".toList := by
  rw [ready, isRemix, h.2.2.1, ← isRemix, h.2.2.2, h.2.1]

-- the stamp of a record that was stamped already
theorem updatedAt_updated {now : Nat} (f : Project → Project) {p : Project} (h : p.updatedAt = now) :
    (p.updated (some now) f).updatedAt = now := by
  unfold updated
  split
  · exact h
  · rfl

theorem updatedAt_republished {now : Nat} {p : Project} (h : p.updatedAt = now) (published : Bool) :
    (p.republished published now).updatedAt = now := by
  have hprivacy : ∀ (v : Option Text) (p : Project), p.updatedAt = now →
      (p.updated (some now) fun p => { p with privacy := v }).updatedAt = now := fun _ _ =>
    updatedAt_updated _
  unfold republished
  split
  · exact hprivacy _ p h
  · split
    · exact hprivacy _ p h
    · split
      · apply hprivacy
        split
        · exact updatedAt_updated _ h
        · exact h
      · exact h

end Project

namespace Database

theorem published_eq (db : Database) (p : Project) :
    db.published p = (p.ready && decide ((db.projectImages p.id).length > 0)) := by
  unfold published Project.ready
  split
  · rfl
  · rfl

/-- The project with this id has an image. -/
def HasImage (db : Database) (i : Nat) : Prop := ∃ x ∈ db.images.rows, x.projectId = some i

theorem hasImage_iff {db : Database} {i : Nat} : (db.projectImages i).length > 0 ↔ db.HasImage i := by
  rw [gt_iff_lt, List.length_pos_iff_exists_mem]
  apply exists_congr
  intro x
  rw [projectImages, List.mem_filter, decide_eq_true_eq]

theorem published_iff {db : Database} {p : Project} :
    db.published p = true ↔ p.ready = true ∧ db.HasImage p.id := by
  rw [published_eq, Bool.and_eq_true, decide_eq_true_eq, hasImage_iff]

theorem hasImage_congr {db db' : Database} (h : db'.images = db.images) (i : Nat) :
    db'.HasImage i ↔ db.HasImage i := by
  rw [HasImage, h, HasImage]

theorem hasImage_map {db db' : Database} {f : Image → Image} (hrows : db'.images.rows = db.images.rows.map f)
    (hf : ∀ x, (f x).projectId = x.projectId) (i : Nat) : db'.HasImage i ↔ db.HasImage i := by
  unfold HasImage
  rw [hrows]
  constructor
  · rintro ⟨y, hy, hp⟩
    obtain ⟨x, hx, rfl⟩ := List.mem_map.mp hy
    exact ⟨x, hx, (hf x).symm.trans hp⟩
  · rintro ⟨x, hx, hp⟩
    exact ⟨f x, List.mem_map_of_mem hx, (hf x).trans hp⟩

end Database

/-! ## What `set_built` reads -/

/-- What `set_built` reads of a step. -/
def Step.standing (s : Step) : Nat × Option Nat × Option Bool := (s.id, s.projectId, s.last)

namespace Database

theorem any_last (db : Database) (p : Nat) : (db.projectSteps p).any (·.last == some true) =
    (db.steps.rows.map Step.standing).any fun x => x.2.1 = some p && x.2.2 == some true := by
  rw [projectSteps, List.any_filter, List.any_map]
  rfl

theorem any_last_congr {db db' : Database} (h : db'.steps.rows.map Step.standing = db.steps.rows.map Step.standing)
    (p : Nat) : (db'.projectSteps p).any (·.last == some true) = (db.projectSteps p).any (·.last == some true) := by
  rw [any_last, h, any_last]

end Database

/-! ## The row of the project after a step action -/

namespace StepsController

open Database

/-- `set_published`, if the action asks for it, and then `set_built`. -/
def settledRow (gate published built : Bool) (now : Nat) (p : Project) : Project :=
  (if gate then p.republished published now else p).updated (some now) fun p => { p with built := some built }

theorem sameTitle_settledRow (gate published built : Bool) (now : Nat) (p : Project) :
    p.SameTitle (settledRow gate published built now p) := by
  unfold settledRow
  refine Project.SameTitle.trans ?_ (Project.sameTitle_updated (by intro _; exact ⟨rfl, rfl, rfl, rfl⟩) _)
  split
  · exact Project.sameTitle_republished published now p
  · exact ⟨rfl, rfl, rfl, rfl⟩

theorem updatedAt_settledRow {now : Nat} {p : Project} (h : p.updatedAt = now) (gate published built : Bool) :
    (settledRow gate published built now p).updatedAt = now := by
  unfold settledRow
  apply Project.updatedAt_updated
  split
  · exact Project.updatedAt_republished h published
  · exact h

theorem rows_settle (db : Database) (gate : Bool) (now u i : Nat) (step : Option Nat) :
    ((if gate then db.setPublished now u i step else db).setBuilt now i).projects.rows =
      db.projects.rows.map fun p => if p.id = i then
        settledRow gate (db.published p) ((db.projectSteps i).any (·.last == some true)) now p else p := by
  have hsteps : (if gate then db.setPublished now u i step else db).projectSteps i = db.projectSteps i := by
    rw [projectSteps, (touches_publish db gate now u i step .steps (by decide) : _ = _), projectSteps]
  rw [rows_setBuilt, hsteps]
  cases gate with
  | true =>
    rw [if_pos rfl, rows_setPublished, List.map_map]
    apply List.map_congr_left
    intro p _
    rw [Function.comp]
    by_cases h : p.id = i
    · rw [if_pos h, if_pos h, if_pos (by rw [Project.republished_id]; exact h), settledRow, if_pos rfl]
    · rw [if_neg h, if_neg h, if_neg h]
  | false =>
    rw [if_neg Bool.false_ne_true]
    apply List.map_congr_left
    intro p _
    rw [settledRow, if_neg Bool.false_ne_true]

-- the images that are claimed stay with their project
theorem hasImage_claimMedia (db : Database) (p s i : Nat) : (claimMedia db p s).HasImage i ↔ db.HasImage i := by
  refine hasImage_map rfl (fun x => ?_) i
  split
  · rfl
  · rfl

/-- After the save only the time of publication is written to the step. -/
theorem standing_afterCreate (u : User) (now : Nat) (html : Bool) (project : Project) (s : Step) (params : List StepAttr)
    (db : Database) : (afterCreate u now html project s params db).steps.rows.map Step.standing =
      db.steps.rows.map Step.standing := by
  rw [rows_afterCreate, List.map_map]
  apply List.map_congr_left
  intro r _
  rw [Function.comp]
  split
  · unfold Step.updated
    split
    · rfl
    · rfl
  · rfl

theorem rows_create {u : User} {now : Nat} {html : Bool} {p : Nat} {params : List StepAttr} {db : Database}
    (hok : (create u now html p params db).1 = .ok) :
    ∃ project built, db.projects.find? p = some project ∧
      built = ((create u now html p params db).2.projectSteps p).any (·.last == some true) ∧
      (create u now html p params db).2.projects.rows = db.projects.rows.map (fun r =>
        if r.id = p then { settledRow (project.isPublic || project.unpublished) (db.published r) built now r with
          updatedAt := now } else r) ∧
      ∀ i, (create u now html p params db).2.HasImage i ↔ db.HasImage i := by
  rcases create_cases u now html p params db with ⟨hno, -⟩ | ⟨project, s, hproject, -, -, -, heq⟩
  · exact absurd hok hno
  have hp : project.id = p := (Table.find?_eq_some.mp hproject).2
  rw [heq]
  dsimp only
  generalize ({ s with position := createPosition db p (createParams db p params) } : Step) = s
  generalize createParams db p params = params
  refine ⟨project, ((insertStep db s).projectSteps p).any (·.last == some true), hproject,
    (any_last_congr (standing_afterCreate u now html project s params _) p).symm, ?_⟩
  have hsteps : (createEdit (touchCollections (saveQuestion (insertStep db s) s.id params) now p) u.id s.id p none
      none).projectSteps p = (insertStep db s).projectSteps p := by
    rw [projectSteps, (touches_createEdit _ _ _ _ _ _ .steps (by decide) : _ = _),
      (touches_touchCollections _ _ _ .steps (by decide) : _ = _), (touches_saveQuestion _ _ _ .steps (by decide) : _ = _),
      projectSteps]
  -- what is written before and after the project
  have hbefore : Touches [.steps, .questions, .decisions, .collections, .edits] db
      (createEdit (touchCollections (saveQuestion (insertStep db s) s.id params) now p) u.id s.id p none none) :=
    (((touches_steps db _).mono (by decide)).trans ((touches_saveQuestion _ _ _).mono (by decide))).trans
      (((touches_touchCollections _ _ _).mono (by decide)).trans ((touches_createEdit _ _ _ _ _ _).mono (by decide)))
  unfold afterCreate
  dsimp only
  rw [hp]
  generalize createEdit (touchCollections (saveQuestion (insertStep db s) s.id params) now p) u.id s.id p none none = db₁
    at hbefore hsteps
  have hrows := rows_settle db₁ (project.isPublic || project.unpublished) now u.id p (some s.id)
  have himages : ((if (project.isPublic || project.unpublished) = true then db₁.setPublished now u.id p (some s.id)
      else db₁).setBuilt now p).images = db.images :=
    (((touches_publish db₁ _ now u.id p (some s.id)).trans (SameRecords.setBuilt _ now p).touches .images
      (by decide) : _ = _)).trans (hbefore .images (by decide))
  have hprojects : db₁.projects = db.projects := hbefore .projects (by decide)
  have hpublished : ∀ r, db₁.published r = db.published r := ProjectsController.published_congr (hbefore .images (by decide))
  generalize (if (project.isPublic || project.unpublished) = true then db₁.setPublished now u.id p (some s.id)
    else db₁).setBuilt now p = db₂ at hrows himages
  have hafter : Touches [.steps, .decisions, .activities] (db₂.touchProject now p)
      (createQuestionActivity ((db₂.touchProject now p).updateStep (some now) s.id fun s =>
        { s with publishedOn := some s.createdAt }) u.id s.id) :=
    ((SameButSteps.updateStep _ _ _ _).touches.mono (by decide)).trans
      ((touches_createQuestionActivity _ _ _).mono (by decide))
  generalize createQuestionActivity ((db₂.touchProject now p).updateStep (some now) s.id fun s =>
    { s with publishedOn := some s.createdAt }) u.id s.id = db₃ at hafter
  have hrows₃ : db₃.projects.rows = db.projects.rows.map (fun r =>
      if r.id = p then { settledRow (project.isPublic || project.unpublished) (db.published r)
        (((insertStep db s).projectSteps p).any (·.last == some true)) now r with updatedAt := now } else r) := by
    rw [← hsteps]
    rw [(hafter .projects (by decide) : _ = _), rows_touchProject, hrows, hprojects, List.map_map]
    apply List.map_congr_left
    intro r _
    rw [Function.comp]
    by_cases hr : r.id = p
    · rw [if_pos hr, if_pos hr, if_pos (by rw [(sameTitle_settledRow _ _ _ _ _).1]; exact hr), hpublished]
    · rw [if_neg hr, if_neg hr, if_neg hr]
  have himages₃ : db₃.images = db.images := (hafter .images (by decide) : _ = _).trans himages
  refine ⟨?_, fun i => ?_⟩
  · split
    · exact hrows₃
    · exact hrows₃
  · split
    · rw [hasImage_claimMedia, hasImage_congr himages₃]
    · exact hasImage_congr himages₃ i

theorem published_congr_hasImage {db db' : Database} (h : ∀ i, db'.HasImage i ↔ db.HasImage i) (r : Project) :
    db'.published r = db.published r := by
  rw [Bool.eq_iff_iff, published_iff, published_iff, h]

theorem rows_update {u : User} {now p : Nat} {id : Int} {params : List StepAttr} {db : Database}
    (hok : (update u now p id params db).1 = .ok) :
    ∃ project built, db.projects.find? p = some project ∧
      built = ((update u now p id params db).2.projectSteps p).any (·.last == some true) ∧
      (update u now p id params db).2.projects.rows = db.projects.rows.map (fun r =>
        if r.id = p then settledRow (project.isPublic || project.unpublished)
          (db.published { r with updatedAt := now }) built now { r with updatedAt := now } else r) ∧
      ∀ i, (update u now p id params db).2.HasImage i ↔ db.HasImage i := by
  obtain ⟨project, s, s', hproject, -, -, heq⟩ := update_ok hok
  have hp : project.id = p := (Table.find?_eq_some.mp hproject).2
  rw [heq] at hok ⊢
  -- the project is touched first
  have hrows₁ : (beforeUpdate now p s params db).projects.rows =
      db.projects.rows.map fun r => if r.id = p then { r with updatedAt := now } else r := by
    have htouch : Touches [.collections, .images, .videos, .questions, .decisions] db
        (removeQuestion (saveImages (touchCollections db now p) s.id) s.id params) :=
      (((touches_touchCollections db now p).mono (by decide)).trans ((touches_media _ _ _).mono (by decide))).trans
        ((touches_removeQuestion _ _ _).mono (by decide))
    rw [beforeUpdate, rows_touchProject, (htouch .projects (by decide) : _ = _)]
  have himages₁ : ∀ i, (beforeUpdate now p s params db).HasImage i ↔ db.HasImage i := by
    intro i
    have hrest : (beforeUpdate now p s params db).images = (saveImages (touchCollections db now p) s.id).images :=
      touches_removeQuestion _ _ _ .images (by decide)
    rw [hasImage_congr hrest]
    refine hasImage_map rfl (fun x => ?_) i
    split
    · rfl
    · rfl
  have hstore := (SameButSteps.storeRow (beforeUpdate now p s params db) (some now) s').touches
  generalize (beforeUpdate now p s params db).storeRow (some now) s' = db₂ at hstore hok ⊢
  -- what is written between the step and the project
  have hlabel := touches_relabel db₂ now s' params
  rcases afterUpdate_cases db₂ u now project s' params _ with ⟨-, hafter⟩ | ⟨e, -, hafter⟩
  · rw [hafter] at hok
    cases hok
  · rw [hafter, endEdit, hp]
    dsimp only
    have hkept : Touches [.steps, .questions, .decisions, .edits] (beforeUpdate now p s params db)
        (clearEdit (relabel now s' params db₂) e p) :=
      ((hstore.mono (by decide)).trans (hlabel.mono (by decide))).trans ((touches_edits _ _).mono (by decide))
    generalize clearEdit (relabel now s' params db₂) e p = db₄ at hkept
    have hhas : ∀ i, db₄.HasImage i ↔ db.HasImage i := fun i =>
      (hasImage_congr (hkept .images (by decide)) i).trans (himages₁ i)
    have hrows := rows_settle db₄ (project.isPublic || project.unpublished) now u.id p (some s'.id)
    have hpublish := (touches_publish db₄ (project.isPublic || project.unpublished) now u.id p (some s'.id)).trans
      (SameRecords.setBuilt _ now p).touches
    generalize (if (project.isPublic || project.unpublished) = true then
      db₄.setPublished now u.id p (some s'.id) else db₄).setBuilt now p = db₅ at hrows hpublish
    have himages : db₅.images = db₄.images := hpublish .images (by decide)
    have hsteps : db₅.steps = db₄.steps := hpublish .steps (by decide)
    have hquestion := touches_announceQuestion db₅ u.id s'.id (emptiedQuestion db s.id params)
    refine ⟨project, (db₄.projectSteps p).any (·.last == some true), hproject, ?_, ?_, fun i => ?_⟩
    · apply (any_last_congr _ p).symm
      rw [(hquestion .steps (by decide) : _ = _), hsteps]
    · rw [(hquestion .projects (by decide) : _ = _), hrows, (hkept .projects (by decide) : _ = _), hrows₁,
        List.map_map]
      apply List.map_congr_left
      intro r _
      rw [Function.comp]
      by_cases hr : r.id = p
      · rw [if_pos hr, if_pos hr, if_pos (by exact hr), published_congr_hasImage hhas]
      · rw [if_neg hr, if_neg hr, if_neg hr]
    · rw [hasImage_congr (hquestion .images (by decide)), hasImage_congr himages, hhas]

end StepsController

/-! ## The row of the project and the images after the destruction of a step -/

namespace Database

theorem standing_destroyStep (db : Database) (now : Nat) (d : Step) :
    (db.destroyStep now d).steps.rows.map Step.standing =
      (db.steps.rows.map Step.standing).filter fun x => x.1 ≠ d.id := by
  have hadopted : ∀ s, (adopted now d s).standing = s.standing := by
    intro s
    unfold adopted
    split
    · rfl
    · rfl
  have hmap : (db.steps.rows.map (adopted now d)).map Step.standing = db.steps.rows.map Step.standing := by
    rw [List.map_map]
    exact List.map_congr_left fun s _ => hadopted s
  rw [rows_destroyStep, ← hmap]
  generalize db.steps.rows.map (adopted now d) = ss
  rw [List.filter_map]
  rfl

theorem mem_images_destroyDependents {db : Database} {s : Nat} {x : Image} :
    x ∈ (db.destroyDependents s).images.rows ↔ x ∈ db.images.rows ∧
      ∀ m ∈ db.images.rows, m.stepId = some (s : Int) → ¬ db.RemixedFrom m.id x.id := by
  have hedits : ∀ {i j : Nat}, Database.RemixedFrom { db with edits := db.edits.filter (·.stepId ≠ some s) } i j ↔
      db.RemixedFrom i j := by
    intro i j
    exact remixedFrom_congr (by rfl)
  have himages : (db.destroyDependents s).images = (((db.stepImages s).map Image.id).foldl destroyImage
      { db with edits := db.edits.filter (·.stepId ≠ some s) }).images := by
    rw [List.foldl_map]
    unfold destroyDependents
    dsimp only
    split
    · rfl
    · rfl
  rw [himages, mem_images_destroyImages]
  apply and_congr_right
  intro _
  simp only [hedits, List.forall_mem_map, stepImages, List.mem_filter, decide_eq_true_eq, and_imp]

theorem mem_images_destroyStep {db : Database} {now : Nat} {d : Step} {x : Image} :
    x ∈ (db.destroyStep now d).images.rows ↔ x ∈ db.images.rows ∧
      ∀ m ∈ db.images.rows, m.stepId = some (d.id : Int) → ¬ db.RemixedFrom m.id x.id := by
  have hadopt : (db.adoptChildren now d).images = db.images := touches_adoptChildren db now d .images (by decide)
  show x ∈ ((db.adoptChildren now d).destroyDependents d.id).images.rows ↔ _
  rw [mem_images_destroyDependents, hadopt]
  apply and_congr_right
  intro _
  simp only [remixedFrom_congr hadopt]

end Database

namespace StepsController

open Database

theorem standing_reroot {now : Nat} {d : Step} {ss : List Step} {db : Database}
    (h : ∀ s ∈ ss, ∀ r ∈ db.steps.rows, r.id = s.id → r.standing = s.standing) :
    (reroot now d ss db).2.steps.rows.map Step.standing = db.steps.rows.map Step.standing := by
  induction ss generalizing db with
  | nil => rfl
  | cons s ss ih =>
    unfold reroot
    cases s.ancestry with
    | none => rfl
    | some a =>
      dsimp only
      have hone : ((db.saveStep (some now) { s with ancestry := some (rerooted d a) }).getD db).steps.rows.map
          Step.standing = db.steps.rows.map Step.standing := by
        rw [saveStep]
        split
        · rw [Option.getD_some]
          exact map_storeStep (fun _ _ _ => rfl) (some now) fun r hr hid => h s List.mem_cons_self r hr hid
        · rfl
      rw [ih ?_, hone]
      intro s' hs' r hr hid
      have hmem : r.standing ∈ db.steps.rows.map Step.standing := by
        rw [← hone]
        exact List.mem_map_of_mem hr
      obtain ⟨r', hr', heq⟩ := List.mem_map.mp hmem
      have hid' : r'.id = r.id := congrArg Prod.fst heq
      rw [← heq]
      exact h s' (List.mem_cons_of_mem _ hs') r' hr' (hid'.trans hid)

end StepsController

namespace StepsController

open Database

/-- A step that stays says the project is built. -/
def builtWithout (db : Database) (p : Nat) (d : Step) : Bool :=
  (db.projectSteps p).any fun s => s.id != d.id && s.last == some true

theorem standing_beforeDestroy (now p : Nat) (d : Step) (db : Database) :
    (beforeDestroy now p d db).2.steps.rows.map Step.standing = db.steps.rows.map Step.standing := by
  unfold beforeDestroy
  split
  · refine standing_reroot fun s hs r hr hid => ?_
    have hrow := (mem_projectSteps.mp (List.mem_filter.mp hs).1).1
    rw [Table.eq_of_key hr hrow hid]
  · rfl

theorem standing_afterDestroy (u : User) (now : Nat) (project : Project) (d : Step) (db : Database) :
    (afterDestroy u now project d db).steps.rows.map Step.standing = db.steps.rows.map Step.standing :=
  map_afterDestroy (fun _ _ _ => rfl) u now project d db

theorem rows_destroy {u : User} {now p : Nat} {key : StepKey} {db : Database}
    (hok : (destroy u now p key db).1 = .ok) :
    ∃ project d, db.projects.find? p = some project ∧ db.findStep key = some d ∧
      (destroy u now p key db).2.steps.rows.map Step.standing =
        (db.steps.rows.map Step.standing).filter (fun x => x.1 ≠ d.id) ∧
      (destroy u now p key db).2.projects.rows = db.projects.rows.map (fun r =>
        if r.id = p then settledRow project.isPublic ((destroy u now p key db).2.published r) (builtWithout db p d) now r
        else r) ∧
      ∀ x, x ∈ (destroy u now p key db).2.images.rows ↔ x ∈ db.images.rows ∧
        ∀ m ∈ db.images.rows, m.stepId = some (d.id : Int) → ¬ db.RemixedFrom m.id x.id := by
  obtain ⟨project, d, hproject, hd, -, -, -, heq⟩ := destroy_ok hok
  have hp : project.id = p := (Table.find?_eq_some.mp hproject).2
  refine ⟨project, d, hproject, hd, ?_⟩
  rw [heq]
  -- what is written before the step goes
  have hbefore : Touches [.steps, .decisions, .activities, .news] db (forgetStep (beforeDestroy now p d db).2 d) :=
    ((touches_beforeDestroy db now p d).mono (by decide)).trans ((touches_forgetStep _ d).mono (by decide))
  have hstanding₁ : (forgetStep (beforeDestroy now p d db).2 d).steps.rows.map Step.standing =
      db.steps.rows.map Step.standing := by
    rw [(touches_forgetStep _ d .steps (by decide) : _ = _)]
    exact standing_beforeDestroy now p d db
  generalize forgetStep (beforeDestroy now p d db).2 d = db₁ at hbefore hstanding₁
  have hprojects : (db₁.destroyStep now d).projects = db.projects :=
    (touches_destroyStep db₁ now d .projects (by decide) : _ = _).trans (hbefore .projects (by decide))
  have hstanding₂ : (db₁.destroyStep now d).steps.rows.map Step.standing =
      (db.steps.rows.map Step.standing).filter fun x => x.1 ≠ d.id := by
    rw [standing_destroyStep, hstanding₁]
  have himages : ∀ x, x ∈ (db₁.destroyStep now d).images.rows ↔ x ∈ db.images.rows ∧
      ∀ m ∈ db.images.rows, m.stepId = some (d.id : Int) → ¬ db.RemixedFrom m.id x.id := by
    have hsame : db₁.images = db.images := hbefore .images (by decide)
    intro x
    rw [mem_images_destroyStep, hsame]
    apply and_congr_right
    intro _
    simp only [remixedFrom_congr hsame]
  generalize db₁.destroyStep now d = db₂ at hprojects hstanding₂ himages
  have hafter : (afterDestroy u now project d db₂).images = db₂.images :=
    touches_afterDestroy db₂ u now project d .images (by decide)
  refine ⟨?_, ?_, fun x => by rw [hafter, himages]⟩
  · rw [standing_afterDestroy, hstanding₂]
  simp only [ProjectsController.published_congr hafter]
  rw [afterDestroy_eq, hp]
  -- the positions that are closed keep what is read of a step
  have htouches := touches_closeGap db₂ now p d
  have hstanding₃ := map_closeGap (g := Step.standing) (fun _ _ _ => rfl) now p d db₂
  generalize closeGap now p d db₂ = db₃ at htouches hstanding₃
  rw [rows_settle, (htouches .projects (by decide) : _ = _), hprojects]
  have hbuilt : (db₃.projectSteps p).any (·.last == some true) = builtWithout db p d := by
    rw [any_last, hstanding₃, hstanding₂, builtWithout, projectSteps, List.any_filter, List.any_filter, List.any_map]
    congr 1
    funext s
    rw [Function.comp, Step.standing]
    dsimp only
    by_cases hp : s.projectId = some p
    · by_cases hid : s.id = d.id
      · simp [hp, hid]
      · simp [hp, hid, bne]
    · simp [hp]
  apply List.map_congr_left
  intro r _
  rw [hbuilt, ProjectsController.published_congr (htouches .images (by decide))]

end StepsController
