import BuildInProgress.ImageCascade
import BuildInProgress.ImagePositions

/-!
# The originals of remixed images

A remix copies images with a reference to the original: a copy of a copy refers to what the copy refers
to.  An original takes its copies with it when it goes, whether alone, with its step or with its project.
So a copy always has its original, and the original is no copy.
-/

open Text

namespace Database

/-- Every copy refers to an image that is there and is no copy. -/
def OneLevel (db : Database) : Prop :=
  ∀ m ∈ db.images.rows, ∀ i ∈ m.originalId, ∃ o ∈ db.images.rows, o.id = i ∧ o.originalId = none

end Database

/-- Uploads, remixes, and the deletions of images, steps and projects. -/
inductive MediaRequest where
  | uploadImage (u : User) (now : Nat) (up : ImagesController.Upload)
  | uploadVideo (u : User) (now : Nat) (up : VideosController.Upload)
  | remix (u : User) (now p : Nat)
  | destroyImage (u : User) (now : Nat) (target : Text ⊕ Nat)
  | destroyStep (u : User) (now p : Nat) (key : StepKey)
  | destroyProject (u : User) (now p : Nat)

/-- The database after a request. -/
def MediaRequest.perform (info : VideosController.VideoInfo) (db : Database) : MediaRequest → Database
  | uploadImage u now up => (ImagesController.create u now up db).2
  | uploadVideo u now up => (VideosController.create u now info up db).2
  | remix u now p => (db.remix u now p).2
  | destroyImage u now target => (ImagesController.destroy u now target db).2
  | destroyStep u now p key => (StepsController.destroy u now p key db).2
  | destroyProject u now p => (ProjectsController.destroy u now p db).2

namespace Database

namespace OneLevel

variable {db db' : Database}

theorem congr (h : OneLevel db) (himages : db'.images = db.images) : OneLevel db' := by
  unfold OneLevel
  rw [himages]
  exact h

-- new rows are originals, or refer to an original among the old ones
theorem append (h : OneLevel db) {ms : List Image} (hrows : db'.images.rows = db.images.rows ++ ms)
    (hms : ∀ m ∈ ms, ∀ i ∈ m.originalId, ∃ o ∈ db.images.rows, o.id = i ∧ o.originalId = none) : OneLevel db' := by
  intro m hm i hi
  rw [hrows, List.mem_append] at hm
  have hold : ∃ o ∈ db.images.rows, o.id = i ∧ o.originalId = none := by
    rcases hm with hm | hm
    · exact h m hm i hi
    · exact hms m hm i hi
  obtain ⟨o, ho, hid, hnone⟩ := hold
  refine ⟨o, ?_, hid, hnone⟩
  rw [hrows]
  exact List.mem_append_left ms ho

theorem map (h : OneLevel db) {f : Image → Image} (hrows : db'.images.rows = db.images.rows.map f)
    (hf : ∀ m, (f m).id = m.id ∧ (f m).originalId = m.originalId) : OneLevel db' := by
  intro m' hm' i hi
  rw [hrows] at hm'
  obtain ⟨m, hm, rfl⟩ := List.mem_map.mp hm'
  rw [(hf m).2] at hi
  obtain ⟨o, ho, hid, hnone⟩ := h m hm i hi
  refine ⟨f o, ?_, (hf o).1.trans hid, (hf o).2.trans hnone⟩
  rw [hrows]
  exact List.mem_map_of_mem ho

theorem destroyImage (h : OneLevel db) (j : Nat) : OneLevel (db.destroyImage j) := by
  intro m hm i hi
  rw [mem_images_destroyImage] at hm
  obtain ⟨o, ho, hid, hnone⟩ := h m hm.1 i hi
  refine ⟨o, mem_images_destroyImage.mpr ⟨ho, fun hgone => hm.2 ?_⟩, hid, hnone⟩
  -- with the original the copy would be gone
  exact .copy hm.1 (by rw [hid]; exact hi) hgone

end OneLevel

end Database

/-! ## The deletions -/

/-- A property of the images and videos that every part of a deletion keeps. -/
structure KeptByDeletions (I : Database → Prop) : Prop where
  congr : ∀ {db db' : Database}, db'.images = db.images → db'.videos = db.videos → I db → I db'
  destroyImage : ∀ {db : Database} (j : Nat), I db → I (db.destroyImage j)
  filterVideos : ∀ {db : Database} (p : Video → Bool), I db → I { db with videos := db.videos.filter p }
  closeGap : ∀ {db : Database} (beside : Image → Bool) (k : Int), I db → I (ImagesController.closeGap beside k db)

namespace KeptByDeletions

open Database

variable {I : Database → Prop} {db : Database}

theorem of_touches (hI : KeptByDeletions I) {names : List TableName} {db' : Database} (htouches : Touches names db db')
    (hn : TableName.images ∉ names ∧ TableName.videos ∉ names) (h : I db) : I db' :=
  hI.congr (htouches .images hn.1) (htouches .videos hn.2) h

theorem destroyImages (hI : KeptByDeletions I) (ms : List Image) (h : I db) :
    I (ms.foldl (fun (db : Database) (m : Image) => db.destroyImage m.id) db) := by
  induction ms generalizing db with
  | nil => exact h
  | cons m ms ih => exact ih (hI.destroyImage m.id h)

theorem destroyDependents (hI : KeptByDeletions I) (s : Nat) (h : I db) : I (db.destroyDependents s) := by
  have hedits : I { db with edits := db.edits.filter (·.stepId ≠ some s) } := hI.congr (by rfl) (by rfl) h
  have hafter := hI.filterVideos (·.stepId ≠ some (s : Int)) (hI.destroyImages (db.stepImages s) hedits)
  unfold Database.destroyDependents
  dsimp only
  split
  · exact hafter
  · exact hI.congr (by rfl) (by rfl) hafter

theorem destroyStep (hI : KeptByDeletions I) (now : Nat) (d : Step) (h : I db) : I (db.destroyStep now d) := by
  have hadopt := hI.of_touches (touches_adoptChildren db now d) (by decide) h
  exact hI.congr (by rfl) (by rfl) (hI.destroyDependents d.id hadopt)

theorem destroySteps (hI : KeptByDeletions I) (now : Nat) (ss : List Step) (h : I db) :
    I (ss.foldl (fun (db : Database) (s : Step) => db.destroyStep now s) db) := by
  induction ss generalizing db with
  | nil => exact h
  | cons s ss ih => exact ih (hI.destroyStep now s h)

theorem destroyProject (hI : KeptByDeletions I) (now i : Nat) (h : I db) :
    I (ProjectsController.destroyProject db now i) := by
  have hsteps := hI.destroySteps now (db.projectSteps i) h
  unfold ProjectsController.destroyProject
  dsimp only
  generalize (db.projectSteps i).foldl (fun (db : Database) (s : Step) => db.destroyStep now s) db = db₁ at hsteps
  have hmedia := hI.filterVideos (·.projectId ≠ some i) (hI.destroyImages (db₁.projectImages i) hsteps)
  exact hI.congr (by rfl) (by rfl) hmedia

theorem destroyRemixes (hI : KeptByDeletions I) (ms : List Image) (h : I db) :
    I (ImagesController.destroyRemixes ms db).2 := by
  induction ms generalizing db with
  | nil => exact h
  | cons m ms ih =>
    unfold ImagesController.destroyRemixes
    split
    · split
      · exact h
      · exact ih (hI.destroyImage m.id (hI.filterVideos _ h))
    · exact ih (hI.destroyImage m.id h)

theorem beforeDestroy (hI : KeptByDeletions I) (m : Image) (h : I db) :
    I (ImagesController.beforeDestroy m db).2 := by
  unfold ImagesController.beforeDestroy
  split
  · exact h
  · exact hI.destroyRemixes _ h

theorem destroyById (hI : KeptByDeletions I) {m : Image} (hm : m ∈ db.images.rows) (now : Nat) (h : I db) :
    I (ImagesController.destroyById now m db).2 := by
  have hbefore := hI.beforeDestroy m h
  rcases ImagesController.destroyById_cases hm now with ⟨-, heq⟩ | ⟨beside, k, -, -, -, heq⟩
  · rw [heq]
    exact hbefore
  · rw [heq]
    apply hI.destroyImage
    split
    · exact hI.closeGap beside k hbefore
    · exact hbefore

theorem destroy_image (hI : KeptByDeletions I) (u : User) (now : Nat) (target : Text ⊕ Nat) (h : I db) :
    I (ImagesController.destroy u now target db).2 := by
  unfold ImagesController.destroy
  cases target with
  | inl path =>
    dsimp only
    split
    · exact h
    · exact hI.destroyImage _ h
  | inr i =>
    dsimp only
    cases hfind : db.images.find? i with
    | none => exact h
    | some m =>
      dsimp only
      rcases authorize_cases (Ability.destroyImage db u m) db (ImagesController.destroyById now m db) with
        ⟨-, heq⟩ | ⟨-, heq⟩
      · rw [heq]
        exact hI.destroyById (Table.find?_eq_some.mp hfind).1 now h
      · rw [heq]
        exact h

theorem destroy_step (hI : KeptByDeletions I) (u : User) (now p : Nat) (key : StepKey) (h : I db) :
    I (StepsController.destroy u now p key db).2 := by
  rcases StepsController.destroy_cases u now p key db with heq | ⟨project, d, -, -, -, -, hrest⟩
  · rw [heq]
    exact h
  · have hbefore := hI.of_touches (StepsController.touches_beforeDestroy db now p d) (by decide) h
    rcases hrest with ⟨-, heq⟩ | ⟨-, heq⟩
    · rw [heq]
      exact hbefore
    · rw [heq]
      have hforget := hI.of_touches (StepsController.touches_forgetStep _ d) (by decide) hbefore
      exact hI.of_touches (StepsController.touches_afterDestroy _ u now project d) (by decide)
        (hI.destroyStep now d hforget)

theorem destroy_project (hI : KeptByDeletions I) (u : User) (now i : Nat) (h : I db) :
    I (ProjectsController.destroy u now i db).2 := by
  rcases ProjectsController.destroy_cases u now i db with ⟨-, heq⟩ | ⟨project, db', -, -, htouch, heq⟩
  · rw [heq]
    exact h
  · rw [heq]
    have hadopt : I (ProjectsController.adoptRemixes db' project) :=
      hI.congr (htouch .images (by decide)) (htouch .videos (by decide)) h
    exact hI.destroyProject now i hadopt

end KeptByDeletions

namespace Database

theorem oneLevel_kept : KeptByDeletions OneLevel where
  congr := fun himages _ h => h.congr himages
  destroyImage := fun j h => h.destroyImage j
  filterVideos := fun _ h => h
  closeGap := by
    intro db beside k h
    refine h.map (ImagesController.rows_closeGap beside k db) fun m => ?_
    rcases ImagesController.movedUp_cases beside k m with heq | ⟨x, -, -, -, heq⟩
    · rw [heq]
      exact ⟨rfl, rfl⟩
    · rw [heq]
      exact ⟨rfl, rfl⟩

end Database

/-! ## Uploads and remixes -/

namespace ImagesController

open Database

theorem oneLevel_create {db : Database} (h : OneLevel db) (u : User) (now : Nat) (up : Upload) :
    OneLevel (create u now up db).2 := by
  rcases create_cases u now up db with ⟨-, heq⟩ | ⟨-, hrows, -⟩
  · rw [heq]
    exact h
  · apply h.append hrows
    intro m hm i hi
    rw [List.mem_singleton.mp hm] at hi
    have hnone : (uploaded db up).originalId = none := by
      cases up <;> rfl
    rw [hnone] at hi
    cases hi

end ImagesController

namespace VideosController

open Database

theorem oneLevel_create {db : Database} (h : OneLevel db) (u : User) (now : Nat) (info : VideoInfo) (up : Upload) :
    OneLevel (create u now info up db).2 := by
  rcases create_cases u now info up db with
    ⟨-, heq⟩ | ⟨v, -, ⟨-, heq⟩ | ⟨p, project, -, -, -, hrows, -⟩⟩
  · rw [heq]
    exact h
  · rw [heq]
    exact h
  · apply h.append hrows
    intro m hm i hi
    rw [List.mem_singleton.mp hm] at hi
    cases hi

end VideosController

namespace Database

theorem oneLevel_remix {db : Database} (h : OneLevel db) (u : User) (now p : Nat) :
    OneLevel (remix u now p db).2 := by
  rcases images_remix u now p db with heq | ⟨hash, hrows, -⟩
  · rw [heq]
    exact h
  · apply h.append hrows
    intro c hc i hi
    obtain ⟨⟨m, n⟩, he, rfl⟩ := List.mem_map.mp hc
    have hm : m ∈ db.images.rows := (mem_orderedImages.mp (List.fst_mem_of_mem_zipIdx he)).1
    dsimp only [imageCopy] at hi
    cases ho : m.originalId with
    | some j =>
      -- a copy of a copy
      rw [ho, if_pos Option.isSome_some] at hi
      exact h m hm i (by rw [ho]; exact hi)
    | none =>
      rw [ho, if_neg (by decide), Option.mem_def, Option.some.injEq] at hi
      exact ⟨m, hm, hi, ho⟩

end Database

/-! ## Whole runs -/

theorem MediaRequest.oneLevel {db : Database} (h : db.OneLevel) (info : VideosController.VideoInfo)
    (r : MediaRequest) : (r.perform info db).OneLevel := by
  cases r with
  | uploadImage u now up => exact ImagesController.oneLevel_create h u now up
  | uploadVideo u now up => exact VideosController.oneLevel_create h u now info up
  | remix u now p => exact Database.oneLevel_remix h u now p
  | destroyImage u now target => exact Database.oneLevel_kept.destroy_image u now target h
  | destroyStep u now p key => exact Database.oneLevel_kept.destroy_step u now p key h
  | destroyProject u now p => exact Database.oneLevel_kept.destroy_project u now p h

/-- Remixed images point one level deep in every state that uploads, remixes and deletions reach. -/
theorem remixed_images_one_level (info : VideosController.VideoInfo) {db : Database} (h : db.OneLevel)
    (rs : List MediaRequest) : (Run.after (MediaRequest.perform info) db rs).OneLevel :=
  Run.invariant (I := Database.OneLevel) (P := fun _ _ => True)
    (fun _ r hdb _ => MediaRequest.oneLevel hdb info r) h (Run.Along.of_forall fun _ _ => trivial)

/-- A remix is remixed, and goes: the copy in the second remix still has its original. -/
theorem remixed_images_one_level_remix_of_remix :
    let rs := [.uploadImage ada 1 (.web 1 1 1 "a.jpg".toList), .remix ada 2 1, .remix ada 3 2,
      .destroyProject ada 4 2]
    let db := Run.after (MediaRequest.perform MediaAction.noInfo) .oneStep rs
    Database.oneStep.OneLevel ∧ db.images.rows.map (fun m => (m.id, m.originalId)) = [(1, none), (3, some 1)] ∧
      db.OneLevel := by
  have h : Database.oneStep.OneLevel := fun _ hm => absurd hm List.not_mem_nil
  exact ⟨h, by decide +kernel, remixed_images_one_level MediaAction.noInfo h _⟩
