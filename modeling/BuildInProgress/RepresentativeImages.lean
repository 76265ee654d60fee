import BuildInProgress.ActivityDeletion
import BuildInProgress.ImageRemoval
import BuildInProgress.ProjectImages

/-!
# When the representative images raise

`Project#homepage_image` looks its cover image up with `find`, and `Project#default_image` asks an image
that need not be there for its original.  Neither raises as long as every cover image exists and every
remix that has images has one it can show.  A deletion may take a cover image, of the project itself or of
a remix that has copied the column; an upload, a remix or a deletion may leave a remix with images of
which none can be shown.
-/

open Text Ancestry

namespace Database

/-- Neither function raises for any project. -/
def Representable (db : Database) : Prop :=
  ∀ p ∈ db.projects.rows, (db.homepageImage p).isSome = true ∧ (db.defaultImage p).isSome = true

/-- The step of the image is there. -/
def OnStep (db : Database) (m : Image) : Prop := ∃ s ∈ db.steps.rows, m.stepId = some (s.id : Int)

/-- A remix can show a stored image that is new or stands on a step. -/
def Presentable (db : Database) (m : Image) : Prop :=
  m.imagePath.isSome = true ∧ (m.originalId = none ∨ db.OnStep m)

/-- Every cover image exists. -/
def Covered (db : Database) : Prop :=
  ∀ p ∈ db.projects.rows, ∀ i ∈ p.coverImage, ∃ m ∈ db.images.rows, m.id = i

/-- Every remix with images has one it can show. -/
def Presented (db : Database) : Prop :=
  ∀ p ∈ db.projects.rows, p.isRemix = true →
    (∀ m ∈ db.images.rows, m.projectId ≠ some p.id) ∨
      ∃ m ∈ db.images.rows, m.projectId = some p.id ∧ db.Presentable m

/-! ## What the two functions look up -/

theorem mem_projectImages {db : Database} {p : Nat} {m : Image} :
    m ∈ db.projectImages p ↔ m ∈ db.images.rows ∧ m.projectId = some p := by
  rw [projectImages, List.mem_filter, decide_eq_true_eq]

theorem mem_storedImages {db : Database} {p : Nat} {m : Image} :
    m ∈ db.storedImages p ↔ (m ∈ db.images.rows ∧ m.projectId = some p) ∧ m.imagePath.isSome = true := by
  rw [storedImages, List.mem_filter, mem_projectImages]

theorem isSome_imageStep {db : Database} {m : Image} : (db.imageStep m).isSome = true ↔ db.OnStep m := by
  rw [imageStep, OnStep]
  cases hm : m.stepId with
  | none => simp
  | some i =>
    rw [Option.bind_some]
    by_cases hneg : i < 0
    · rw [if_pos hneg]
      refine iff_of_false (by decide) ?_
      rintro ⟨s, -, hs⟩
      rw [Option.some.injEq] at hs
      omega
    · rw [if_neg hneg, Table.isSome_find?]
      constructor
      · intro hmem
        obtain ⟨s, hs, hid⟩ := List.mem_map.mp hmem
        have hsid : s.id = i.toNat := hid
        refine ⟨s, hs, ?_⟩
        rw [hsid, Int.toNat_of_nonneg (Int.not_lt.mp hneg)]
      · rintro ⟨s, hs, hsi⟩
        rw [Option.some.injEq] at hsi
        rw [hsi, Int.toNat_natCast]
        exact List.mem_map_of_mem hs

theorem mem_newestFirst {db : Database} {ms : List Image} {m : Image} :
    m ∈ db.newestFirst ms ↔ m ∈ ms ∧ db.OnStep m := by
  rw [newestFirst, List.mem_map]
  simp only [List.mem_insertionSort, List.mem_filterMap, Option.map_eq_some_iff]
  rw [← isSome_imageStep, Option.isSome_iff_exists]
  constructor
  · rintro ⟨⟨s, x⟩, ⟨y, hy, t, ht, heq⟩, rfl⟩
    cases heq
    exact ⟨hy, s, ht⟩
  · rintro ⟨hm, s, hs⟩
    exact ⟨(s, m), ⟨m, hm, s, hs, rfl⟩, rfl⟩

theorem isSome_originalOf {db : Database} (h : OneLevel db) {m : Image} (hm : m ∈ db.images.rows) :
    (db.originalOf m).isSome = true := by
  rw [originalOf]
  cases ho : m.originalId with
  | none => rfl
  | some i =>
    obtain ⟨o, hmem, hid, -⟩ := h m hm i ho
    show ((db.images.find? i).map some).isSome = true
    rw [Option.isSome_map, Table.isSome_find?]
    exact List.mem_map.mpr ⟨o, hmem, hid⟩

theorem isSome_homepageImage {db : Database} (h : OneLevel db) (p : Project) :
    (db.homepageImage p).isSome = true ↔ ∀ i ∈ p.coverImage, ∃ m ∈ db.images.rows, m.id = i := by
  rw [homepageImage]
  cases p.coverImage with
  | none =>
    refine iff_of_true ?_ fun i hi => by cases hi
    cases hhead : (db.newestFirst ((db.storedImages p.id).filter (·.videoId.isNone))).head? with
    | none => rfl
    | some m =>
      have hm := (mem_newestFirst.mp (List.mem_of_head? hhead)).1
      exact isSome_originalOf h (mem_storedImages.mp (List.mem_of_mem_filter hm)).1.1
  | some i =>
    simp only [Option.mem_def, Option.some.injEq, forall_eq']
    cases hfind : db.images.find? i with
    | none =>
      refine iff_of_false Bool.false_ne_true ?_
      rintro ⟨m, hm, hid⟩
      exact Table.find?_eq_none.mp hfind m hm hid
    | some m =>
      obtain ⟨hm, hid⟩ := Table.find?_eq_some.mp hfind
      exact iff_of_true (isSome_originalOf h hm) ⟨m, hm, hid⟩

theorem isSome_defaultImage {db : Database} (h : OneLevel db) (p : Project) :
    (db.defaultImage p).isSome = true ↔ (p.isRemix = true →
      (∀ m ∈ db.images.rows, m.projectId ≠ some p.id) ∨
        ∃ m ∈ db.images.rows, m.projectId = some p.id ∧ db.Presentable m) := by
  rw [defaultImage]
  cases p.isRemix with
  | false => exact iff_of_true rfl fun hno => by cases hno
  | true =>
    rw [Bool.not_true, if_neg (by decide), forall_prop_of_true rfl]
    by_cases hsome : (db.projectImages p.id).length > 0
    · obtain ⟨x, hx⟩ := List.exists_mem_of_length_pos hsome
      rw [if_pos hsome]
      have hnot : ¬ ∀ m ∈ db.images.rows, m.projectId ≠ some p.id := by
        intro hno
        exact hno x (mem_projectImages.mp hx).1 (mem_projectImages.mp hx).2
      rw [or_iff_right hnot]
      dsimp only
      -- an image of its own comes before the newest image of a step
      by_cases hown : ((db.storedImages p.id).filter (·.originalId.isNone)).length > 0
      · obtain ⟨m, hm⟩ := List.exists_mem_of_length_pos hown
        rw [if_pos hown]
        rw [List.mem_filter, mem_storedImages, Option.isNone_iff_eq_none] at hm
        exact iff_of_true rfl ⟨m, hm.1.1.1, hm.1.1.2, hm.1.2, Or.inl hm.2⟩
      · rw [if_neg hown]
        cases hhead : (db.newestFirst (db.storedImages p.id)).head? with
        | none =>
          refine iff_of_false Bool.false_ne_true ?_
          rintro ⟨m, hm, hp, hpath, hshown⟩
          have hstored : m ∈ db.storedImages p.id := mem_storedImages.mpr ⟨⟨hm, hp⟩, hpath⟩
          rcases hshown with hnone | hstep
          · apply hown
            apply List.length_pos_of_mem
            rw [List.mem_filter, Option.isNone_iff_eq_none]
            exact ⟨hstored, hnone⟩
          · have hmem := mem_newestFirst.mpr ⟨hstored, hstep⟩
            rw [List.head?_eq_none_iff.mp hhead] at hmem
            cases hmem
        | some m =>
          obtain ⟨hstored, hstep⟩ := mem_newestFirst.mp (List.mem_of_head? hhead)
          have hm := mem_storedImages.mp hstored
          exact iff_of_true (isSome_originalOf h hm.1.1) ⟨m, hm.1.1, hm.1.2, hm.2, Or.inr hstep⟩
    · rw [if_neg hsome]
      refine iff_of_true rfl (Or.inl fun m hm hp => hsome ?_)
      exact List.length_pos_of_mem (mem_projectImages.mpr ⟨hm, hp⟩)

theorem representable_iff {db : Database} (h : OneLevel db) : Representable db ↔ Covered db ∧ Presented db := by
  unfold Representable Covered Presented
  simp only [isSome_homepageImage h, isSome_defaultImage h]
  exact ⟨fun hall => ⟨fun p hp => (hall p hp).1, fun p hp => (hall p hp).2⟩,
    fun hboth p hp => ⟨hboth.1 p hp, hboth.2 p hp⟩⟩

end Database

/-! ## The requests -/

namespace MediaRequest

open Database Ancestry

/-- The images a deletion is about, before their copies. -/
def Names (db : Database) : MediaRequest → Image → Prop
  | destroyImage u _ target, x =>
    match target with
    | .inl path => ∃ m ∈ db.imageAt path, x.id = m.id
    | .inr i => ∃ m ∈ db.images.find? i, Ability.destroyImage db u m = some true ∧
        x.id ∈ ImagesController.goneById db m
  | destroyStep u now p key, x => StepsController.proceeds u now p key db = true ∧
    ∃ d ∈ db.findStep key, x.stepId = some (d.id : Int)
  | destroyProject u _ p, x => (∃ project ∈ db.projects.find? p, Ability.destroyProject db u project = true) ∧
      ((∃ s ∈ db.projectSteps p, x.stepId = some (s.id : Int)) ∨ x.projectId = some p)
  | _, _ => False

/-- The projects that are there after a deletion. -/
def Keeps (db : Database) : MediaRequest → Project → Prop
  | destroyProject u _ p, q => q.id = p → Ability.destroyProject db u q = false
  | _, _ => True

/-- Whether a project counts as a remix after a deletion; the remixes of a project that goes are handed
to its own original. -/
def remixAfter (db : Database) : MediaRequest → Project → Bool
  | destroyProject u _ p, q =>
    match db.projects.find? p with
    | none => q.isRemix
    | some project =>
      if Ability.destroyProject db u project &&
          descendant (childAncestry project.remixAncestry project.id) q.remixAncestry then project.isRemix
      else q.isRemix
  | _, q => q.isRemix

/-- No cover image goes, and a remix that keeps images keeps one it can show. -/
def Spares (db : Database) (r : MediaRequest) : Prop :=
  (∀ p ∈ db.projects.rows, r.Keeps db p → ∀ m ∈ db.images.rows, p.coverImage = some m.id →
    db.Spared (r.Names db) m) ∧
  ∀ p ∈ db.projects.rows, r.Keeps db p → r.remixAfter db p = true →
    (∀ m ∈ db.images.rows, m.projectId = some p.id → ¬ db.Spared (r.Names db) m) ∨
      ∃ m ∈ db.images.rows, m.projectId = some p.id ∧ db.Spared (r.Names db) m ∧ db.Presentable m

/-- The first image of a remix is a stored one; the copies that a remix makes are none, or one of them is
stored and on a step, or an upload is waiting for the new project; a deletion spares what is shown. -/
def Presents (info : VideosController.VideoInfo) (db : Database) : MediaRequest → Prop
  | uploadImage u _ up => up.allowed db u = true → ∀ p ∈ db.projects.rows, p.isRemix = true →
      (up.image db.images.next).projectId = some p.id →
      (∃ m ∈ db.images.rows, m.projectId = some p.id) ∨ (up.image db.images.next).imagePath.isSome = true
  | uploadVideo u _ up => ∀ v ∈ up.video info db.videos.next, up.allowed db u v = true →
      ∀ p ∈ db.projects.rows, p.isRemix = true → v.projectId = some p.id →
      (∃ m ∈ db.images.rows, m.projectId = some p.id) ∨ (info.thumbUrl v).isSome = true
  | remix _ now p => ∀ project ∈ db.projects.find? p,
      remixValid (remixProject project now db.projects.next) (db.projectSteps p) = true →
      (∀ m ∈ db.images.rows, m.projectId ≠ some p ∧ m.projectId ≠ some db.projects.next) ∨
      (∃ m ∈ db.images.rows, m.projectId = some db.projects.next ∧ m.imagePath.isSome = true) ∨
      ∃ m ∈ db.images.rows, m.projectId = some p ∧ m.imagePath.isSome = true ∧
        ∃ s ∈ db.projectSteps p, m.stepId = some (s.id : Int)
  | r => r.Spares db

end MediaRequest

/-- Requests about media, and the choice of a cover. -/
inductive CoverRequest where
  | media (r : MediaRequest)
  | cover (u : User) (now i image : Nat)

namespace CoverRequest

open Database

def perform (info : VideosController.VideoInfo) (db : Database) : CoverRequest → Database
  | media r => r.perform info db
  | cover u now i image => (ProjectsController.update u now i [.coverImage (some image)] db).2

/-- A cover is one of the images of its project. -/
def OwnCover (db : Database) : CoverRequest → Prop
  | media _ => True
  | cover _ _ i image => ∃ m ∈ db.projectImages i, m.id = image

def Presents (info : VideosController.VideoInfo) (db : Database) : CoverRequest → Prop
  | media r => r.Presents info db
  | cover _ _ _ _ => True

end CoverRequest

/-! ## Deletions -/

namespace Database

/-- What the two functions read of a project. -/
def face (p : Project) : Nat × Option Nat × Bool := (p.id, p.coverImage, p.isRemix)

/-- `db'` is `db` after the deletion `r`, as far as images on steps and the faces of projects go. -/
structure Deletes (r : MediaRequest) (db db' : Database) : Prop where
  images : ∃ f : Image → Image, (∀ x, ImagesController.SameFace x (f x)) ∧ ∀ y, y ∈ db'.images.rows ↔
    ∃ x ∈ db.images.rows, db.Spared (r.Names db) x ∧ y = f x
  steps : ∀ x ∈ db.images.rows, db.Spared (r.Names db) x → (db'.OnStep x ↔ db.OnStep x)
  projects : ∀ c, c ∈ db'.projects.rows.map face ↔
    ∃ p ∈ db.projects.rows, r.Keeps db p ∧ c = (p.id, p.coverImage, r.remixAfter db p)
  owners : ∀ o ∈ db'.steps.rows.map Step.owner, o ∈ db.steps.rows.map Step.owner
  next : db'.projects.next = db.projects.next

theorem covered_iff {db : Database} : Covered db ↔
    ∀ c ∈ db.projects.rows.map face, ∀ i ∈ c.2.1, ∃ m ∈ db.images.rows, m.id = i := by
  simp only [Covered, List.forall_mem_map, face]

theorem presented_iff {db : Database} : Presented db ↔
    ∀ c ∈ db.projects.rows.map face, c.2.2 = true → (∀ m ∈ db.images.rows, m.projectId ≠ some c.1) ∨
      ∃ m ∈ db.images.rows, m.projectId = some c.1 ∧ db.Presentable m := by
  simp only [Presented, List.forall_mem_map, face]

theorem Deletes.spares_iff {r : MediaRequest} {db db' : Database} (h : Deletes r db db') (hcovered : Covered db) :
    r.Spares db ↔ Covered db' ∧ Presented db' := by
  obtain ⟨f, hf, hrows⟩ := h.images
  -- an image that is spared is shown as before
  have hshown : ∀ x ∈ db.images.rows, db.Spared (r.Names db) x → (db'.Presentable (f x) ↔ db.Presentable x) := by
    intro x hx hs
    have honstep : db'.OnStep (f x) ↔ db'.OnStep x := by
      unfold OnStep
      rw [← (hf x).2.1]
    rw [Presentable, Presentable, honstep, h.steps x hx hs, ← (hf x).2.2.2.1, ← (hf x).2.2.2.2.1]
  have hcov : (∀ p ∈ db.projects.rows, r.Keeps db p → ∀ m ∈ db.images.rows, p.coverImage = some m.id →
      db.Spared (r.Names db) m) ↔ Covered db' := by
    rw [covered_iff]
    constructor
    · intro hall c hc i hi
      obtain ⟨p, hp, hkeep, rfl⟩ := (h.projects c).mp hc
      obtain ⟨m, hm, hid⟩ := hcovered p hp i hi
      have hspared := hall p hp hkeep m hm (by rw [hid]; exact hi)
      exact ⟨f m, (hrows _).mpr ⟨m, hm, hspared, rfl⟩, (hf m).1.symm.trans hid⟩
    · intro hall p hp hkeep m hm hcover
      obtain ⟨y, hy, hid⟩ := hall _ ((h.projects _).mpr ⟨p, hp, hkeep, rfl⟩) m.id hcover
      obtain ⟨x, hx, hspared, rfl⟩ := (hrows y).mp hy
      rw [← Table.eq_of_key hx hm ((hf x).1.trans hid)]
      exact hspared
  have hpres : (∀ p ∈ db.projects.rows, r.Keeps db p → r.remixAfter db p = true →
      (∀ m ∈ db.images.rows, m.projectId = some p.id → ¬ db.Spared (r.Names db) m) ∨
        ∃ m ∈ db.images.rows, m.projectId = some p.id ∧ db.Spared (r.Names db) m ∧ db.Presentable m) ↔
      Presented db' := by
    have hone : ∀ p : Project,
        ((∀ m ∈ db.images.rows, m.projectId = some p.id → ¬ db.Spared (r.Names db) m) ∨
          ∃ m ∈ db.images.rows, m.projectId = some p.id ∧ db.Spared (r.Names db) m ∧ db.Presentable m) ↔
        ((∀ m ∈ db'.images.rows, m.projectId ≠ some p.id) ∨
          ∃ m ∈ db'.images.rows, m.projectId = some p.id ∧ db'.Presentable m) := by
      intro p
      apply or_congr
      · constructor
        · intro hall y hy hproj
          obtain ⟨x, hx, hspared, rfl⟩ := (hrows y).mp hy
          exact hall x hx ((hf x).2.2.1.trans hproj) hspared
        · intro hall x hx hproj hspared
          exact hall (f x) ((hrows _).mpr ⟨x, hx, hspared, rfl⟩) ((hf x).2.2.1.symm.trans hproj)
      · constructor
        · rintro ⟨x, hx, hproj, hspared, hshow⟩
          exact ⟨f x, (hrows _).mpr ⟨x, hx, hspared, rfl⟩, (hf x).2.2.1.symm.trans hproj,
            (hshown x hx hspared).mpr hshow⟩
        · rintro ⟨y, hy, hproj, hshow⟩
          obtain ⟨x, hx, hspared, rfl⟩ := (hrows y).mp hy
          exact ⟨x, hx, (hf x).2.2.1.trans hproj, hspared, (hshown x hx hspared).mp hshow⟩
    rw [presented_iff]
    constructor
    · intro hall c hc hremix
      obtain ⟨p, hp, hkeep, rfl⟩ := (h.projects c).mp hc
      exact (hone p).mp (hall p hp hkeep hremix)
    · intro hall p hp hkeep hremix
      exact (hone p).mpr (hall _ ((h.projects _).mpr ⟨p, hp, hkeep, rfl⟩) hremix)
  rw [MediaRequest.Spares, hcov, hpres]

-- rows taken without any change of position
theorem Deletes.of_removes {r : MediaRequest} {db db' : Database} (himages : Removes (r.Names db) db db')
    (hsteps : ∀ x ∈ db.images.rows, db.Spared (r.Names db) x → (db'.OnStep x ↔ db.OnStep x))
    (hprojects : ∀ c, c ∈ db'.projects.rows.map face ↔
      ∃ p ∈ db.projects.rows, r.Keeps db p ∧ c = (p.id, p.coverImage, r.remixAfter db p))
    (howners : ∀ o ∈ db'.steps.rows.map Step.owner, o ∈ db.steps.rows.map Step.owner)
    (hnext : db'.projects.next = db.projects.next) : Deletes r db db' := by
  refine ⟨⟨id, fun x => ⟨rfl, rfl, rfl, rfl, rfl, rfl⟩, fun y => ?_⟩, hsteps, hprojects, howners, hnext⟩
  rw [himages y]
  exact ⟨fun h => ⟨y, h.1, h.2, rfl⟩, fun ⟨x, hx, hs, heq⟩ => heq ▸ ⟨hx, hs⟩⟩

theorem onStep_congr {db db' : Database} (h : db'.steps = db.steps) (x : Image) : db'.OnStep x ↔ db.OnStep x := by
  rw [OnStep, OnStep, h]

theorem deletes_destroyImage {db : Database} (h : OneLevel db) (u : User) (now : Nat) (target : Text ⊕ Nat) :
    Deletes (.destroyImage u now target) db (ImagesController.destroy u now target db).2 := by
  have htouch := ImagesController.touches_destroy u now target db
  have hsteps : ∀ x, (ImagesController.destroy u now target db).2.OnStep x ↔ db.OnStep x :=
    onStep_congr (htouch .steps (by decide))
  have hprojects : ∀ c, c ∈ (ImagesController.destroy u now target db).2.projects.rows.map face ↔
      ∃ p ∈ db.projects.rows, (MediaRequest.destroyImage u now target).Keeps db p ∧
        c = (p.id, p.coverImage, (MediaRequest.destroyImage u now target).remixAfter db p) := by
    intro c
    rw [(htouch .projects (by decide) : _ = _), List.mem_map]
    apply exists_congr
    intro p
    apply and_congr_right
    intro _
    exact ⟨fun heq => ⟨trivial, heq.symm⟩, fun h => h.2.symm⟩
  have howners : ∀ o ∈ (ImagesController.destroy u now target db).2.steps.rows.map Step.owner,
      o ∈ db.steps.rows.map Step.owner := by
    rw [(htouch .steps (by decide) : _ = _)]
    exact fun o ho => ho
  have hnext : (ImagesController.destroy u now target db).2.projects.next = db.projects.next := by
    rw [(htouch .projects (by decide) : _ = _)]
  -- a path names one image, an id also its copies
  cases target with
  | inl path =>
    refine .of_removes ?_ (fun x _ _ => hsteps x) hprojects howners hnext
    unfold ImagesController.destroy
    dsimp only
    rw [← imageAt]
    cases hat : db.imageAt path with
    | none =>
      refine (Removes.of_images rfl).congr fun m _ => ?_
      simp [MediaRequest.Names, hat]
    | some m =>
      refine (Removes.destroyImage h m.id).congr fun x _ => ?_
      simp [MediaRequest.Names, hat]
  | inr i =>
    refine ⟨?_, fun x _ _ => hsteps x, hprojects, howners, hnext⟩
    have hnone : (∀ x, ¬ (MediaRequest.destroyImage u now (.inr i)).Names db x) →
        ∃ f : Image → Image, (∀ x, ImagesController.SameFace x (f x)) ∧ ∀ y, y ∈ db.images.rows ↔
          ∃ x ∈ db.images.rows, db.Spared ((MediaRequest.destroyImage u now (.inr i)).Names db) x ∧ y = f x := by
      intro hno
      refine ⟨id, fun x => ⟨rfl, rfl, rfl, rfl, rfl, rfl⟩, fun y => ?_⟩
      constructor
      · intro hy
        exact ⟨y, hy, fun m _ hm => (hno m hm).elim, rfl⟩
      · rintro ⟨x, hx, -, heq⟩
        exact heq ▸ hx
    unfold ImagesController.destroy
    dsimp only
    cases hfind : db.images.find? i with
    | none =>
      apply hnone
      rintro x ⟨m, hm, -⟩
      rw [hfind] at hm
      cases hm
    | some m =>
      dsimp only
      rcases authorize_cases (Ability.destroyImage db u m) db (ImagesController.destroyById now m db) with
        ⟨hauth, heq⟩ | ⟨hauth, heq⟩
      · rw [heq]
        obtain ⟨f, hf, hrows⟩ := ImagesController.destroyById_spec h (Table.find?_eq_some.mp hfind).1 now
        refine ⟨f, hf, fun y => ?_⟩
        rw [hrows y]
        have hsame : ∀ x, db.Spared (fun z => z.id ∈ ImagesController.goneById db m) x ↔
            db.Spared ((MediaRequest.destroyImage u now (.inr i)).Names db) x := by
          intro x
          refine Spared.congr rfl (fun z _ => ?_) x
          simp [MediaRequest.Names, hfind, hauth]
        simp only [hsame]
      · rw [heq]
        apply hnone
        rintro x ⟨m', hm', hallowed, -⟩
        rw [hfind] at hm'
        cases hm'
        exact hauth hallowed

theorem onStep_iff {db : Database} {x : Image} :
    db.OnStep x ↔ ∃ o ∈ db.steps.rows.map Step.owner, x.stepId = some (o.1 : Int) := by
  constructor
  · rintro ⟨s, hs, hx⟩
    exact ⟨s.owner, List.mem_map_of_mem hs, hx⟩
  · rintro ⟨o, ho, hx⟩
    obtain ⟨s, hs, rfl⟩ := List.mem_map.mp ho
    exact ⟨s, hs, hx⟩

-- the faces of all projects stay
theorem faces_of_sameColumn {r : MediaRequest} {db db' : Database} (h : SameColumn face db db')
    (hkeep : ∀ p, r.Keeps db p) (hremix : ∀ p, r.remixAfter db p = p.isRemix) (c : Nat × Option Nat × Bool) :
    c ∈ db'.projects.rows.map face ↔
      ∃ p ∈ db.projects.rows, r.Keeps db p ∧ c = (p.id, p.coverImage, r.remixAfter db p) := by
  rw [(h : _ = _), List.mem_map]
  constructor
  · rintro ⟨p, hp, rfl⟩
    exact ⟨p, hp, hkeep p, by rw [hremix]; rfl⟩
  · rintro ⟨p, hp, -, rfl⟩
    exact ⟨p, hp, by rw [hremix]; rfl⟩

theorem deletes_destroyStep {db : Database} (h : OneLevel db) (u : User) (now p : Nat) (key : StepKey) :
    Deletes (.destroyStep u now p key) db (StepsController.destroy u now p key db).2 := by
  have hkeep : ∀ q, (MediaRequest.destroyStep u now p key).Keeps db q := fun _ => trivial
  have hremix : ∀ q, (MediaRequest.destroyStep u now p key).remixAfter db q = q.isRemix := fun _ => rfl
  rcases StepsController.destroy_proceeds u now p key db with ⟨hno, hrest⟩ | ⟨hyes, project, d, -, hd, heq⟩
  · -- nothing but ancestries
    have hsame : Touches [.steps, .decisions] db (StepsController.destroy u now p key db).2 ∧
        SamePlaces db (StepsController.destroy u now p key db).2 := by
      rcases hrest with heq | ⟨d, heq⟩
      · rw [heq]
        exact ⟨.refl _ db, .refl db⟩
      · rw [heq]
        exact ⟨StepsController.touches_beforeDestroy db now p d, StepsController.samePlaces_beforeDestroy now p d db⟩
    refine .of_removes ?_ (fun x _ _ => ?_) (faces_of_sameColumn (.of_touches hsame.1 (by decide)) hkeep hremix)
      (fun o ho => ?_) ?_
    · refine (Removes.of_images (hsame.1 .images (by decide))).congr fun m _ => ?_
      simp [MediaRequest.Names, hno]
    · rw [onStep_iff, hsame.2.owners, onStep_iff]
    · rw [hsame.2.owners] at ho
      exact ho
    · rw [(hsame.1 .projects (by decide) : _ = _)]
  · have hbefore := StepsController.touches_beforeDestroy db now p d
    have hforget := StepsController.touches_forgetStep (StepsController.beforeDestroy now p d db).2 d
    -- what comes before the row goes leaves every step in its project
    have howners : (StepsController.forgetStep (StepsController.beforeDestroy now p d db).2 d).steps.rows.map
        Step.owner = db.steps.rows.map Step.owner := by
      rw [(hforget .steps (by decide) : _ = _)]
      exact (StepsController.samePlaces_beforeDestroy now p d db).owners
    rw [heq]
    generalize StepsController.forgetStep (StepsController.beforeDestroy now p d db).2 d = db₁ at hforget howners
    have htouch : Touches [.steps, .decisions, .activities, .news] db db₁ :=
      (hbefore.mono (by decide)).trans (hforget.mono (by decide))
    have himages : db₁.images = db.images := htouch .images (by decide)
    have hafter := StepsController.touches_afterDestroy (db₁.destroyStep now d) u now project d
    have hleft : (StepsController.afterDestroy u now project d (db₁.destroyStep now d)).steps.rows.map Step.owner =
        (db.steps.rows.map Step.owner).filter (·.1 ≠ d.id) := by
      rw [StepsController.owners_afterDestroy, StepsController.owners_destroyStep, howners]
    have hgone := touches_destroyStep db₁ now d
    refine .of_removes ?_ (fun x hx hspared => ?_) (faces_of_sameColumn ?_ hkeep hremix) (fun o ho => ?_) ?_
    · refine Removes.congr ((Removes.destroyStep (h.congr himages) now d).around himages
        (hafter .images (by decide))) fun m _ => ?_
      simp [MediaRequest.Names, hyes, hd]
    · -- an image of the step is not spared
      have hother : x.stepId ≠ some (d.id : Int) := fun hstep =>
        (hspared x hx ⟨hyes, d, hd, hstep⟩).1 rfl
      rw [onStep_iff, hleft, onStep_iff]
      constructor
      · rintro ⟨o, ho, hxo⟩
        exact ⟨o, List.mem_of_mem_filter ho, hxo⟩
      · rintro ⟨o, ho, hxo⟩
        refine ⟨o, List.mem_filter.mpr ⟨ho, decide_eq_true fun hod => hother ?_⟩, hxo⟩
        rw [hxo, hod]
    · refine .trans (.of_touches htouch (by decide)) (.trans (.of_touches hgone (by decide)) ?_)
      exact StepsController.sameColumn_afterDestroy _ (fun _ _ => rfl) (fun _ _ => rfl) (fun _ _ => rfl)
        (fun _ _ => rfl) u now project d
    · rw [hleft] at ho
      exact List.mem_of_mem_filter ho
    · rw [StepsController.next_afterDestroy, (hgone .projects (by decide) : _ = _), (htouch .projects (by decide) : _ = _)]

-- what `project.destroy` leaves of the images
theorem removes_destroyProject {db : Database} (h : OneLevel db) (now i : Nat) :
    Removes (fun x => (∃ s ∈ db.projectSteps i, x.stepId = some (s.id : Int)) ∨ x.projectId = some i) db
      (ProjectsController.destroyProject db now i) := by
  have hlevel := oneLevel_kept.destroySteps now (db.projectSteps i) h
  have hgone := Removes.destroySteps h now (db.projectSteps i)
  unfold ProjectsController.destroyProject
  dsimp only
  generalize (db.projectSteps i).foldl (fun (db : Database) (s : Step) => db.destroyStep now s) db = db₁ at hlevel hgone ⊢
  have hgone' := Removes.destroyImages (A := fun m => m.projectId = some i) hlevel fun m => mem_projectImages
  exact (hgone.trans h hgone').around rfl rfl

theorem deletes_destroyProject_refused {u : User} {i : Nat} {db : Database}
    (h : ∀ project ∈ db.projects.find? i, Ability.destroyProject db u project = false) (now : Nat) :
    Deletes (.destroyProject u now i) db db := by
  have hremix : ∀ q, (MediaRequest.destroyProject u now i).remixAfter db q = q.isRemix := by
    intro q
    rw [MediaRequest.remixAfter]
    cases hp : db.projects.find? i with
    | none => rfl
    | some r =>
      dsimp only
      rw [h r hp, Bool.false_and, if_neg (by decide)]
  have hkeep : ∀ q ∈ db.projects.rows, (MediaRequest.destroyProject u now i).Keeps db q := by
    intro q hq hid
    exact h q (by rw [← hid]; exact Table.find?_of_mem hq)
  refine .of_removes ?_ (fun x _ _ => Iff.rfl) (fun c => ?_) (fun _ ho => ho) rfl
  · refine (Removes.of_images rfl).congr fun m _ => iff_of_false not_false ?_
    rintro ⟨⟨q, hq, hallowed⟩, -⟩
    rw [h q hq] at hallowed
    cases hallowed
  · rw [List.mem_map]
    constructor
    · rintro ⟨q, hq, rfl⟩
      exact ⟨q, hq, hkeep q hq, by rw [hremix]; rfl⟩
    · rintro ⟨q, hq, -, rfl⟩
      exact ⟨q, hq, by rw [hremix]; rfl⟩

-- the projects that are left, with the remixes handed on
theorem faces_destroyProject {u : User} {i : Nat} {db : Database} {project : Project}
    (hfind : db.projects.find? i = some project) (hauth : Ability.destroyProject db u project = true) (now : Nat)
    (c : Nat × Option Nat × Bool) :
    c ∈ ((db.projects.rows.map fun r =>
        if descendant (childAncestry project.remixAncestry project.id) r.remixAncestry then
          { r with remixAncestry := project.remixAncestry } else r).filter (·.id ≠ i)).map face ↔
      ∃ q ∈ db.projects.rows, (MediaRequest.destroyProject u now i).Keeps db q ∧
        c = (q.id, q.coverImage, (MediaRequest.destroyProject u now i).remixAfter db q) := by
  obtain ⟨hproject, hid⟩ := Table.find?_eq_some.mp hfind
  -- only the project itself is not kept
  have hkeep : ∀ q ∈ db.projects.rows, (MediaRequest.destroyProject u now i).Keeps db q ↔ q.id ≠ i := by
    intro q hq
    constructor
    · intro hkept hqi
      have hsame := hkept hqi
      rw [Table.eq_of_key hq hproject (hqi.trans hid.symm), hauth] at hsame
      cases hsame
    · exact fun hne hqi => absurd hqi hne
  have hface : ∀ q : Project, face (if descendant (childAncestry project.remixAncestry project.id)
      q.remixAncestry then { q with remixAncestry := project.remixAncestry } else q) =
      (q.id, q.coverImage, (MediaRequest.destroyProject u now i).remixAfter db q) := by
    intro q
    rw [MediaRequest.remixAfter, hfind]
    dsimp only
    rw [hauth, Bool.true_and]
    split
    · rfl
    · rfl
  rw [List.mem_map]
  constructor
  · rintro ⟨r, hr, rfl⟩
    rw [List.mem_filter, decide_eq_true_eq] at hr
    obtain ⟨q, hq, rfl⟩ := List.mem_map.mp hr.1
    refine ⟨q, hq, (hkeep q hq).mpr fun hqi => hr.2 ?_, hface q⟩
    rw [← hqi]
    split <;> rfl
  · rintro ⟨q, hq, hkept, rfl⟩
    refine ⟨_, List.mem_filter.mpr ⟨List.mem_map_of_mem hq, ?_⟩, hface q⟩
    rw [decide_eq_true_eq]
    have hne := (hkeep q hq).mp hkept
    split
    · exact hne
    · exact hne

theorem deletes_destroyProject {db : Database} (h : OneLevel db) (u : User) (now i : Nat) :
    Deletes (.destroyProject u now i) db (ProjectsController.destroy u now i db).2 := by
  rcases ProjectsController.destroy_cases u now i db with ⟨hno, heq⟩ | ⟨project, db₁, hfind, hauth, htouch, heq⟩
  · rw [heq]
    exact deletes_destroyProject_refused hno now
  · have hnames : ∀ x, (MediaRequest.destroyProject u now i).Names db x ↔
        (∃ s ∈ db.projectSteps i, x.stepId = some (s.id : Int)) ∨ x.projectId = some i := by
      intro x
      exact and_iff_right ⟨project, hfind, hauth⟩
    have himages : (ProjectsController.adoptRemixes db₁ project).images = db.images := htouch .images (by decide)
    have hsteps : (ProjectsController.adoptRemixes db₁ project).steps = db.steps := htouch .steps (by decide)
    -- the remixes are adopted before the steps go
    have hlist : (ProjectsController.adoptRemixes db₁ project).projectSteps i = db.projectSteps i := by
      rw [projectSteps, hsteps, projectSteps]
    have hgone := removes_destroyProject (h.congr himages) now i
    have howners := ProjectsController.owners_destroyProject now i (ProjectsController.adoptRemixes db₁ project)
    obtain ⟨hprojects, -⟩ := ProjectsController.destroyProject_tables (ProjectsController.adoptRemixes db₁ project) now i
    rw [hlist] at hgone howners
    rw [heq]
    refine .of_removes ?_ (fun x hx hspared => ?_) (fun c => ?_) (fun o ho => ?_) ?_
    · exact (hgone.around himages rfl).congr fun m _ => (hnames m).symm
    · -- an image on a step of the project is not spared
      have hother : ∀ s ∈ db.projectSteps i, x.stepId ≠ some (s.id : Int) := fun s hs hstep =>
        (hspared x hx ((hnames x).mpr (Or.inl ⟨s, hs, hstep⟩))).1 rfl
      rw [onStep_iff, howners, hsteps, onStep_iff]
      constructor
      · rintro ⟨o, ho, hxo⟩
        exact ⟨o, List.mem_of_mem_filter ho, hxo⟩
      · rintro ⟨o, ho, hxo⟩
        refine ⟨o, List.mem_filter.mpr ⟨ho, ?_⟩, hxo⟩
        rw [Bool.not_eq_true', List.contains_eq_mem, decide_eq_false_iff_not]
        intro hmem
        obtain ⟨s, hs, hso⟩ := List.mem_map.mp hmem
        exact hother s hs (by rw [hxo, hso])
    · rw [hprojects, ← faces_destroyProject hfind hauth now c, ← (htouch .projects (by decide) : _ = _)]
      rfl
    · rw [howners, hsteps] at ho
      exact List.mem_of_mem_filter ho
    · rw [hprojects, ← (htouch .projects (by decide) : _ = _)]
      rfl

/-! ## Uploads -/

theorem Covered.of_faces {db db' : Database} (h : Covered db) (hface : SameColumn face db db')
    (himages : ∀ m ∈ db.images.rows, m ∈ db'.images.rows) : Covered db' := by
  rw [covered_iff, (hface : _ = _), List.forall_mem_map]
  intro p hp i hi
  obtain ⟨m, hm, hid⟩ := h p hp i hi
  exact ⟨m, himages m hm, hid⟩

-- the first image of a remix has to be a stored one
theorem upload_iff {db db' : Database} {x : Image} (hcovered : Covered db) (hpresented : Presented db)
    (hrows : db'.images.rows = db.images.rows ++ [x]) (hsteps : db'.steps = db.steps)
    (hface : SameColumn face db db') (ho : x.originalId = none) :
    (∀ p ∈ db.projects.rows, p.isRemix = true → x.projectId = some p.id →
      (∃ m ∈ db.images.rows, m.projectId = some p.id) ∨ x.imagePath.isSome = true) ↔
      Covered db' ∧ Presented db' := by
  have hmem : ∀ m, m ∈ db'.images.rows ↔ m ∈ db.images.rows ∨ m = x := by
    intro m
    rw [hrows, List.mem_append, List.mem_singleton]
  have hshown : ∀ m, db'.Presentable m ↔ db.Presentable m := by
    intro m
    rw [Presentable, onStep_congr hsteps, Presentable]
  have hcovered' : Covered db' := hcovered.of_faces hface fun m hm => (hmem m).mpr (Or.inl hm)
  rw [and_iff_right hcovered', presented_iff, (hface : _ = _), List.forall_mem_map]
  constructor
  · intro hall p hp hremix
    rcases hpresented p hp hremix with hnone | ⟨m, hm, hmp, hshow⟩
    · by_cases hx : x.projectId = some p.id
      · rcases hall p hp hremix hx with ⟨m, hm, hmp⟩ | hpath
        · exact absurd hmp (hnone m hm)
        · exact Or.inr ⟨x, (hmem x).mpr (Or.inr rfl), hx, hpath, Or.inl ho⟩
      · refine Or.inl fun m hm => ?_
        rcases (hmem m).mp hm with hm | rfl
        · exact hnone m hm
        · exact hx
    · exact Or.inr ⟨m, (hmem m).mpr (Or.inl hm), hmp, (hshown m).mpr hshow⟩
  · intro hall p hp hremix hx
    rcases hall p hp hremix with hnone | ⟨m, hm, hmp, hshow⟩
    · exact absurd hx (hnone x ((hmem x).mpr (Or.inr rfl)))
    · rcases (hmem m).mp hm with hm | rfl
      · exact Or.inl ⟨m, hm, hmp⟩
      · exact Or.inr hshow.1

theorem face_stamp (r : Project) (t : Nat) : face { r with updatedAt := t } = face r := rfl

theorem presents_uploadImage {db : Database} (hcovered : Covered db) (hpresented : Presented db)
    (info : VideosController.VideoInfo) (u : User) (now : Nat) (up : ImagesController.Upload) :
    (MediaRequest.uploadImage u now up).Presents info db ↔
      Covered (ImagesController.create u now up db).2 ∧ Presented (ImagesController.create u now up db).2 := by
  have hface := ImagesController.sameColumn_create face_stamp u now up db
  rcases ImagesController.create_cases u now up db with ⟨hno, heq⟩ | ⟨hyes, hrows, -, -, -, htouch⟩
  · rw [heq]
    refine iff_of_true (fun hallowed => ?_) ⟨hcovered, hpresented⟩
    rw [hno] at hallowed
    cases hallowed
  · have hnone : (ImagesController.uploaded db up).originalId = none := by
      cases up <;> rfl
    rw [← upload_iff hcovered hpresented hrows (htouch .steps (by decide)) hface hnone]
    exact forall_prop_of_true hyes

theorem presents_uploadVideo {db : Database} (hcovered : Covered db) (hpresented : Presented db)
    (info : VideosController.VideoInfo) (u : User) (now : Nat) (up : VideosController.Upload) :
    (MediaRequest.uploadVideo u now up).Presents info db ↔
      Covered (VideosController.create u now info up db).2 ∧
        Presented (VideosController.create u now info up db).2 := by
  have hface := VideosController.sameColumn_create face_stamp u now info up db
  have hfound : ∀ v : Video, v.projectId.bind db.projects.find? = none → ∀ p ∈ db.projects.rows,
      v.projectId ≠ some p.id := by
    intro v hv p hp hvp
    have hfind : db.projects.find? p.id = some p := Table.find?_of_mem hp
    rw [hvp, Option.bind_some, hfind] at hv
    cases hv
  rcases VideosController.create_cases u now info up db with
    ⟨hno, heq⟩ | ⟨v, hv, ⟨hmissing, heq⟩ | ⟨q, project, -, -, hyes, hrows, -, -, -, htouch⟩⟩
  · rw [heq]
    refine iff_of_true (fun v hv hallowed p hp _ hvp => ?_) ⟨hcovered, hpresented⟩
    rcases hno v hv with hmissing | hrefused
    · exact absurd hvp (hfound v hmissing p hp)
    · rw [hallowed] at hrefused
      cases hrefused
  · rw [heq]
    refine iff_of_true (fun w hw _ p hp _ hwp => ?_) ⟨hcovered, hpresented⟩
    rw [Option.mem_def, hv, Option.some.injEq] at hw
    exact absurd (hw ▸ hwp) (hfound v hmissing p hp)
  · rw [← upload_iff hcovered hpresented hrows (htouch .steps (by decide)) hface rfl]
    constructor
    · intro hall
      exact hall v hv hyes
    · intro hall w hw _
      rw [Option.mem_def, hv, Option.some.injEq] at hw
      rw [← hw]
      exact hall

/-! ## Remixes -/

/-- Copies point one level deep, no step names a project to come, and an image that does is an upload. -/
structure Sound (db : Database) : Prop where
  oneLevel : OneLevel db
  owned : ∀ o ∈ db.steps.rows.map Step.owner, ∀ q ∈ o.2, q < db.projects.next
  waiting : ∀ m ∈ db.images.rows, ∀ q ∈ m.projectId, db.projects.next ≤ q → m.originalId = none

theorem Sound.new_project {db : Database} (h : Sound db) : db.projectSteps db.projects.next = [] := by
  rw [List.eq_nil_iff_forall_not_mem]
  intro s hs
  rw [mem_projectSteps] at hs
  exact Nat.lt_irrefl _ (h.owned s.owner (List.mem_map_of_mem hs.1) _ hs.2)

theorem isRemix_remixProject (project : Project) (now id : Nat) (description : Option Text) :
    ({ remixProject project now id with description } : Project).isRemix = true := by
  show (!blank (childAncestry project.remixAncestry project.id)) = true
  rw [blank_childAncestry]
  rfl

section RemixRows

variable {db db' : Database} {now : Nat} {project : Project} {hash : Nat → Option Nat}

theorem RemixRows.faces (h : RemixRows db db' now project hash) : db'.projects.rows.map face =
    db.projects.rows.map face ++ [(db.projects.next, project.coverImage, true)] := by
  obtain ⟨description, hrows⟩ := h.projects
  rw [hrows, List.map_append, List.map_singleton, face, isRemix_remixProject]
  rfl

theorem RemixRows.onStep (h : RemixRows db db' now project hash) {m : Image} (hm : db.OnStep m) : db'.OnStep m := by
  obtain ⟨s, hs, hstep⟩ := hm
  have hplace : s.place ∈ db'.steps.rows.map Step.place := by
    rw [h.steps]
    exact List.mem_append_left _ (List.mem_map_of_mem hs)
  obtain ⟨t, ht, heq⟩ := List.mem_map.mp hplace
  refine ⟨t, ht, ?_⟩
  rw [hstep, show t.id = s.id from congrArg Prod.fst heq]

-- a copy stands on a step when its original stands on a step of the original project
theorem RemixRows.onStep_copy (h : RemixRows db db' now project hash) (m : Image) (i : Nat) :
    db'.OnStep (imageCopy db.projects.next hash m i) ↔
      ∃ s ∈ db.projectSteps project.id, m.stepId = some (s.id : Int) := by
  constructor
  · rintro ⟨t, ht, hstep⟩
    obtain ⟨j, k, hj, hk, -⟩ := copiedStepId_eq_some hstep
    obtain ⟨s, hs, hid, -⟩ := h.known hk
    exact ⟨s, hs, by rw [hj, hid]⟩
  · rintro ⟨s, hs, hstep⟩
    obtain ⟨k, hk, -⟩ := h.hashed s hs
    obtain ⟨t, ht, hid⟩ := h.exists_step hk
    refine ⟨t, ht, ?_⟩
    show copiedStepId hash m.stepId = _
    rw [hstep, copiedStepId_of_hash hk, hid]

theorem RemixRows.image_cases (h : RemixRows db db' now project hash) {y : Image} (hy : y ∈ db'.images.rows) :
    y ∈ db.images.rows ∨ ∃ m ∈ db.images.rows, m.projectId = some project.id ∧
      ∃ i, y = imageCopy db.projects.next hash m i := by
  rw [h.images, List.mem_append, List.mem_map] at hy
  rcases hy with hy | ⟨⟨m, n⟩, he, rfl⟩
  · exact Or.inl hy
  · obtain ⟨hm, hp⟩ := mem_orderedImages.mp (List.fst_mem_of_mem_zipIdx he)
    exact Or.inr ⟨m, hm, hp, _, rfl⟩

theorem RemixRows.exists_copy (h : RemixRows db db' now project hash) {m : Image} (hm : m ∈ db.images.rows)
    (hp : m.projectId = some project.id) : ∃ i, imageCopy db.projects.next hash m i ∈ db'.images.rows := by
  obtain ⟨n, hn⟩ := List.mem_iff_getElem?.mp (mem_orderedImages.mpr ⟨hm, hp⟩)
  refine ⟨db.images.next + n, ?_⟩
  rw [h.images, List.mem_append]
  exact Or.inr (List.mem_map.mpr ⟨(m, n), List.mk_mem_zipIdx_iff_getElem?.mpr hn, rfl⟩)

-- nothing changes for the projects there were
theorem RemixRows.presented_old (h : RemixRows db db' now project hash) (hpresented : Presented db) :
    ∀ p ∈ db.projects.rows, p.isRemix = true → (∀ m ∈ db'.images.rows, m.projectId ≠ some p.id) ∨
      ∃ m ∈ db'.images.rows, m.projectId = some p.id ∧ db'.Presentable m := by
  intro p hp hremix
  have hold : p.id < db.projects.next := (db.projects.bound p hp).2
  rcases hpresented p hp hremix with hnone | ⟨m, hm, hmp, hpath, hshow⟩
  · refine Or.inl fun y hy hyp => ?_
    rcases h.image_cases hy with hy | ⟨m, -, -, i, rfl⟩
    · exact hnone y hy hyp
    · rw [imageCopy, Option.some.injEq] at hyp
      omega
  · refine Or.inr ⟨m, ?_, hmp, hpath, hshow.imp id h.onStep⟩
    rw [h.images]
    exact List.mem_append_left _ hm

-- what the new project shows
theorem RemixRows.presented_new (h : RemixRows db db' now project hash) (hsound : Sound db) :
    ((∀ m ∈ db.images.rows, m.projectId ≠ some project.id ∧ m.projectId ≠ some db.projects.next) ∨
      (∃ m ∈ db.images.rows, m.projectId = some db.projects.next ∧ m.imagePath.isSome = true) ∨
      ∃ m ∈ db.images.rows, m.projectId = some project.id ∧ m.imagePath.isSome = true ∧
        ∃ s ∈ db.projectSteps project.id, m.stepId = some (s.id : Int)) ↔
      ((∀ m ∈ db'.images.rows, m.projectId ≠ some db.projects.next) ∨
        ∃ m ∈ db'.images.rows, m.projectId = some db.projects.next ∧ db'.Presentable m) := by
  have hkept : ∀ m ∈ db.images.rows, m ∈ db'.images.rows := by
    intro m hm
    rw [h.images]
    exact List.mem_append_left _ hm
  constructor
  · rintro (hnone | ⟨m, hm, hmp, hpath⟩ | ⟨m, hm, hmp, hpath, hstep⟩)
    · refine Or.inl fun y hy => ?_
      rcases h.image_cases hy with hy | ⟨m, hm, hmp, -⟩
      · exact (hnone y hy).2
      · exact absurd hmp (hnone m hm).1
    · exact Or.inr ⟨m, hkept m hm, hmp, hpath, Or.inl (hsound.waiting m hm _ hmp (Nat.le_refl _))⟩
    · obtain ⟨i, hi⟩ := h.exists_copy hm hmp
      exact Or.inr ⟨_, hi, rfl, hpath, Or.inr ((h.onStep_copy m i).mpr hstep)⟩
  · rintro (hnone | ⟨y, hy, hyp, hpath, hshow⟩)
    · refine Or.inl fun m hm => ⟨fun hmp => ?_, hnone m (hkept m hm)⟩
      obtain ⟨i, hi⟩ := h.exists_copy hm hmp
      exact hnone _ hi rfl
    · rcases h.image_cases hy with hy | ⟨m, hm, hmp, i, rfl⟩
      · exact Or.inr (Or.inl ⟨y, hy, hyp, hpath⟩)
      · -- a copy is no upload
        rcases hshow with hown | hstep
        · dsimp only [imageCopy] at hown
          split at hown
          · rename_i ho
            rw [hown] at ho
            cases ho
          · cases hown
        · exact Or.inr (Or.inr ⟨m, hm, hmp, hpath, (h.onStep_copy m i).mp hstep⟩)

end RemixRows

theorem presents_remix {db : Database} (hsound : Sound db) (hcovered : Covered db) (hpresented : Presented db)
    (info : VideosController.VideoInfo) (u : User) (now p : Nat) :
    (MediaRequest.remix u now p).Presents info db ↔ Covered (db.remix u now p).2 ∧ Presented (db.remix u now p).2 := by
  rcases remix_cases hsound.new_project u now p with ⟨hno, heq⟩ | ⟨project, hash, hproject, hvalid, -, hrows⟩
  · rw [heq]
    refine iff_of_true (fun r hr hsaved => ?_) ⟨hcovered, hpresented⟩
    rw [hno r hr] at hsaved
    cases hsaved
  · obtain ⟨hmem, hid⟩ := Table.find?_eq_some.mp hproject
    have hpid : project.id = p := hid
    generalize (db.remix u now p).2 = db' at hrows
    have hcovered' : Covered db' := by
      rw [covered_iff, hrows.faces]
      have hkept : ∀ i, (∃ m ∈ db.images.rows, m.id = i) → ∃ m ∈ db'.images.rows, m.id = i := by
        rintro i ⟨m, hm, hmi⟩
        refine ⟨m, ?_, hmi⟩
        rw [hrows.images]
        exact List.mem_append_left _ hm
      intro c hc i hi
      rw [List.mem_append, List.mem_singleton] at hc
      rcases hc with hc | rfl
      · exact hkept i (covered_iff.mp hcovered c hc i hi)
      · exact hkept i (hcovered project hmem i hi)
    rw [and_iff_right hcovered', presented_iff, hrows.faces]
    have hnew := hrows.presented_new hsound
    rw [hpid] at hnew
    constructor
    · intro hcond c hc hremix
      rw [List.mem_append, List.mem_singleton] at hc
      rcases hc with hc | rfl
      · obtain ⟨q, hq, rfl⟩ := List.mem_map.mp hc
        exact hrows.presented_old hpresented q hq hremix
      · exact hnew.mp (hcond project hproject hvalid)
    · intro hall r hr _
      exact hnew.mpr (hall _ (List.mem_append_right _ (List.mem_singleton_self _)) rfl)

/-! ## Covers -/

theorem face_record (now image : Nat) (project : Project) :
    face (ProjectAttr.record now [.coverImage (some image)] project) = (project.id, some image, project.isRemix) := by
  unfold ProjectAttr.record
  dsimp only
  split
  · rfl
  · rfl

theorem cover_rows (u : User) (now i image : Nat) (db : Database) :
    let db' := (ProjectsController.update u now i [.coverImage (some image)] db).2
    db'.images = db.images ∧ db'.steps = db.steps ∧ db'.projects.next = db.projects.next ∧
      ∀ c ∈ db'.projects.rows.map face, c ∈ db.projects.rows.map face ∨
        ∃ p ∈ db.projects.rows, p.id = i ∧ c = (p.id, some image, p.isRemix) := by
  rcases ProjectsController.update_cases u now i [.coverImage (some image)] db with
    heq | ⟨project, hfind, -, heq | ⟨-, -, heq⟩⟩
  · rw [heq]
    exact ⟨rfl, rfl, rfl, fun c hc => Or.inl hc⟩
  · rw [heq]
    exact ⟨rfl, rfl, rfl, fun c hc => Or.inl hc⟩
  · obtain ⟨hproject, hid⟩ := Table.find?_eq_some.mp hfind
    have hface := face_record now image project
    -- no nested images are submitted
    have hsaved : ProjectsController.saveProject (StepsController.touchCollections db now i) now project
        [.coverImage (some image)] = (StepsController.touchCollections db now i).putProject
          (ProjectAttr.record now [.coverImage (some image)] project) := rfl
    rw [heq]
    dsimp only
    rw [hsaved]
    generalize ProjectAttr.record now [.coverImage (some image)] project = saved at hface
    have hpublish := touches_publish ((StepsController.touchCollections db now i).putProject saved)
      (saved.unpublished || ProjectsController.untitled saved) now u.id i none
    have hcolumn := SameColumn.publish (g := face) (fun _ _ => rfl) (fun _ _ => rfl) (fun _ _ => rfl)
      ((StepsController.touchCollections db now i).putProject saved)
      (saved.unpublished || ProjectsController.untitled saved) now u.id i none
    refine ⟨hpublish .images (by decide), hpublish .steps (by decide), ?_, fun c hc => ?_⟩
    · split
      · rw [next_setPublished]
        rfl
      · rfl
    · rw [(hcolumn : _ = _), putProject, Table.rows_modify, List.map_map] at hc
      obtain ⟨r, hr, rfl⟩ := List.mem_map.mp hc
      rw [Function.comp]
      split
      · rename_i hkey
        have hsid : saved.id = project.id := congrArg Prod.fst hface
        have hrp : r = project := Table.eq_of_key hr hproject (hkey.trans hsid)
        refine Or.inr ⟨project, hproject, hid, ?_⟩
        rw [← hface, hrp, ← hsid]
      · exact Or.inl (List.mem_map_of_mem hr)

theorem represented_cover {db : Database} (hcovered : Covered db) (hpresented : Presented db) {i image : Nat}
    (himage : ∃ m ∈ db.projectImages i, m.id = image) (u : User) (now : Nat) :
    Covered (ProjectsController.update u now i [.coverImage (some image)] db).2 ∧
      Presented (ProjectsController.update u now i [.coverImage (some image)] db).2 := by
  obtain ⟨himages, hsteps, -, hfaces⟩ := cover_rows u now i image db
  generalize (ProjectsController.update u now i [.coverImage (some image)] db).2 = db' at *
  obtain ⟨m, hm, hmid⟩ := himage
  constructor
  · rw [covered_iff, himages]
    intro c hc k hk
    rcases hfaces c hc with hold | ⟨p, -, -, rfl⟩
    · exact covered_iff.mp hcovered c hold k hk
    · rw [Option.mem_def, Option.some.injEq] at hk
      exact ⟨m, (mem_projectImages.mp hm).1, hmid.trans hk⟩
  · rw [presented_iff, himages]
    have hshown : ∀ x, db'.Presentable x ↔ db.Presentable x := by
      intro x
      rw [Presentable, onStep_congr hsteps, Presentable]
    simp only [hshown]
    intro c hc hremix
    rcases hfaces c hc with hold | ⟨p, hp, -, rfl⟩
    · exact presented_iff.mp hpresented c hold hremix
    · exact hpresented p hp hremix

/-! ## Whole runs -/

-- the owners of new steps and the projects of new copies are there
theorem Sound.of_rows {db db' : Database} (h : Sound db) (hlevel : OneLevel db')
    (hnext : db.projects.next ≤ db'.projects.next)
    (howners : ∀ o ∈ db'.steps.rows.map Step.owner, o ∈ db.steps.rows.map Step.owner ∨
      ∀ q ∈ o.2, q < db'.projects.next)
    (himages : ∀ y ∈ db'.images.rows, (∃ x ∈ db.images.rows, y.projectId = x.projectId ∧
      y.originalId = x.originalId) ∨ y.originalId = none ∨ ∀ q ∈ y.projectId, q < db'.projects.next) :
    Sound db' := by
  refine ⟨hlevel, fun o ho q hq => ?_, fun y hy q hq hle => ?_⟩
  · rcases howners o ho with hold | hnew
    · exact Nat.lt_of_lt_of_le (h.owned o hold q hq) hnext
    · exact hnew q hq
  · rcases himages y hy with ⟨x, hx, hp, ho⟩ | hnone | hnew
    · rw [ho]
      exact h.waiting x hx q (by rw [← hp]; exact hq) (Nat.le_trans hnext hle)
    · exact hnone
    · exact absurd (hnew q hq) (Nat.not_lt.mpr hle)

theorem Deletes.sound {r : MediaRequest} {db db' : Database} (hd : Deletes r db db') (h : Sound db)
    (hlevel : OneLevel db') : Sound db' := by
  obtain ⟨f, hf, hrows⟩ := hd.images
  refine h.of_rows hlevel (Nat.le_of_eq hd.next.symm) (fun o ho => Or.inl (hd.owners o ho)) fun y hy => ?_
  obtain ⟨x, hx, -, rfl⟩ := (hrows y).mp hy
  exact Or.inl ⟨x, hx, (hf x).2.2.1.symm, (hf x).2.2.2.2.1.symm⟩

-- one new image without an original
theorem Sound.concat {db db' : Database} (h : Sound db) (hlevel : OneLevel db') {x : Image}
    (hrows : db'.images.rows = db.images.rows ++ [x]) (ho : x.originalId = none) (hsteps : db'.steps = db.steps)
    (hnext : db'.projects.next = db.projects.next) : Sound db' := by
  refine h.of_rows hlevel (Nat.le_of_eq hnext.symm) (fun o ho => Or.inl (by rw [← hsteps]; exact ho)) fun y hy => ?_
  rw [hrows, List.mem_append, List.mem_singleton] at hy
  rcases hy with hy | rfl
  · exact Or.inl ⟨y, hy, rfl, rfl⟩
  · exact Or.inr (Or.inl ho)

theorem sound_remix {db : Database} (h : Sound db) (u : User) (now p : Nat) : Sound (db.remix u now p).2 := by
  have hlevel := oneLevel_remix h.oneLevel u now p
  rcases remix_cases h.new_project u now p with ⟨-, heq⟩ | ⟨project, hash, -, -, -, hrows⟩
  · rw [heq]
    exact h
  · generalize (db.remix u now p).2 = db' at hrows hlevel
    have hnext := hrows.nextProject
    refine h.of_rows hlevel (by omega) (fun o ho => ?_) fun y hy => ?_
    · obtain ⟨t, ht, rfl⟩ := List.mem_map.mp ho
      rcases hrows.step_cases ht with ⟨s, hs, hid, hproj⟩ | ⟨s, -, -, hproj⟩
      · refine Or.inl (List.mem_map.mpr ⟨s, hs, ?_⟩)
        rw [Step.owner, Step.owner, hid, hproj]
      · refine Or.inr fun q hq => ?_
        rw [Step.owner, hproj, Option.mem_def, Option.some.injEq] at hq
        omega
    · rcases hrows.image_cases hy with hy | ⟨m, -, -, i, rfl⟩
      · exact Or.inl ⟨y, hy, rfl, rfl⟩
      · refine Or.inr (Or.inr fun q hq => ?_)
        rw [imageCopy, Option.mem_def, Option.some.injEq] at hq
        omega

end Database

namespace MediaRequest

open Database

theorem sound {db : Database} (h : Sound db) (info : VideosController.VideoInfo) (r : MediaRequest) :
    Sound (r.perform info db) := by
  have hlevel := MediaRequest.oneLevel h.oneLevel info r
  cases r with
  | uploadImage u now up =>
    rcases ImagesController.create_cases u now up db with ⟨-, heq⟩ | ⟨-, hrows, -, -, hnext, htouch⟩
    · rw [perform, heq]
      exact h
    · exact h.concat hlevel hrows (by cases up <;> rfl) (htouch .steps (by decide)) hnext
  | uploadVideo u now up =>
    rcases VideosController.create_cases u now info up db with
      ⟨-, heq⟩ | ⟨v, -, ⟨-, heq⟩ | ⟨q, project, -, -, -, hrows, -, -, hnext, htouch⟩⟩
    · rw [perform, heq]
      exact h
    · rw [perform, heq]
      exact ⟨h.oneLevel, h.owned, h.waiting⟩
    · exact h.concat hlevel hrows rfl (htouch .steps (by decide)) hnext
  | remix u now p => exact sound_remix h u now p
  | destroyImage u now target => exact (deletes_destroyImage h.oneLevel u now target).sound h hlevel
  | destroyStep u now p key => exact (deletes_destroyStep h.oneLevel u now p key).sound h hlevel
  | destroyProject u now p => exact (deletes_destroyProject h.oneLevel u now p).sound h hlevel

/-- A request keeps the representative images exactly when it presents them. -/
theorem presents_iff {db : Database} (h : Sound db) (hcovered : Covered db) (hpresented : Presented db)
    (info : VideosController.VideoInfo) (r : MediaRequest) :
    r.Presents info db ↔ Covered (r.perform info db) ∧ Presented (r.perform info db) := by
  cases r with
  | uploadImage u now up => exact presents_uploadImage hcovered hpresented info u now up
  | uploadVideo u now up => exact presents_uploadVideo hcovered hpresented info u now up
  | remix u now p => exact presents_remix h hcovered hpresented info u now p
  | destroyImage u now target => exact (deletes_destroyImage h.oneLevel u now target).spares_iff hcovered
  | destroyStep u now p key => exact (deletes_destroyStep h.oneLevel u now p key).spares_iff hcovered
  | destroyProject u now p => exact (deletes_destroyProject h.oneLevel u now p).spares_iff hcovered

end MediaRequest

namespace CoverRequest

open Database

theorem sound {db : Database} (h : Sound db) (info : VideosController.VideoInfo) (r : CoverRequest) :
    Sound (r.perform info db) := by
  cases r with
  | media r => exact MediaRequest.sound h info r
  | cover u now i image =>
    obtain ⟨himages, hsteps, hnext, -⟩ := cover_rows u now i image db
    refine h.of_rows (h.oneLevel.congr himages) (Nat.le_of_eq hnext.symm) (fun o ho => Or.inl ?_) fun y hy => ?_
    · rw [← hsteps]
      exact ho
    · rw [perform, himages] at hy
      exact Or.inl ⟨y, hy, rfl, rfl⟩

theorem presents_iff {db : Database} (h : Sound db) (hdb : Representable db) (info : VideosController.VideoInfo)
    {r : CoverRequest} (hown : r.OwnCover db) : r.Presents info db ↔ Representable (r.perform info db) := by
  obtain ⟨hcovered, hpresented⟩ := (representable_iff h.oneLevel).mp hdb
  rw [representable_iff (sound h info r).oneLevel]
  cases r with
  | media r => exact MediaRequest.presents_iff h hcovered hpresented info r
  | cover u now i image => exact iff_of_true trivial (represented_cover hcovered hpresented hown u now)

end CoverRequest

/-- The representative images raise in no state of a run exactly when every request of the run presents
the images it leaves. -/
theorem representative_images_never_raise_iff (info : VideosController.VideoInfo) (db : Database) (hdb : db.Sound)
    (hrepresentable : db.Representable) (rs : List CoverRequest)
    (hown : Run.Along (CoverRequest.perform info) CoverRequest.OwnCover db rs) :
    (∀ n, (Run.after (CoverRequest.perform info) db (rs.take n)).Representable) ↔
      Run.Along (CoverRequest.perform info) (CoverRequest.Presents info) db rs :=
  Run.along_iff_forall_take (J := Database.Sound) (fun _ r h _ => CoverRequest.sound h info r)
    (fun _ _ h hrep hc => CoverRequest.presents_iff h hrep info hc) hdb hrepresentable hown

namespace Database

theorem sound_oneStep : Sound oneStep := by
  refine ⟨fun _ hm => absurd hm List.not_mem_nil, ?_, fun _ hm => absurd hm List.not_mem_nil⟩
  decide +kernel

theorem representable_oneStep : Representable oneStep := by
  unfold Representable
  decide +kernel

end Database

/-- A stored image becomes the cover, and the project with it is remixed. -/
def coverThenRemix : List CoverRequest :=
  [.media (.uploadImage ada 1 (.android (some 1) (some 1) (some 1) (some "a.jpg".toList))), .cover ada 2 1 1,
    .media (.remix ada 3 1)]

theorem representative_images_never_raise_cover_then_remix :
    (Run.after (CoverRequest.perform MediaAction.noInfo) .oneStep coverThenRemix).projects.rows.map
      (fun p => (p.id, p.coverImage)) = [(1, some 1), (2, some 1)] ∧
    ∀ n, (Run.after (CoverRequest.perform MediaAction.noInfo) .oneStep (coverThenRemix.take n)).Representable := by
  have hown : Run.Along (CoverRequest.perform MediaAction.noInfo) CoverRequest.OwnCover .oneStep coverThenRemix := by
    refine ⟨trivial, ?_, trivial, trivial⟩
    rw [CoverRequest.OwnCover]
    decide +kernel
  have hpresents : Run.Along (CoverRequest.perform MediaAction.noInfo)
      (CoverRequest.Presents MediaAction.noInfo) .oneStep coverThenRemix := by
    refine ⟨?_, trivial, ?_, trivial⟩
    · rw [CoverRequest.Presents, MediaRequest.Presents]
      decide +kernel
    · rw [CoverRequest.Presents, MediaRequest.Presents]
      decide +kernel
  exact ⟨by decide +kernel, (representative_images_never_raise_iff MediaAction.noInfo .oneStep
    Database.sound_oneStep Database.representable_oneStep coverThenRemix hown).mpr hpresents⟩

/-- The author deletes the image that is the cover; the page of the project raises from then on. -/
theorem deleted_cover_raises :
    let rs := [.media (.uploadImage ada 1 (.android (some 1) (some 1) (some 1) (some "a.jpg".toList))),
      .cover ada 2 1 1, .media (.destroyImage ada 3 (.inr 1))]
    let db := Run.after (CoverRequest.perform MediaAction.noInfo) .oneStep rs
    Database.oneStep.Sound ∧ Database.oneStep.Representable ∧
    Run.Along (CoverRequest.perform MediaAction.noInfo) CoverRequest.OwnCover .oneStep rs ∧
    (∃ p ∈ db.projects.rows, db.homepageImage p = none) ∧ ¬ db.Representable := by
  refine ⟨Database.sound_oneStep, Database.representable_oneStep, ⟨trivial, ?_, trivial, trivial⟩, by decide +kernel, ?_⟩
  · rw [CoverRequest.OwnCover]
    decide +kernel
  · unfold Database.Representable
    decide +kernel
