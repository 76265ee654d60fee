import BuildInProgress.ImageDeletion
import BuildInProgress.Privacy

/-!
# Who can write the privacy and the media of a project

The actions that change the privacy of a project or a collection, or an image or a video.  Of their
parameter shapes only the web forms and the deletion by id ask for a permission.  For the others it is said here when a
request writes nothing of another author's all the same.
-/

open Text Ancestry

namespace Database

/-- `project.videos` -/
def projectVideos (db : Database) (p : Nat) : List Video := db.videos.rows.filter (·.projectId = some p)

/-- A project column names no project at all, or one of the user. -/
def Authored (db : Database) (u : User) (column : Option Nat) : Prop :=
  ∀ p, column = some p → (db.projects.find? p).isSome = true → db.author p u.id = true

/-- Projects that do not exist, or are the user's. -/
def Own (db : Database) (u : User) (q : Nat) : Prop := (db.projects.find? q).isSome = true → db.author q u.id = true

/-- The images that a deletion comes to and the videos that it takes are the user's. -/
def VisitsAuthored (db : Database) (u : User) (visits : List Nat) : Prop :=
  (∀ x ∈ db.images.rows, x.id ∈ visits → db.Authored u x.projectId) ∧
    ∀ v ∈ db.videos.rows, db.Takes visits v → db.Authored u v.projectId

/-- `Image.where(:s3_filepath => path).first` -/
def imageAt (db : Database) (path : Text) : Option Image :=
  ((db.images.rows.filter (·.s3Filepath = some path)).insertionSort (imageBefore · ·)).head?

end Database

/-- A write request to the privacy or the media. -/
inductive MediaAction where
  | projectPrivacy (i : Nat) (privacy : Option Text)
  | collectionPrivacy (i : Nat) (privacy : Option Text)
  | createImage (up : ImagesController.Upload)
  | updateImage (i : Nat) (params : List ImageAttr)
  | sortImages (ids : List Nat)
  | rotateImage (i : Nat) (rotation : Option Int)
  | destroyImage (target : Text ⊕ Nat)
  | createVideo (up : VideosController.Upload)

namespace MediaAction

def perform (u : User) (now : Nat) (info : VideosController.VideoInfo) (db : Database) :
    MediaAction → Database
  | projectPrivacy i v => (ProjectsController.updatePrivacy u now i v db).2
  | collectionPrivacy i v => (CollectionsController.updatePrivacy i v db).2
  | createImage up => (ImagesController.create u now up db).2
  | updateImage i params => (ImagesController.update i params db).2
  | sortImages ids => (ImagesController.sort ids db).2
  | rotateImage i r => (ImagesController.rotate i r db).2
  | destroyImage target => (ImagesController.destroy u now target db).2
  | createVideo up => (VideosController.create u now info up db).2

/-- The actions on images and videos; the other two are about the privacy. -/
def onMedia : MediaAction → Bool
  | projectPrivacy _ _ => false
  | collectionPrivacy _ _ => false
  | _ => true

/-- What the request changes without a permission belongs to the user. -/
def KeepsToOwn (u : User) (db : Database) : MediaAction → Prop
  | projectPrivacy i v =>
    ∀ project ∈ db.projects.find? i, db.author i u.id = true ∨ project.privacy = v ∨ project.valid = false
  | collectionPrivacy i v =>
    ∀ k ∈ db.collections.find? i, k.userId = some u.id ∨ k.privacy = v ∨ db.collectionValid k = false
  | createImage up =>
    match up with
    | .web _ _ _ _ => True
    | .android p _ _ _ => db.Authored u p
  | updateImage i params =>
    -- an image without a step raises before anything is written
    ∀ m ∈ db.images.find? i, (m.stepId.bind fun s => if s < 0 then none else db.steps.find? s.toNat).isSome = true →
      params.foldl ImageAttr.assign m = m ∨
        db.Authored u m.projectId ∧ db.Authored u (params.foldl ImageAttr.assign m).projectId
  | sortImages ids =>
    ∀ m ∈ db.images.rows, m.id ∈ ids →
      m.position = some (Rows.lastIdxOf ids m.id : Int) ∨ db.Authored u m.projectId
  | rotateImage i rotation =>
    ∀ m ∈ db.images.find? i, m.rotation = (if rotation = some 8 then some 270 else rotation) ∨ db.Authored u m.projectId
  | destroyImage target =>
    match target with
    | .inl path => ∀ m ∈ db.imageAt path, db.VisitsAuthored u (db.copies m.id)
    | .inr i =>
      ∀ m ∈ db.images.find? i, Ability.destroyImage db u m = some true →
        db.VisitsAuthored u (ImagesController.visits db m) ∧
          ∀ x ∈ db.images.rows, ImagesController.MovesUp db m x → db.Authored u x.projectId
  | createVideo up =>
    match up with
    | .form _ => True
    | .android p _ _ _ => db.Authored u p

end MediaAction

namespace Database

/-! ## Media outside some projects -/

/-- The images and videos of the projects outside `S` are the same. -/
def MediaOutside (S : Nat → Prop) (db db' : Database) : Prop :=
  Rows.Outside Image.projectId S db.images.rows db'.images.rows ∧
    Rows.Outside Video.projectId S db.videos.rows db'.videos.rows

variable {S : Nat → Prop} {db db' : Database} {u : User}

theorem MediaOutside.of_touches {names : List TableName} (h : Touches names db db')
    (hn : TableName.images ∉ names ∧ TableName.videos ∉ names) : MediaOutside S db db' := by
  have himages : db'.images = db.images := h .images hn.1
  have hvideos : db'.videos = db.videos := h .videos hn.2
  rw [MediaOutside, himages, hvideos]
  exact ⟨.refl _ S _, .refl _ S _⟩

theorem MediaOutside.refl (S : Nat → Prop) (db : Database) : MediaOutside S db db := ⟨.refl _ S _, .refl _ S _⟩

/-- Where only an image was added. -/
theorem mediaOutside_concat_iff {m : Image} (himages : db'.images.rows = db.images.rows ++ [m])
    (hvideos : db'.videos = db.videos) : MediaOutside (Own db u) db db' ↔ db.Authored u m.projectId := by
  rw [MediaOutside, himages, hvideos, and_iff_left (.refl _ _ _)]
  exact Rows.outside_concat_iff

/-- Where only images were rewritten. -/
theorem mediaOutside_map_iff {f : Image → Image} (hf : ∀ m, (f m).id = m.id)
    (himages : db'.images.rows = db.images.rows.map f) (hvideos : db'.videos = db.videos) :
    MediaOutside (Own db u) db db' ↔
      ∀ m ∈ db.images.rows, f m = m ∨ db.Authored u m.projectId ∧ db.Authored u (f m).projectId := by
  rw [MediaOutside, himages, hvideos, and_iff_left (.refl _ _ _)]
  exact Rows.outside_map_iff db.images.nodup hf

/-- The image under a key is rewritten. -/
theorem mediaOutside_modifyImage_iff {i : Nat} {m : Image} (hm : db.images.find? i = some m) (f : Image → Image)
    (hf : ∀ m, (f m).id = m.id) :
    MediaOutside (Own db u) db (ImagesController.modifyImage db m.id f hf) ↔
      f m = m ∨ db.Authored u m.projectId ∧ db.Authored u (f m).projectId := by
  have hrow := (Table.find?_eq_some.mp hm).1
  have hkeep : ∀ x : Image, (if Keyed.key x = m.id then f x else x).id = x.id := by
    intro x
    split
    · exact hf x
    · rfl
  have hrows : (ImagesController.modifyImage db m.id f hf).images.rows =
      db.images.rows.map fun x => if Keyed.key x = m.id then f x else x := rfl
  rw [mediaOutside_map_iff hkeep hrows rfl]
  constructor
  · intro h
    have hone := h m hrow
    rw [if_pos (show Keyed.key m = m.id from rfl)] at hone
    exact hone
  · intro h x hx
    by_cases hid : Keyed.key x = m.id
    · rw [Table.eq_of_key hx hrow hid, if_pos (show Keyed.key m = m.id from rfl)]
      exact h
    · exact Or.inl (if_neg hid)

/-- Where images and videos were deleted, after some of the images had been rewritten. -/
theorem mediaOutside_delete_iff {f : Image → Image} (hf : ∀ m, (f m).id = m.id ∧ (f m).projectId = m.projectId)
    {visits : List Nat}
    (himages : db'.images.rows = (db.images.rows.map f).filter fun m => !visits.contains m.id)
    (hvideos : db'.videos.rows = db.videos.rows.filter fun v => !decide (db.Takes visits v)) :
    MediaOutside (Own db u) db db' ↔
      db.VisitsAuthored u visits ∧ ∀ m ∈ db.images.rows, f m = m ∨ db.Authored u m.projectId := by
  have hone : Rows.Outside Image.projectId (Own db u) db.images.rows db'.images.rows ↔
      ∀ m ∈ db.images.rows, f m = m ∧ (!visits.contains m.id) = true ∨ db.Authored u m.projectId := by
    rw [himages]
    exact Rows.outside_map_filter_iff db.images.nodup (fun m => (hf m).1) (fun m => (hf m).2) fun m => by rw [(hf m).1]
  have htwo : Rows.Outside Video.projectId (Own db u) db.videos.rows db'.videos.rows ↔
      ∀ v ∈ db.videos.rows, (!decide (db.Takes visits v)) = true ∨ db.Authored u v.projectId := by
    rw [hvideos]
    exact Rows.outside_filter_iff
  rw [MediaOutside, hone, htwo, VisitsAuthored]
  simp only [Bool.not_eq_true', List.contains_eq_mem, decide_eq_false_iff_not]
  constructor
  · rintro ⟨h, h'⟩
    refine ⟨⟨fun m hm hvisit => (h m hm).resolve_left fun hstay => hstay.2 hvisit, fun v hv htake => ?_⟩,
      fun m hm => (h m hm).imp_left And.left⟩
    exact (h' v hv).resolve_left fun hstay => hstay htake
  · rintro ⟨⟨h, h'⟩, hmoves⟩
    refine ⟨fun m hm => ?_, fun v hv => or_iff_not_imp_left.mpr fun htake => h' v hv (not_not.mp htake)⟩
    by_cases hvisit : m.id ∈ visits
    · exact Or.inr (h m hm hvisit)
    · exact (hmoves m hm).imp_left fun hsame => ⟨hsame, hvisit⟩

end Database

/-! ## Privacy of projects and collections -/

namespace Database

variable {db : Database}

def collectionPrivacyOf (db : Database) (k : Nat) : Option (Option Text) :=
  (db.collections.find? k).map Collection.privacy

theorem collectionPrivacyOf_congr {db' : Database} (h : db'.collections = db.collections) (k : Nat) :
    db'.collectionPrivacyOf k = db.collectionPrivacyOf k := by
  rw [collectionPrivacyOf, h, collectionPrivacyOf]

theorem collectionPrivacyOf_updateCollection (db : Database) (stamp : Option Nat) {i k : Nat}
    {f : Collection → Collection} (h : i = k → ∀ r, (f r).privacy = r.privacy) :
    (db.updateCollection stamp i f).collectionPrivacyOf k = db.collectionPrivacyOf k := by
  unfold updateCollection
  cases hf : db.collections.find? i with
  | none => rfl
  | some r =>
    dsimp only
    split
    · rfl
    · rw [collectionPrivacyOf, Table.find?_modify, collectionPrivacyOf, Option.map_map]
      cases hk : db.collections.find? k with
      | none => rfl
      | some c =>
        have hc := Table.find?_eq_some.mp hk
        rw [Option.map_some, Option.map_some, Option.some.injEq, Function.comp]
        split
        · rename_i hci
          have hik : i = k := hci.symm.trans hc.2
          subst hik
          rw [hf, Option.some.injEq] at hk
          rw [← hk]
          exact h rfl r
        · rfl

/-- A valid collection gets the privacy it is given. -/
theorem collectionPrivacyOf_updateCollection_privacy {i : Nat} {k : Collection} (h : db.collections.find? i = some k)
    (privacy : Option Text) :
    (db.updateCollection none i fun k => { k with privacy }).collectionPrivacyOf i =
      some (if db.collectionValid k then privacy else k.privacy) := by
  have hid : k.id = i := (Table.find?_eq_some.mp h).2
  have hvalid : db.collectionValid { k with privacy } = db.collectionValid k := rfl
  rw [updateCollection, h]
  dsimp only
  rw [hvalid]
  by_cases hk : db.collectionValid k = true
  · rw [if_pos hk, hk, Bool.not_true, Bool.false_or]
    split
    · rename_i hsame
      rw [decide_eq_true_eq] at hsame
      rw [collectionPrivacyOf, h, ← hsame]
      rfl
    · rw [collectionPrivacyOf, Table.find?_modify, h, Option.map_some, Option.map_some]
      rw [if_pos (show Keyed.key k = i from hid)]
  · rw [Bool.not_eq_true] at hk
    rw [hk, collectionPrivacyOf]
    simp [h]

theorem collectionPrivacyOf_leaveCollections (u : User) (now : Nat) (cs : List Collectify) (db : Database)
    (k : Nat) :
    (ProjectsController.leaveCollections u now cs db).2.collectionPrivacyOf k = db.collectionPrivacyOf k := by
  induction cs generalizing db with
  | nil => rfl
  | cons c cs ih =>
    unfold ProjectsController.leaveCollections
    rcases authorize_cases (Ability.destroyCollectify db u c) db _ with ⟨-, heq⟩ | ⟨-, heq⟩
    · rw [heq]
      dsimp only
      split
      · rfl
      · split
        · rfl
        · rename_i r hfind db₁ hremove
          have hone : db₁.collectionPrivacyOf k = db.collectionPrivacyOf k := by
            unfold removeFromCollection at hremove
            split at hremove
            · cases hremove
            · cases hremove
              rw [collectionPrivacyOf_updateCollection _ _ (by intro _ _; rfl)]
              rfl
          rw [ih, ← hone]
          split
          · rfl
          · have hnone : ∀ db : Database, (db.destroyActivities none).collectionPrivacyOf k =
                db.collectionPrivacyOf k := fun _ => rfl
            rw [hnone, collectionPrivacyOf_updateCollection _ _ (by intro _ _; rfl)]
    · rw [heq]

theorem touches_leaveCollections (u : User) (now : Nat) (cs : List Collectify) (db : Database) :
    Touches [.collections, .collectifies, .activities] db
      (ProjectsController.leaveCollections u now cs db).2 := by
  induction cs generalizing db with
  | nil => exact .refl _ db
  | cons c cs ih =>
    unfold ProjectsController.leaveCollections
    apply touches_authorize
    have hforget : Touches [.collections, .collectifies, .activities] db (db.destroyActivities (some c.id)) :=
      (touches_activities db _).mono (by decide)
    dsimp only
    split
    · exact hforget
    · split
      · exact hforget
      · rename_i r hfind _ db₁ hremove
        have hone := (touches_removeFromCollection now r c.projectId hremove).mono
          (show _ ⊆ [.collections, .collectifies, .activities] by decide)
        refine (hforget.trans hone).trans (.trans ?_ (ih _))
        refine .ite (fun _ => .refl _ db₁) fun _ => ?_
        exact ((touches_updateCollection db₁ _ _ _).mono (by decide)).trans
          ((touches_activities _ _).mono (by decide))

end Database

/-! ## The theorem -/

namespace Database

/-- No project and no collection changes its privacy. -/
def SamePrivacy (db db' : Database) : Prop :=
  (∀ p, db'.privacyOf p = db.privacyOf p) ∧ db'.collections = db.collections

theorem SamePrivacy.of_touches {db db' : Database} (h : Touches [.images, .videos] db db') :
    SamePrivacy db db' := ⟨fun _ => h.privacyOf (by decide), h .collections (by decide)⟩

theorem SamePrivacy.touchProject {db db' : Database} (h : Touches [.images, .videos] db db') (now i : Nat) :
    SamePrivacy db (db'.touchProject now i) :=
  ⟨fun _ => (privacyOf_touchProject db' now i).trans (h.privacyOf (by decide)),
    h .collections (by decide)⟩

/-- The project of a record the user may create is one of theirs. -/
theorem authored_of_authorOf {db : Database} {u : User} {column : Option Nat}
    (h : Ability.authorOf db u column = some true) : db.Authored u column := by
  rintro p rfl _
  obtain ⟨project, hproject, hauthor⟩ := Option.map_eq_some_iff.mp h
  rw [← (Table.find?_eq_some.mp hproject).2]
  exact hauthor

end Database

namespace ImagesController

open Database

theorem samePrivacy_create (u : User) (now : Nat) (up : Upload) (db : Database) :
    SamePrivacy db (create u now up db).2 := by
  have hafter : ∀ m : Image, SamePrivacy db (afterUpload now m (insertImage db m)).2 := by
    intro m
    unfold afterUpload
    split
    · exact .of_touches (touches_insertImage db m)
    · dsimp only
      have hrow := touches_insertImage db m
      split
      · exact .of_touches (hrow.trans (touches_modifyImage _ m.id _ _))
      · exact .touchProject (hrow.trans (touches_modifyImage _ m.id _ _)) now _
  unfold create
  cases up with
  | web p s o path =>
    rcases authorize_cases (Ability.createImage db u (Upload.image db.images.next (.web p s o path))) db
      (afterUpload now _ (insertImage db _)) with ⟨-, heq⟩ | ⟨-, heq⟩
    · dsimp only
      rw [heq]
      exact hafter _
    · dsimp only
      rw [heq]
      exact .of_touches (.refl _ db)
  | android p s o path => exact hafter _

/-- The position of an image is the last index under which it is listed. -/
theorem rows_sort (ids : List Nat) (db : Database) :
    (sort ids db).2.images.rows = (db.images.rows.map fun m =>
        if m.id ∈ ids then { m with position := some (Rows.lastIdxOf ids m.id : Int) } else m) ∧
      (sort ids db).2.videos = db.videos := by
  have hfrom : ∀ (index : Nat) (ids : List Nat) (db : Database), (sortFrom index ids db).images.rows =
        Rows.writeFrom Image.id (fun index m => { m with position := some (index : Int) }) index ids db.images.rows ∧
      (sortFrom index ids db).videos = db.videos := by
    intro index ids
    induction ids generalizing index with
    | nil => exact fun _ => ⟨rfl, rfl⟩
    | cons i ids ih =>
      intro db
      rw [sortFrom, (ih _ _).1, (ih _ _).2, Rows.writeFrom]
      exact ⟨rfl, rfl⟩
  refine ⟨?_, (hfrom 0 ids db).2⟩
  exact (hfrom 0 ids db).1.trans (Rows.writeFrom_eq (by intro _ _; rfl) (by intro _ _ _; rfl) ids db.images.rows)

theorem touches_sortImages (index : Nat) (ids : List Nat) (db : Database) :
    Touches [.images, .videos] db (sortFrom index ids db) := by
  induction ids generalizing db index with
  | nil => exact .refl _ db
  | cons i ids ih => exact (touches_modifyImage db _ _ _).trans (ih _ _)

end ImagesController

namespace VideosController

open Database

theorem touches_modifyVideo (db : Database) (i : Nat) (f : Video → Video) (hf : ∀ v, (f v).id = v.id) :
    Touches [.images, .videos] db (modifyVideo db i f hf) := touches_media db _ _

theorem samePrivacy_upload (u : User) (now : Nat) (info : VideoInfo) (p : Nat) (v : Video) (db : Database) :
    SamePrivacy db (afterUpload u now info p v (insertVideo db v)).2 := by
  have hinsert : Touches [.images, .videos] db (insertVideo db v) := touches_media db _ _
  have hthumb : Touches [.images, .videos] db (if v.embedUrl.any (!·.isEmpty) then
      modifyVideo (insertVideo db v) v.id (fun w => { w with thumbnailUrl := info.thumbUrl v }) fun _ => rfl
      else insertVideo db v) :=
    .ite (fun _ => hinsert.trans (touches_modifyVideo _ _ _ _)) fun _ => hinsert
  unfold afterUpload
  dsimp only
  have hrows := hthumb.trans (ImagesController.touches_insertImage _ (thumbnail u v (info.thumbUrl v)
    (((insertVideo db v).projectImages p).filter (·.stepId = v.stepId)).length))
  split
  · exact .of_touches (hrows.trans (touches_modifyVideo _ v.id _ _))
  · exact .touchProject (hrows.trans (touches_modifyVideo _ v.id _ _)) now _

theorem samePrivacy_create (u : User) (now : Nat) (info : VideoInfo) (up : Upload) (db : Database) :
    SamePrivacy db (create u now info up db).2 := by
  unfold create
  cases up with
  | form form =>
    dsimp only
    split
    · exact .of_touches (.refl _ db)
    · split
      · exact .of_touches (.refl _ db)
      · rename_i v _ _ project _
        rcases authorize_cases (Ability.createVideo db u { v with id := db.videos.next }) db
          (afterUpload u now info project.id { v with id := db.videos.next }
            (insertVideo db { v with id := db.videos.next })) with ⟨-, heq⟩ | ⟨-, heq⟩
        · rw [heq]
          exact samePrivacy_upload u now info project.id _ db
        · rw [heq]
          exact .of_touches (.refl _ db)
  | android p s user path =>
    dsimp only
    split
    · exact .of_touches (touches_media db _ _)
    · exact samePrivacy_upload u now info _ _ db

end VideosController

namespace MediaAction

open Database

theorem touches_projectPrivacy (u : User) (now i : Nat) (v : Option Text) (db : Database) :
    Touches [.projects, .collections, .collectifies, .activities] db
      (ProjectsController.updatePrivacy u now i v db).2 := by
  unfold ProjectsController.updatePrivacy
  split
  · exact .refl _ db
  · have hupdate := (touches_updateProject db none i fun p => { p with privacy := v }).mono
      (show _ ⊆ [.projects, .collections, .collectifies, .activities] by decide)
    dsimp only
    split
    · exact hupdate.trans ((touches_leaveCollections _ _ _ _).mono (by decide))
    · exact hupdate

theorem touches_collectionPrivacy (i : Nat) (v : Option Text) (db : Database) :
    Touches [.collections, .collectifies] db (CollectionsController.updatePrivacy i v db).2 := by
  unfold CollectionsController.updatePrivacy
  split
  · exact .refl _ db
  · exact touches_updateCollection db _ _ _

section

variable {db : Database} {u : User} {now : Nat} {info : VideosController.VideoInfo}

theorem mediaOutside_sortImages_iff (ids : List Nat) :
    MediaOutside (Own db u) db ((sortImages ids).perform u now info db) ↔ KeepsToOwn u db (.sortImages ids) := by
  obtain ⟨hrows, hvideos⟩ := ImagesController.rows_sort ids db
  have hkeep : ∀ m : Image, (if m.id ∈ ids then { m with position := some (Rows.lastIdxOf ids m.id : Int) } else m).id =
        m.id ∧ (if m.id ∈ ids then { m with position := some (Rows.lastIdxOf ids m.id : Int) } else m).projectId =
        m.projectId := by
    intro m
    split <;> exact ⟨rfl, rfl⟩
  rw [perform, mediaOutside_map_iff (fun m => (hkeep m).1) hrows hvideos, KeepsToOwn]
  refine forall₂_congr fun m _ => ?_
  rw [(hkeep m).2, and_self_iff]
  split
  · rename_i hmem
    rw [imp_iff_right hmem]
    exact or_congr_left ⟨fun hsame => (congrArg Image.position hsame).symm, fun hsame => by rw [← hsame]⟩
  · rename_i hmem
    exact iff_of_true (Or.inl rfl) fun h => absurd h hmem

theorem mediaOutside_destroyImage_iff (target : Text ⊕ Nat) :
    MediaOutside (Own db u) db ((destroyImage target).perform u now info db) ↔ KeepsToOwn u db (.destroyImage target) := by
  cases target with
  | inl path =>
    rw [perform, ImagesController.destroy, ← imageAt, KeepsToOwn]
    cases db.imageAt path with
    | none => exact iff_of_true (.refl _ db) fun _ h => by cases h
    | some m =>
      dsimp only
      simp only [Option.mem_some_iff, forall_eq']
      have hrows : (db.destroyImage m.id).images.rows =
          (db.images.rows.map id).filter fun x => !(db.copies m.id).contains x.id := by
        rw [List.map_id, destroyImage_eq]
        rfl
      have hvideos : (db.destroyImage m.id).videos.rows =
          db.videos.rows.filter fun v => !decide (db.Takes (db.copies m.id) v) := by
        rw [destroyImage_eq]
        rfl
      rw [mediaOutside_delete_iff (fun _ => ⟨rfl, rfl⟩) hrows hvideos]
      exact and_iff_left fun x _ => Or.inl rfl
  | inr i =>
    rw [perform, ImagesController.destroy, KeepsToOwn]
    cases hfind : db.images.find? i with
    | none => exact iff_of_true (.refl _ db) fun _ h => by cases h
    | some m =>
      dsimp only
      simp only [Option.mem_some_iff, forall_eq']
      rcases authorize_cases (Ability.destroyImage db u m) db (ImagesController.destroyById now m db) with
        ⟨hallowed, heq⟩ | ⟨hrefused, heq⟩
      · have hrows := ImagesController.rows_destroyById (Table.find?_eq_some.mp hfind).1 now
        have hkeep : ∀ x : Image,
            (if ImagesController.MovesUp db m x then ImagesController.moveUp x else x).id = x.id ∧
              (if ImagesController.MovesUp db m x then ImagesController.moveUp x else x).projectId = x.projectId := by
          intro x
          split <;> exact ⟨rfl, rfl⟩
        rw [heq, mediaOutside_delete_iff hkeep hrows.1 hrows.2, imp_iff_right hallowed]
        refine and_congr_right' (forall₂_congr fun x _ => ?_)
        rw [ImagesController.moves_iff, or_iff_not_imp_left, not_not]
      · rw [heq]
        exact iff_of_true (.refl _ db) fun h => absurd h hrefused

theorem mediaOutside_createVideo_iff (up : VideosController.Upload) :
    MediaOutside (Own db u) db ((createVideo up).perform u now info db) ↔ KeepsToOwn u db (.createVideo up) := by
  have hmissing : ∀ column : Option Nat, column.bind db.projects.find? = none → db.Authored u column := by
    rintro _ hnone p rfl hexists
    rw [show db.projects.find? p = none from hnone] at hexists
    cases hexists
  rcases VideosController.create_cases u now info up db with ⟨hrefused, heq⟩ | ⟨v, hv, hwritten⟩
  · rw [perform, heq]
    refine iff_of_true (.refl _ db) ?_
    cases up with
    | form form => exact trivial
    | android p s user path => exact hmissing p ((hrefused _ rfl).resolve_right (by simp [VideosController.Upload.allowed]))
  · have hkeeps : KeepsToOwn u db (.createVideo up) ↔ db.Authored u v.projectId := by
      cases up with
      | form form =>
        refine iff_of_true trivial ?_
        rcases hwritten with ⟨hnone, -⟩ | ⟨p, project, -, -, hallowed, -⟩
        · exact hmissing _ hnone
        · exact authored_of_authorOf (u := u) (beq_iff_eq.mp hallowed)
      | android p s user path =>
        cases hv
        exact Iff.rfl
    rw [hkeeps, perform]
    rcases hwritten with ⟨-, heq⟩ | ⟨p, project, hp, -, -, himages, -, hvideos, -⟩
    · have hrows : (VideosController.insertVideo db v).videos.rows = db.videos.rows ++ [{ v with id := db.videos.next }] :=
        rfl
      rw [heq, MediaOutside, hrows, show (VideosController.insertVideo db v).images = db.images from rfl,
        and_iff_right (.refl _ _ _)]
      exact Rows.outside_concat_iff
    · rw [MediaOutside, himages, hvideos]
      exact (and_congr Rows.outside_concat_iff Rows.outside_concat_iff).trans (and_self_iff)

/-- The media of the projects of other authors stay as they are. -/
theorem mediaOutside_perform_iff {a : MediaAction} (ha : a.onMedia = true) :
    MediaOutside (Own db u) db (a.perform u now info db) ↔ a.KeepsToOwn u db := by
  -- the web asks the ability for an upload and a deletion; elsewhere the rows say it
  cases a with
  | projectPrivacy i v => cases ha
  | collectionPrivacy i v => cases ha
  | createImage up =>
    rcases ImagesController.create_cases u now up db with ⟨hrefused, heq⟩ | ⟨hallowed, hrows, -, hvideos, -⟩
    · rw [perform, heq]
      cases up with
      | web p s o path => exact iff_of_true (.refl _ db) trivial
      | android p s o path => cases hrefused
    · rw [perform, mediaOutside_concat_iff hrows hvideos]
      cases up with
      | web p s o path => exact iff_of_true (authored_of_authorOf (beq_iff_eq.mp hallowed)) trivial
      | android p s o path => exact Iff.rfl
  | updateImage i params =>
    rw [perform, ImagesController.update, KeepsToOwn]
    cases hm : db.images.find? i with
    | none => exact iff_of_true (.refl _ db) fun _ h => by cases h
    | some m =>
      dsimp only
      simp only [Option.mem_some_iff, forall_eq']
      cases m.stepId.bind fun s => if s < 0 then none else db.steps.find? s.toNat with
      | none => exact iff_of_true (.refl _ db) fun h => by cases h
      | some s =>
        rw [mediaOutside_modifyImage_iff hm]
        exact (imp_iff_right rfl).symm
  | sortImages ids =>
    exact mediaOutside_sortImages_iff ids
  | rotateImage i r =>
    rw [perform, ImagesController.rotate, KeepsToOwn]
    cases hm : db.images.find? i with
    | none => exact iff_of_true (.refl _ db) fun _ h => by cases h
    | some m =>
      dsimp only
      simp only [Option.mem_some_iff, forall_eq']
      rw [mediaOutside_modifyImage_iff hm, and_self_iff]
      refine or_congr_left ⟨fun hsame => ?_, fun hsame => ?_⟩
      · exact (congrArg Image.rotation hsame).symm
      · rw [← hsame]
  | destroyImage target =>
    exact mediaOutside_destroyImage_iff target
  | createVideo up =>
    exact mediaOutside_createVideo_iff up

end

/-- The actions on images and videos change no privacy. -/
theorem samePrivacy_perform (u : User) (now : Nat) (info : VideosController.VideoInfo) (db : Database)
    {a : MediaAction} (ha : a.onMedia = true) : SamePrivacy db (a.perform u now info db) := by
  cases a with
  | projectPrivacy i v => cases ha
  | collectionPrivacy i v => cases ha
  | createImage up => exact ImagesController.samePrivacy_create u now up db
  | updateImage i params =>
    refine .of_touches ?_
    rw [perform, ImagesController.update]
    split
    · exact .refl _ db
    · split
      · exact .refl _ db
      · exact ImagesController.touches_modifyImage db _ _ _
  | sortImages ids => exact .of_touches (ImagesController.touches_sortImages 0 ids db)
  | rotateImage i r =>
    refine .of_touches ?_
    rw [perform, ImagesController.rotate]
    split
    · exact .refl _ db
    · exact ImagesController.touches_modifyImage db _ _ _
  | destroyImage target => exact .of_touches (ImagesController.touches_destroy u now target db)
  | createVideo up => exact VideosController.samePrivacy_create u now info up db

theorem privacyOf_projectPrivacy (u : User) (now : Nat) {i p : Nat} (v : Option Text) (db : Database)
    (h : i ≠ p) : (ProjectsController.updatePrivacy u now i v db).2.privacyOf p = db.privacyOf p := by
  unfold ProjectsController.updatePrivacy
  split
  · rfl
  · have hupdate : (db.updateProject none i fun p => { p with privacy := v }).privacyOf p = db.privacyOf p :=
      privacyOf_updateProject db none (fun _ => rfl) fun e => absurd e h
    dsimp only
    split
    · rw [(touches_leaveCollections _ _ _ _).privacyOf (by decide), hupdate]
    · exact hupdate

theorem collectionPrivacyOf_projectPrivacy (u : User) (now i k : Nat) (v : Option Text) (db : Database) :
    (ProjectsController.updatePrivacy u now i v db).2.collectionPrivacyOf k = db.collectionPrivacyOf k := by
  unfold ProjectsController.updatePrivacy
  split
  · rfl
  · have hupdate := touches_updateProject db none i fun p => { p with privacy := v }
    dsimp only
    split
    · rw [collectionPrivacyOf_leaveCollections]
      exact collectionPrivacyOf_congr (hupdate .collections (by decide)) k
    · exact collectionPrivacyOf_congr (hupdate .collections (by decide)) k

/-- Between `db` and `db'` only privacy and media of the user's own projects, and the privacy of the
user's own collections, were written. -/
def WritesOwn (u : User) (db db' : Database) : Prop :=
  (∀ p, (db.projects.find? p).isSome = true →
    db'.privacyOf p ≠ db.privacyOf p ∨ db'.projectImages p ≠ db.projectImages p ∨
      db'.projectVideos p ≠ db.projectVideos p → db.author p u.id = true) ∧
    ∀ k, db'.collectionPrivacyOf k ≠ db.collectionPrivacyOf k →
      ∃ c, db.collections.find? k = some c ∧ c.userId = some u.id

theorem writesOwn_iff {db db' : Database} {u : User} : WritesOwn u db db' ↔
    (∀ p, (db.projects.find? p).isSome = true → db'.privacyOf p ≠ db.privacyOf p → db.author p u.id = true) ∧
      MediaOutside (Own db u) db db' ∧
      ∀ k, db'.collectionPrivacyOf k ≠ db.collectionPrivacyOf k →
        ∃ c, db.collections.find? k = some c ∧ c.userId = some u.id := by
  have hmedia : MediaOutside (Own db u) db db' ↔ ∀ p, (db.projects.find? p).isSome = true →
      db'.projectImages p ≠ db.projectImages p ∨ db'.projectVideos p ≠ db.projectVideos p →
        db.author p u.id = true := by
    constructor
    · intro h p hp hdiff
      by_contra hauthor
      have hout : ¬ Own db u p := fun hown => hauthor (hown hp)
      rcases hdiff with hdiff | hdiff
      · exact hdiff (h.1 p hout)
      · exact hdiff (h.2 p hout)
    · intro h
      refine ⟨fun q hq => ?_, fun q hq => ?_⟩
      · by_contra hdiff
        exact hq fun hexists => h q hexists (Or.inl hdiff)
      · by_contra hdiff
        exact hq fun hexists => h q hexists (Or.inr hdiff)
  rw [WritesOwn, hmedia, ← and_assoc]
  refine and_congr_left' ⟨fun h => ⟨fun p hp hdiff => h p hp (Or.inl hdiff), fun p hp hdiff => h p hp (Or.inr hdiff)⟩, ?_⟩
  rintro ⟨hprivacy, hmedia⟩ p hp (hdiff | hdiff)
  · exact hprivacy p hp hdiff
  · exact hmedia p hp hdiff

theorem writesOwn_projectPrivacy_iff (db : Database) (u : User) (now i : Nat) (v : Option Text) :
    WritesOwn u db (ProjectsController.updatePrivacy u now i v db).2 ↔
      ∀ project ∈ db.projects.find? i, db.author i u.id = true ∨ project.privacy = v ∨ project.valid = false := by
  have hmedia : MediaOutside (Own db u) db (ProjectsController.updatePrivacy u now i v db).2 :=
    .of_touches (touches_projectPrivacy u now i v db) (by decide)
  have hcollections : ∀ k, (ProjectsController.updatePrivacy u now i v db).2.collectionPrivacyOf k ≠
      db.collectionPrivacyOf k → ∃ c, db.collections.find? k = some c ∧ c.userId = some u.id := fun k hdiff =>
    absurd (collectionPrivacyOf_projectPrivacy u now i k v db) hdiff
  rw [writesOwn_iff, and_iff_left ⟨hmedia, hcollections⟩]
  cases hproject : db.projects.find? i with
  | none =>
    refine iff_of_true (fun p hp hdiff => ?_) fun _ h => by cases h
    rw [ProjectsController.updatePrivacy, hproject] at hdiff
    exact absurd rfl hdiff
  | some project =>
    simp only [Option.mem_some_iff, forall_eq']
    have hafter : (ProjectsController.updatePrivacy u now i v db).2.privacyOf i =
        some (if project.valid then v else project.privacy) := by
      rw [← privacyOf_updateProject_privacy hproject, ProjectsController.updatePrivacy, hproject]
      dsimp only
      split
      · exact (touches_leaveCollections _ _ _ _).privacyOf (by decide)
      · rfl
    have hbefore : db.privacyOf i = some project.privacy := by
      rw [privacyOf, hproject]
      rfl
    have hsame : (ProjectsController.updatePrivacy u now i v db).2.privacyOf i = db.privacyOf i ↔
        project.privacy = v ∨ project.valid = false := by
      rw [hafter, hbefore, Option.some.injEq]
      cases project.valid with
      | true => simp [eq_comm]
      | false => simp
    rw [← hsame]
    constructor
    · intro h
      by_cases hdiff : (ProjectsController.updatePrivacy u now i v db).2.privacyOf i = db.privacyOf i
      · exact Or.inr hdiff
      · exact Or.inl (h i (by rw [hproject]; rfl) hdiff)
    · intro h p _ hdiff
      by_cases hip : i = p
      · subst hip
        exact h.resolve_right hdiff
      · exact absurd (privacyOf_projectPrivacy u now v db hip) hdiff

theorem writesOwn_collectionPrivacy_iff (db : Database) (u : User) (i : Nat) (v : Option Text) :
    WritesOwn u db (CollectionsController.updatePrivacy i v db).2 ↔
      ∀ k ∈ db.collections.find? i, k.userId = some u.id ∨ k.privacy = v ∨ db.collectionValid k = false := by
  have htouches := touches_collectionPrivacy i v db
  have hmedia : MediaOutside (Own db u) db (CollectionsController.updatePrivacy i v db).2 :=
    .of_touches htouches (by decide)
  have hprivacy : ∀ p, (db.projects.find? p).isSome = true →
      (CollectionsController.updatePrivacy i v db).2.privacyOf p ≠ db.privacyOf p → db.author p u.id = true :=
    fun p _ hdiff => absurd (htouches.privacyOf (by decide)) hdiff
  rw [writesOwn_iff, and_iff_right hprivacy, and_iff_right hmedia, CollectionsController.updatePrivacy]
  cases hc : db.collections.find? i with
  | none => exact iff_of_true (fun k hdiff => absurd rfl hdiff) fun _ h => by cases h
  | some c =>
    simp only [Option.mem_some_iff, forall_eq']
    have hafter := collectionPrivacyOf_updateCollection_privacy hc v
    have hbefore : db.collectionPrivacyOf i = some c.privacy := by
      rw [collectionPrivacyOf, hc]
      rfl
    have hsame : (db.updateCollection none i fun k => { k with privacy := v }).collectionPrivacyOf i =
        db.collectionPrivacyOf i ↔ c.privacy = v ∨ db.collectionValid c = false := by
      rw [hafter, hbefore, Option.some.injEq]
      cases db.collectionValid c with
      | true => simp [eq_comm]
      | false => simp
    rw [← hsame]
    constructor
    · intro h
      by_cases hdiff : (db.updateCollection none i fun k => { k with privacy := v }).collectionPrivacyOf i =
          db.collectionPrivacyOf i
      · exact Or.inr hdiff
      · obtain ⟨c', hc', howner⟩ := h i hdiff
        rw [hc, Option.some.injEq] at hc'
        exact Or.inl (hc' ▸ howner)
    · intro h k hdiff
      by_cases hik : i = k
      · subst hik
        exact ⟨c, hc, h.resolve_right hdiff⟩
      · exact absurd (collectionPrivacyOf_updateCollection db none fun e => absurd e hik) hdiff

/-- A video library that knows no address. -/
def noInfo : VideosController.VideoInfo := ⟨fun _ => none, fun _ => none⟩

end MediaAction
