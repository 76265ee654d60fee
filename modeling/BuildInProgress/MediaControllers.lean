import BuildInProgress.Remix

/-!
# The image and video controllers

`app/controllers/images_controller.rb` and `videos_controller.rb`.  Every action needs a signed-in
user `u`, but most of them ask for no permission.  What an action has written before an exception
stays written.  The upload of files is left out: an image or a video is its row.
-/

open Text Ancestry

/-- `attr_accessible` of `Image`, without the uploads and the sound. -/
inductive ImageAttr where
  | projectId (v : Option Nat)
  | stepId (v : Option Int)
  | imagePath (v : Option Text)
  | caption (v : Option Text)
  | position (v : Option Int)
  | saved (v : Option Bool)
  | videoId (v : Option Nat)
  | originalId (v : Option Nat)
  | userId (v : Option Nat)
  | s3Filepath (v : Option Text)
  | rotation (v : Option Int)
  | soundId (v : Option Nat)
  deriving DecidableEq, Repr

namespace ImageAttr

def assign (m : Image) : ImageAttr → Image
  | projectId v => { m with projectId := v }
  | stepId v => { m with stepId := v }
  | imagePath v => { m with imagePath := v }
  | caption v => { m with caption := v }
  | position v => { m with position := v }
  | saved v => { m with saved := v }
  | videoId v => { m with videoId := v }
  | originalId v => { m with originalId := v }
  | userId v => { m with userId := v }
  | s3Filepath v => { m with s3Filepath := v }
  | rotation v => { m with rotation := v }
  | soundId v => { m with soundId := v }

theorem assign_id (m : Image) (a : ImageAttr) : (a.assign m).id = m.id := by
  cases a <;> rfl

theorem foldl_assign_id (m : Image) (params : List ImageAttr) :
    (params.foldl assign m).id = m.id := by
  induction params generalizing m with
  | nil => rfl
  | cons a params ih => rw [List.foldl_cons, ih, assign_id]

end ImageAttr

namespace ImagesController

/-! ## Uploading -/

/-- The two shapes of an upload: the web form and the Android app. -/
inductive Upload where
  | web (projectId : Nat) (stepId : Int) (userId : Nat) (imagePath : Text)
  | android (projectId : Option Nat) (stepId : Option Int) (userId : Option Nat)
      (imagePath : Option Text)
  deriving DecidableEq, Repr

/-- The record an upload builds. -/
def Upload.image (id : Nat) : Upload → Image
  | web p s u path =>
    ⟨id, some s, some p, none, none, none, some false, none, none, some u,
      some (gsub "%2F".toList ['/'] path), none, none⟩
  | android p s u path =>
    ⟨id, s, p, path, none, none, some false, none, none, u, none, none, none⟩

def insertImage (db : Database) (m : Image) : Database :=
  { db with images := db.images.insert (fun i => { m with id := i }) (fun _ => rfl) }

def modifyImage (db : Database) (i : Nat) (f : Image → Image) (hf : ∀ m, (f m).id = m.id) : Database :=
  { db with images := db.images.modify i f hf }

/-- The number of images beside the new one: those of its step, or the drafts of its user. -/
def siblingCount (db : Database) (m : Image) : Option Nat :=
  if m.stepId = some (-1) then
    (m.projectId.bind db.projects.find?).map fun project =>
      ((db.projectImages project.id).filter fun x =>
        x.stepId == some (-1) && m.userId.isSome && x.userId == m.userId).length
  else
    (m.stepId.bind fun s => if s < 0 then none else db.steps.find? s.toNat).map fun s =>
      (db.stepImages s.id).length

/-- What `create` does with the saved image. -/
def afterUpload (now : Nat) (m : Image) (db : Database) : Outcome × Database :=
  match siblingCount db m with
  | none => (.notFound, db)
  | some n =>
    let db := modifyImage db m.id (fun m => { m with position := some ((n : Int) - 1) }) (fun _ => rfl)
    match m.projectId.bind db.projects.find? with
    | none => (.error, db)
    | some project => (.ok, db.touchProject now project.id)

/-- `POST /images` -/
def create (u : User) (now : Nat) (up : Upload) (db : Database) : Outcome × Database :=
  let m := up.image db.images.next
  match up with
  | .web _ _ _ _ => authorize (Ability.createImage db u m) db (afterUpload now m (insertImage db m))
  | .android _ _ _ _ => afterUpload now m (insertImage db m)

/-! ## Changing -/

/-- `rotate`; the orientation 8 of a photo is a quarter turn the other way. -/
def rotate (i : Nat) (rotation : Option Int) (db : Database) : Outcome × Database :=
  match db.images.find? i with
  | none => (.notFound, db)
  | some m =>
    (.ok, modifyImage db m.id
      (fun m => { m with rotation := if rotation = some 8 then some 270 else rotation })
      (fun _ => rfl))

/-- `PUT /images/:id`; an image without a step raises before anything is written. -/
def update (i : Nat) (params : List ImageAttr) (db : Database) : Outcome × Database :=
  match db.images.find? i with
  | none => (.notFound, db)
  | some m =>
    match m.stepId.bind fun s => if s < 0 then none else db.steps.find? s.toNat with
    | none => (.error, db)
    | some _ =>
      (.ok, modifyImage db m.id (fun m => params.foldl ImageAttr.assign m)
        (fun m => ImageAttr.foldl_assign_id m params))

/-- `Image.update_all({position: index}, {id: id})` for the listed ids. -/
def sortFrom : Nat → List Nat → Database → Database
  | _, [], db => db
  | index, i :: ids, db =>
    sortFrom (index + 1) ids
      (modifyImage db i (fun m => { m with position := some index }) (fun _ => rfl))

/-- `POST /images/sort` -/
def sort (ids : List Nat) (db : Database) : Outcome × Database := (.ok, sortFrom 0 ids db)

/-! ## Destroying -/

/-- The images that were remixed from `i` go first; one whose video is gone raises. -/
def destroyRemixes : List Image → Database → Bool × Database
  | [], db => (true, db)
  | m :: ms, db =>
    if m.videoId.isSome then
      match db.videos.rows.find? (·.imageId = some m.id) with
      | none => (false, db)
      | some v =>
        destroyRemixes ms
          (({ db with videos := db.videos.filter (·.id ≠ v.id) } : Database).destroyImage m.id)
    else destroyRemixes ms (db.destroyImage m.id)

/-- The images in `beside` behind position `k` move up by one. -/
def closeGap (beside : Image → Bool) (k : Int) (db : Database) : Database :=
  { db with
    images := db.images.map (fun m =>
      match m.position with
      | some x => if beside m && x > k then { m with position := some (x - 1) } else m
      | none => m) (fun m => by
        cases m.position with
        | none => rfl
        | some x => dsimp only; split <;> rfl) }

/-- The images beside `m`: of its step, or the drafts of its project.  None when the step is gone. -/
def siblings (db : Database) (m : Image) : Option (Image → Bool) :=
  if m.stepId = some (-1) then
    some fun x => x.projectId == m.projectId && x.stepId == some (-1)
  else
    (m.stepId.bind fun s => if s < 0 then none else db.steps.find? s.toNat).map fun s =>
      fun x => x.stepId == some (s.id : Int)

/-- `set project to new unlisted if necessary`, while the image is still there. -/
def unlistWithoutImages (now : Nat) (m : Image) (db : Database) : Database :=
  match m.projectId with
  | none => db
  | some p =>
    if (db.projectImages p).length = 0 then
      db.updateProject (some now) p fun r => { r with privacy := none }
    else db

/-- `destroy` by id, once it is allowed. -/
def destroyById (now : Nat) (m : Image) (db : Database) : Outcome × Database :=
  let r := if m.originalId.isSome then (true, db)
    else destroyRemixes ((db.images.rows.filter (·.originalId = some m.id)).insertionSort
      (Database.imageBefore · ·)) db
  if !r.1 then (.error, r.2)
  else
    match siblings r.2 m, m.position with
    | some beside, some k =>
      let db := r.2
      let db := if k < (db.images.rows.filter beside).length then closeGap beside k db else db
      let db := unlistWithoutImages now m db
      (.ok, db.destroyImage m.id)
    | _, _ => (.error, r.2)

/-- `DELETE /images/:id`, or with the address of the file. -/
def destroy (u : User) (now : Nat) (target : Text ⊕ Nat) (db : Database) : Outcome × Database :=
  match target with
  | .inl path =>
    match ((db.images.rows.filter (·.s3Filepath = some path)).insertionSort
        (Database.imageBefore · ·)).head? with
    | none => (.error, db)
    | some m => (.ok, db.destroyImage m.id)
  | .inr i =>
    match db.images.find? i with
    | none => (.notFound, db)
    | some m => authorize (Ability.destroyImage db u m) db (destroyById now m db)

end ImagesController

namespace VideosController

/-- What the video library answers: the address to embed and the address of a thumbnail. -/
structure VideoInfo where
  embedUrl : Text → Option Text
  thumbUrl : Video → Option Text

/-- A submitted video form, or the parameters of the Android app. -/
inductive Upload where
  | form (video : Video)
  | android (projectId : Option Nat) (stepId : Option Int) (userId : Option Nat)
      (videoPath : Option Text)
  deriving DecidableEq, Repr

def insertVideo (db : Database) (v : Video) : Database :=
  { db with videos := db.videos.insert (fun i => { v with id := i }) (fun _ => rfl) }

def modifyVideo (db : Database) (i : Nat) (f : Video → Video) (hf : ∀ v, (f v).id = v.id) : Database :=
  { db with videos := db.videos.modify i f hf }

/-- The image that shows a video. -/
def thumbnail (u : User) (v : Video) (path : Option Text) (position : Nat) : Image :=
  ⟨0, v.stepId, v.projectId, path, none, some position, some true, some v.id, none, some u.id, none,
    none, none⟩

/-- What `create` does with the saved video of the project `p`. -/
def afterUpload (u : User) (now : Nat) (info : VideoInfo) (p : Nat) (v : Video) (db : Database) :
    Outcome × Database :=
  let position := ((db.projectImages p).filter (·.stepId = v.stepId)).length
  let embedded := v.embedUrl.any (!·.isEmpty)
  let thumb := info.thumbUrl v
  let db := if embedded then
    modifyVideo db v.id (fun v => { v with thumbnailUrl := thumb }) (fun _ => rfl) else db
  let image := db.images.next
  let db := ImagesController.insertImage db (thumbnail u v thumb position)
  let db := modifyVideo db v.id (fun v => { v with imageId := some image }) (fun _ => rfl)
  match v.projectId.bind db.projects.find? with
  | none => (.error, db)
  | some project => (.ok, db.touchProject now project.id)

/-- The address to embed replaces the submitted one; an unknown address raises. -/
def embedded (info : VideoInfo) (v : Video) : Option Video :=
  if v.embedUrl.any (!blank ·) then
    (v.embedUrl.bind info.embedUrl).map fun url => { v with embedUrl := some url }
  else some v

/-- `POST /videos` -/
def create (u : User) (now : Nat) (info : VideoInfo) (up : Upload) (db : Database) :
    Outcome × Database :=
  match up with
  | .form form =>
    match embedded info form with
    | none => (.error, db)
    | some v =>
      match v.projectId.bind db.projects.find? with
      | none => (.notFound, db)
      | some project =>
        let v := { v with id := db.videos.next }
        authorize (Ability.createVideo db u v) db
          (afterUpload u now info project.id v (insertVideo db v))
  | .android p s user path =>
    let v : Video := ⟨db.videos.next, s, p, none, none, path, none, some true, user, none⟩
    let db := insertVideo db v
    match p.bind db.projects.find? with
    | none => (.notFound, db)
    | some project => afterUpload u now info project.id v db

end VideosController

namespace Database

/-- The project of `oneProject` with a step and an image of it. -/
def oneImage (title : Text) (privacy : Option Text) : Database :=
  { oneProject title privacy with
    steps := .ofRows [StepsController.blankStep 1 1 0] 2 (by decide)
    images := .ofRows [⟨1, some 1, some 1, some "a.jpg".toList, none, some 0, some true, none, none, some 1, none,
      none, none⟩] 2 (by decide) }

end Database
