import BuildInProgress.MediaRows

/-!
# The image that stands for a project

`Project#default_image` and `Project#homepage_image` choose one image for the listing pages.  A
lookup with `find` raises when the row is gone; the outer `none` stands for that exception, the inner
one for a project without such an image.
-/

namespace Database

/-- `DESC` puts rows without a value first. -/
def descends {α : Type} (lt : α → α → Bool) : Option α → Option α → Bool
  | none, _ => true
  | some _, none => false
  | some x, some y => !lt x y

/-- `image.step`, when the step exists. -/
def imageStep (db : Database) (m : Image) : Option Step :=
  m.stepId.bind fun s => if s < 0 then none else db.steps.find? s.toNat

/-- `joins(:step).order('steps.published_on DESC').order('position DESC')` -/
def newestFirst (db : Database) (ms : List Image) : List Image :=
  let joined := ms.filterMap fun m => (db.imageStep m).map fun s => (s, m)
  (joined.insertionSort fun a b =>
    if a.1.publishedOn = b.1.publishedOn then descends (· < ·) a.2.position b.2.position
    else descends (· < ·) a.1.publishedOn b.1.publishedOn).map Prod.snd

/-- `Image.unscoped.where(:project_id => id).where("image_path IS NOT NULL")` -/
def storedImages (db : Database) (p : Nat) : List Image :=
  (db.projectImages p).filter (·.imagePath.isSome)

/-- `Image.find(i)` -/
def findImage (db : Database) (i : Nat) : Option (Option Image) := (db.images.find? i).map some

/-- The image itself, or the one it was remixed from. -/
def originalOf (db : Database) (m : Image) : Option (Option Image) :=
  match m.originalId with
  | none => some (some m)
  | some i => db.findImage i

/-- `Project#default_image` -/
def defaultImage (db : Database) (p : Project) : Option (Option Image) :=
  if !p.isRemix then some (db.newestFirst (db.storedImages p.id)).head?
  else if (db.projectImages p.id).length > 0 then
    let own := (db.storedImages p.id).filter (·.originalId.isNone)
    if own.length > 0 then some (db.newestFirst own).head?
    else
      match (db.newestFirst (db.storedImages p.id)).head? with
      | none => none -- `nil.original_id`
      | some m => db.originalOf m
  else some none

/-- `Project#homepage_image` -/
def homepageImage (db : Database) (p : Project) : Option (Option Image) :=
  match p.coverImage with
  | some i =>
    match db.images.find? i with
    | none => none
    | some m => db.originalOf m
  | none =>
    match (db.newestFirst ((db.storedImages p.id).filter (·.videoId.isNone))).head? with
    | none => some none
    | some m => db.originalOf m

/-- `Project#last_step_with_images_no_vid` -/
def lastStepWithImagesNoVid (db : Database) (p : Project) : Option (Option Step) :=
  match db.homepageImage p with
  | none => none
  | some none => some none
  | some (some m) =>
    if !p.isRemix then some (db.imageStep m)
    else
      -- `steps.joins(:images).order('steps.published_on DESC').first`
      some (((db.projectSteps p.id).filter fun s => (db.stepImages s.id).length > 0).insertionSort
        fun a b => descends (· < ·) a.publishedOn b.publishedOn).head?

end Database
