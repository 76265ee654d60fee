import Mathlib.Data.String.Basic
import BuildInProgress.ProjectImages
import BuildInProgress.ProjectUrls

/-!
# The pages of a project

The actions that only show a project: `StepsController#index` and `#show`, and `#embed`, `#gallery`,
`#blog`, `#export`, `#export_txt` and `#check_privacy` of the project controller.  A response is what
the view or the file is made from; the markup around it is the same for every project.  The fetching
of files and the removal of markup are parameters.
-/

open Text Ancestry

/-- What a browser gets back. -/
inductive Response where
  /-- the page about missing permissions -/
  | unauthorized
  /-- the sign-in form of `authenticate_user!` -/
  | signIn
  | notFound
  /-- an exception that nothing rescues -/
  | error
  | index (project : Project) (steps : List Step) (images : List Image)
  | step (project : Project) (step : Step) (images : List Image)
  | embed (title : Text) (description : Option Text) (steps : List Step) (carousel : List Image)
  | gallery (title : Text) (authors : List User) (labels : List (Step × List Nat))
      (shown : List (Step × List (Image × Option Video)))
  | blog (title : Text) (cover : Option Image) (authors : List User) (labels : List (Step × List Nat))
      (description : Option Text) (shown : List (Step × List (Image × Option Video)))
  | archive (name : Text) (entries : List (Text × Text))
  | text (contents : Text)
  | json (name : Option Text) (privacy : Text)
  deriving DecidableEq, Repr

namespace Database

/-- `order(:published_on)`, rows without a date last. -/
def byPublication (ss : List Step) : List Step :=
  ss.insertionSort fun a b => !descends (· < ·) a.publishedOn b.publishedOn || a.publishedOn == b.publishedOn

/-- `steps.not_labels.order("published_on")` -/
def notLabels (db : Database) (p : Nat) : List Step :=
  byPublication ((db.projectSteps p).filter (·.label.isNone))

/-- The labels of the process map, each with the steps it is for. -/
def stepLabels (db : Database) (p : Nat) : List (Step × List Nat) :=
  (byPosition ((db.projectSteps p).filter (·.label = some true))).map fun l =>
    if db.steps.rows.any (·.ancestry = some l.childAncestry) then
      (l, (db.steps.rows.filter l.isDescendant).map Step.id)
    else (l, (ancestorIds l.ancestry).getLast?.toList)

/-- `step.images.order(:position)`, or the images they were remixed from, with their videos.  A
missing original or a missing video raises. -/
def shownImages (db : Database) (s : Step) : Option (List (Image × Option Video)) :=
  ((db.stepImages s.id).insertionSort (imageBefore · ·)).mapM fun m =>
    match db.originalOf m with
    | some (some m) =>
      if m.videoId.isSome then
        (db.videos.rows.find? (·.imageId = some m.id)).map fun v => (m, some v)
      else some (m, none)
    | _ => none

/-- `users.order("username ASC")` -/
def authorsByName (db : Database) (p : Nat) : List User :=
  (db.projectUsers p).insertionSort fun a b => a.username ≤ b.username

end Database

namespace StepsController

/-- The repair of `index`: the steps at position `-1` go below the last step.  A last step without an
ancestry, or none at all, raises. -/
def fixPositions (now p : Nat) : List Step → Int → Database → Bool × Database
  | [], _, db => (true, db)
  | s :: ss, start, db =>
    match findByPosition db p start with
    | none => (false, db)
    | some last =>
      match last.ancestry with
      | none => (false, db)
      | some a =>
        let s := { s with ancestry := some (a ++ '/' :: toS last.id) }
        let db := (db.saveStep (some now) s).getD db
        let s := { s with position := start + 1 }
        fixPositions now p ss (start + 1) ((db.saveStep (some now) s).getD db)

/-- `GET /projects/:project_id/steps` -/
def index (viewer : Option User) (now p : Nat) (db : Database) : Response × Database :=
  match db.projects.find? p with
  | none => (.notFound, db)
  | some project =>
    if !Ability.readProject db viewer project then (.unauthorized, db)
    else
      let broken := ((db.projectSteps p).filter (·.position = -1)).insertionSort (·.createdAt ≤ ·.createdAt)
      let start := ((db.orderedSteps p).map (·.position)).getLast?
      let r := if broken.isEmpty then (true, db) else fixPositions now p broken (start.getD 0) db
      if r.1 then (.index project (r.2.orderedSteps p) (r.2.projectImages p), r.2) else (.error, r.2)

/-- `GET /projects/:project_id/steps/:id` -/
def «show» (viewer : Option User) (p : Nat) (id : Int) (db : Database) : Response :=
  match db.projects.find? p with
  | none => .notFound
  | some project =>
    if !Ability.readProject db viewer project then .unauthorized
    else
      match findByPosition db p id with
      | none => .error
      | some s => .step project s ((db.projectImages p).filter (·.stepId = some (s.id : Int)))

end StepsController

namespace ProjectsController

/-- The files behind addresses, and texts without their markup. -/
structure Outside where
  read : Text → Option Text
  sanitize : Text → Text

/-- The carousel: the last step with images first, then at most twenty more. -/
def carousel (db : Database) (p : Nat) (last : Step) : List Image :=
  let plain (s : Step) :=
    ((db.stepImages s.id).filter (·.videoId.isNone)).insertionSort (Database.imageBefore · ·)
  let others := Database.byPublication ((db.projectSteps p).filter (·.id ≠ last.id))
  (others.flatMap plain).foldl (fun all m => if all.length > 19 then all else all ++ [m]) (plain last)

/-- `GET /projects/:id/embed` -/
def embed (p : Nat) (db : Database) : Response :=
  match db.projects.find? p with
  | none => .notFound
  | some project =>
    match db.lastStepWithImagesNoVid project with
    | none => .error
    | some last =>
      .embed project.title project.description (db.orderedSteps p) (last.elim [] (carousel db p))

/-- `GET /projects/:id/gallery` -/
def gallery (p : Nat) (db : Database) : Response :=
  match db.projects.find? p with
  | none => .notFound
  | some project =>
    match (Database.byPublication (db.projectSteps p)).mapM fun s => (db.shownImages s).map (s, ·) with
    | none => .error
    | some shown => .gallery project.title (db.authorsByName p) (db.stepLabels p) shown

/-- `GET /projects/:id/blog`; a step without a publication date raises. -/
def blog (p : Nat) (db : Database) : Response :=
  match db.projects.find? p with
  | none => .notFound
  | some project =>
    match db.homepageImage project, (db.notLabels p).mapM fun s =>
        if s.publishedOn.isSome then (db.shownImages s).map (s, ·) else none with
    | some cover, some shown =>
      .blog project.title cover (db.projectUsers p) (db.stepLabels p) project.description shown
    | _, _ => .error

/-- `design_files` -/
structure DesignFile where
  id : Nat
  stepId : Option Nat
  designFilePath : Text
  deriving DecidableEq, Repr

/-- How the reading of an address ends. -/
inductive Fetched where
  | file (contents : Text)
  /-- `OpenURI::HTTPError` -/
  | httpError
  /-- any other exception -/
  | failed
  deriving DecidableEq, Repr

/-- What an export finds outside of the database: the names of the files that can be created, the design files, the
addresses of uploads, and what is there. -/
structure Storage where
  creates : Text → Bool
  designFiles : List DesignFile
  imageUrl : Image → Text
  videoUrl : Video → Text
  designFileUrl : DesignFile → Text
  read : Text → Fetched
  sanitize : Text → Text

/-- A slash leads to a folder that is not there, uploads are read where their paths say, and there are no design
files. -/
def Outside.storage (out : Outside) : Storage where
  creates := fun name => !name.contains '/'
  designFiles := []
  imageUrl := fun m => m.imagePath.getD []
  videoUrl := fun v => v.videoPath.getD []
  designFileUrl := DesignFile.designFilePath
  read := fun path => match out.read path with
    | some contents => .file contents
    | none => .httpError
  sanitize := out.sanitize

/-- `URI.parse(url).path` -/
def uriPath (url : Text) : Text :=
  let t := url.takeWhile fun c => c != '?' && c != '#'
  match t.findIdx? (· == ':') with
  | none => t
  | some i => (t.drop (i + 3)).dropWhile (· != '/')

/-- `File.basename` -/
def basename (path : Text) : Text :=
  let t := path.rdropWhile (· == '/')
  if t.isEmpty then path.take 1 else afterLast '/' t

/-- `File.basename(URI.parse(url).path)` -/
def filename (url : Text) : Text := basename (uriPath url)

/-- The name of a file of a step in the archive. -/
def entryName (n : Nat) (s : Step) (filename : Text) : Text := toS n ++ " - ".toList ++ s.name ++ '/' :: filename

/-- The archive with the number of the next folder, and whether the step has anything in it. -/
structure Archive where
  stepNum : Nat
  stepIncrement : Bool
  entries : List (Text × Text)
  deriving DecidableEq, Repr

namespace Archive

/-- `put_next_entry` and `print` -/
def put (x : Archive) (s : Step) (filename contents : Text) : Archive :=
  { x with stepIncrement := true, entries := x.entries ++ [(entryName x.stepNum s filename, contents)] }

end Archive

/-- The address of an image that is no video: of the upload, else of the direct upload, else nothing. -/
def imgPath (st : Storage) (m : Image) : Option Text :=
  if m.imagePath.isSome then some (st.imageUrl m) else m.s3Filepath.filter (!blank ·)

/-- The file at an address goes into the archive; if it cannot be read the export raises. -/
def exportFile (st : Storage) (s : Step) (x : Archive) (url : Text) : Option Archive :=
  match st.read url with
  | .file contents => some (x.put s (filename url) contents)
  | _ => none

/-- An image of the step, or the one it was remixed from.  A video that the server refuses leaves an empty entry,
and a video that is embedded none. -/
def exportImage (st : Storage) (db : Database) (s : Step) (x : Archive) (m : Image) : Option Archive :=
  match db.originalOf m with
  | some (some m) =>
    if m.videoId.isSome then
      match db.videos.rows.find? (·.imageId = some m.id) with
      | none => none
      | some v =>
        if v.embedUrl.any (!·.isEmpty) then some x
        else if v.videoPath.isNone then none
        else
          match st.read (st.videoUrl v) with
          | .file contents => some (x.put s (filename (st.videoUrl v)) contents)
          | .httpError =>
            some { x with entries := x.entries ++ [(entryName x.stepNum s (filename (st.videoUrl v)), [])] }
          | .failed => none
    else
      match imgPath st m with
      | none => some x
      | some path => exportFile st s x path
  | _ => none

/-- The description without its markup, if it is present. -/
def exportDescription (st : Storage) (s : Step) (x : Archive) : Archive :=
  match s.description with
  | none => x
  | some t => if blank t then x else x.put s "description.txt".toList (st.sanitize t)

/-- A numbered folder for each step that has anything in it. -/
def exportStep (st : Storage) (db : Database) (x : Archive) (s : Step) : Option Archive := do
  let images := (db.stepImages s.id).insertionSort (Database.imageBefore · ·)
  let x ← images.foldlM (exportImage st db s) (exportDescription st s x)
  let x ← (st.designFiles.filter (·.stepId = some s.id)).foldlM (fun x f => exportFile st s x (st.designFileUrl f)) x
  return if x.stepIncrement then { x with stepNum := x.stepNum + 1, stepIncrement := false } else x

/-- The name of the archive. -/
def archiveName (project : Project) : Text :=
  toS project.id ++ '-' :: project.title.filter (· ≠ ' ') ++ ".zip".toList

/-- `Project#export` -/
def exportSteps (st : Storage) (db : Database) (project : Project) : Option Archive :=
  if st.creates (archiveName project) then
    (db.notLabels project.id).foldlM (exportStep st db)
      ⟨0, false, [("project_description.txt".toList, project.description.getD [])]⟩
  else none

/-- `GET /projects/:id/export` -/
def «export» (out : Outside) (viewer : Option User) (p : Nat) (db : Database) : Response :=
  match viewer with
  | none => .signIn
  | some _ =>
    match db.projects.find? p with
    | none => .notFound
    | some project =>
      match exportSteps out.storage db project with
      | none => .error
      | some archive => .archive (archiveName project) archive.entries

/-- `GET /projects/:id/export_txt` -/
def exportTxt (out : Outside) (viewer : Option User) (p : Nat) (db : Database) : Response :=
  match viewer with
  | none => .signIn
  | some _ =>
    match db.projects.find? p with
    | none => .notFound
    | some project =>
      let paragraph (t : Text) : Text := out.sanitize t ++ "\n \n".toList
      .text (((db.notLabels p).filterMap (·.description)).foldl
        (fun txt t => if blank t then txt else txt ++ paragraph t)
        (paragraph (project.description.getD [])))

/-- `GET /projects/check_privacy` with the address of a project. -/
def checkPrivacy (viewer : Option User) (path : Text) (db : Database) : Response :=
  match viewer with
  | none => .signIn
  | some _ =>
    if (urlProject path).isEmpty then .json none []
    else
      match db.projects.find? (toNat (urlProject path)) with
      | none => .notFound
      | some project => .json (some project.title) (project.privacy.getD "unpublished".toList)

end ProjectsController
