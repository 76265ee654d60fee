import BuildInProgress.Lib.Table
import BuildInProgress.Lib.Text
import Mathlib.Data.List.Sort

/-!
# The database

The tables of `db/schema.rb` that the step, project, media, collection and activity code reads or
writes, with the columns that code uses.  Text columns hold lists of characters, timestamps count
seconds.  `projects_users` is the join table of a project and its authors.
-/

/-- `users` -/
structure User where
  id : Nat
  username : Text
  admin : Option Bool
  deriving DecidableEq, Repr

/-- `projects` -/
structure Project where
  id : Nat
  title : Text
  description : Option Text
  privacy : Option Text
  remixAncestry : Option Text
  built : Option Bool
  featured : Option Bool
  villageId : Option Nat
  coverImage : Option Nat
  createdAt : Nat
  updatedAt : Nat
  deriving DecidableEq, Repr

/-- `steps` -/
structure Step where
  id : Nat
  projectId : Option Nat
  name : Text
  description : Option Text
  position : Int
  ancestry : Option Text
  publishedOn : Option Nat
  last : Option Bool
  userId : Option Nat
  originalAuthors : Option (List Nat)
  label : Option Bool
  labelColor : Option Text
  pin : Option Text
  createdAt : Nat
  updatedAt : Nat
  deriving DecidableEq, Repr

/-- `edits` -/
structure Edit where
  id : Nat
  userId : Option Nat
  stepId : Option Nat
  projectId : Option Nat
  startedEditingAt : Option Nat
  temp : Option Bool
  deriving DecidableEq, Repr

/-- `images`; a step id of `-1` marks an upload for a step that is not saved yet. -/
structure Image where
  id : Nat
  stepId : Option Int
  projectId : Option Nat
  imagePath : Option Text
  caption : Option Text
  position : Option Int
  saved : Option Bool
  videoId : Option Nat
  originalId : Option Nat
  userId : Option Nat
  s3Filepath : Option Text
  rotation : Option Int
  soundId : Option Nat
  deriving DecidableEq, Repr

/-- `videos` -/
structure Video where
  id : Nat
  stepId : Option Int
  projectId : Option Nat
  embedUrl : Option Text
  thumbnailUrl : Option Text
  videoPath : Option Text
  imageId : Option Nat
  saved : Option Bool
  userId : Option Nat
  rotation : Option Int
  deriving DecidableEq, Repr

/-- `questions` -/
structure Question where
  id : Nat
  stepId : Nat
  description : Text
  answered : Bool
  featured : Option Bool
  deriving DecidableEq, Repr

/-- `decisions` -/
structure Decision where
  id : Nat
  questionId : Nat
  description : Text
  deriving DecidableEq, Repr

/-- The classes that include `PublicActivity::Common`, as `trackable_type` records them. -/
inductive Trackable where
  | project | step | question | collection | collectify | favoriteProject | comment | user
  deriving DecidableEq, Repr

/-- `activities`; the recipient is always a user. -/
structure Activity where
  id : Nat
  trackableType : Option Trackable
  trackableId : Option Nat
  key : Text
  ownerId : Option Nat
  recipientId : Option Nat
  primary : Option Bool
  deriving DecidableEq, Repr

/-- `collections` -/
structure Collection where
  id : Nat
  name : Text
  userId : Option Nat
  published : Option Bool
  privacy : Option Text
  updatedAt : Nat
  deriving DecidableEq, Repr

/-- `collectifies`: the membership of a project in a collection. -/
structure Collectify where
  id : Nat
  collectionId : Nat
  projectId : Nat
  deriving DecidableEq, Repr

/-- `favorite_projects` -/
structure FavoriteProject where
  id : Nat
  projectId : Nat
  userId : Nat
  deriving DecidableEq, Repr

/-- `news` -/
structure News where
  id : Nat
  stepId : Option Nat
  deriving DecidableEq, Repr

instance : Keyed User := ⟨User.id⟩
instance : Keyed Project := ⟨Project.id⟩
instance : Keyed Step := ⟨Step.id⟩
instance : Keyed Edit := ⟨Edit.id⟩
instance : Keyed Image := ⟨Image.id⟩
instance : Keyed Video := ⟨Video.id⟩
instance : Keyed Question := ⟨Question.id⟩
instance : Keyed Decision := ⟨Decision.id⟩
instance : Keyed Activity := ⟨Activity.id⟩
instance : Keyed Collection := ⟨Collection.id⟩
instance : Keyed Collectify := ⟨Collectify.id⟩
instance : Keyed FavoriteProject := ⟨FavoriteProject.id⟩
instance : Keyed News := ⟨News.id⟩

structure Database where
  users : Table User
  projects : Table Project
  projectsUsers : List (Nat × Nat)
  steps : Table Step
  edits : Table Edit
  images : Table Image
  videos : Table Video
  questions : Table Question
  decisions : Table Decision
  activities : Table Activity
  collections : Table Collection
  collectifies : Table Collectify
  favoriteProjects : Table FavoriteProject
  news : Table News

namespace Database

def empty : Database where
  users := Table.empty
  projects := Table.empty
  projectsUsers := []
  steps := Table.empty
  edits := Table.empty
  images := Table.empty
  videos := Table.empty
  questions := Table.empty
  decisions := Table.empty
  activities := Table.empty
  collections := Table.empty
  collectifies := Table.empty
  favoriteProjects := Table.empty
  news := Table.empty

/-! ## Associations -/

/-- `project.steps`; without an `ORDER BY` the rows come in the order of the table. -/
def projectSteps (db : Database) (p : Nat) : List Step :=
  db.steps.rows.filter (·.projectId = some p)

def byPosition (ss : List Step) : List Step := ss.insertionSort (·.position ≤ ·.position)

/-- `project.steps.order("position")` -/
def orderedSteps (db : Database) (p : Nat) : List Step := byPosition (db.projectSteps p)

/-- `project.users.include? user` -/
def author (db : Database) (p u : Nat) : Bool := db.projectsUsers.contains (p, u)

/-- `project.images`, in the default scope's order when that matters. -/
def projectImages (db : Database) (p : Nat) : List Image :=
  db.images.rows.filter (·.projectId = some p)

/-- `step.images` -/
def stepImages (db : Database) (s : Nat) : List Image :=
  db.images.rows.filter (·.stepId = some (s : Int))

/-- `step.question` -/
def stepQuestion (db : Database) (s : Nat) : Option Question :=
  db.questions.rows.find? (·.stepId = s)

/-- `question.decision` -/
def questionDecision (db : Database) (q : Nat) : Option Decision :=
  db.decisions.rows.find? (·.questionId = q)

/-- `step.users`, through the edits of the step. -/
def stepUsers (db : Database) (s : Nat) : List User :=
  (db.edits.rows.filter (·.stepId = some s)).filterMap fun e => e.userId.bind db.users.find?

/-- `Edit.where("user_id = ? AND step_id = ?", u, s).first` -/
def editOf (db : Database) (u s : Nat) : Option Edit :=
  db.edits.rows.find? fun e => e.userId = some u ∧ e.stepId = some s

end Database

/-- `User#admin?` -/
def User.isAdmin (u : User) : Bool := u.admin == some true
