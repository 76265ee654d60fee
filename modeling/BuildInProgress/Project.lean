import BuildInProgress.Step

/-!
# The project model

`app/models/project.rb`: when a project counts as published, what `set_published` does with its
privacy and with the activities about it, and the checks `broken?` and `set_built`.  Notification
mails and the delayed log are left out; they change no row.
-/

open Text Ancestry

namespace Project

def isRemix (p : Project) : Bool := !blankColumn p.remixAncestry

def isPublic (p : Project) : Bool := p.privacy == some "public".toList

def isPrivate (p : Project) : Bool := p.privacy == some "private".toList

def isUnlisted (p : Project) : Bool := p.privacy == some "unlisted".toList

/-- `privacy.blank?` -/
def unpublished (p : Project) : Bool := blankColumn p.privacy

/-- The validations of a saved project: a title of at most 40 characters, a well-formed remix
ancestry that does not hold its own id. -/
def valid (p : Project) : Bool :=
  !blank p.title && p.title.length ≤ 40 && validFormat p.remixAncestry &&
    !(ancestorIds p.remixAncestry).contains p.id

end Project

/-- The author of the project in which concrete runs start. -/
def ada : User := ⟨1, "ada".toList, none⟩

/-- The user who has no part in that project, or is the second of its authors. -/
def bob : User := ⟨2, "bob".toList, none⟩

namespace Database

/-- `Project#published?` -/
def published (db : Database) (p : Project) : Bool :=
  if p.isRemix then
    -- the remix has been changed since it was made
    p.updatedAt != p.createdAt && (db.projectImages p.id).length > 0
  else
    !startsWith p.title "Untitled".toList && (db.projectImages p.id).length > 0

/-- `project.ancestors` -/
def projectAncestors (db : Database) (p : Project) : List Project :=
  db.projects.rows.filter fun q => (ancestorIds p.remixAncestry).contains q.id

/-- `project.users` -/
def projectUsers (db : Database) (p : Nat) : List User :=
  (db.projectsUsers.filter (·.1 = p)).filterMap fun pu => db.users.find? pu.2

def createActivity (db : Database) (t : Trackable) (i : Nat) (key : Text) (owner recipient : Option Nat) :
    Database :=
  { db with
    activities := db.activities.insert
      (fun id => ⟨id, some t, some i, key, owner, recipient, some true⟩) (fun _ => rfl) }

/-- `PublicActivity::Activity.where(:trackable_id => i).destroy_all` -/
def destroyActivities (db : Database) (i : Option Nat) : Database :=
  { db with activities := db.activities.filter (·.trackableId ≠ i) }

/-- `PublicActivity::Activity.where("trackable_type = ? AND trackable_id = ?", t, i).destroy_all` -/
def destroyActivitiesOf (db : Database) (t : Trackable) (i : Nat) : Database :=
  { db with
    activities := db.activities.filter fun a =>
      !(a.trackableType == some t && a.trackableId == some i) }

def putProject (db : Database) (p : Project) : Database :=
  { db with projects := db.projects.modify p.id (fun r => { p with id := r.id }) (fun _ => rfl) }

/-- `project.update_attributes`: an invalid record is not written, an unchanged one is not
stamped. -/
def updateProject (db : Database) (stamp : Option Nat) (i : Nat) (f : Project → Project) : Database :=
  match db.projects.find? i with
  | none => db
  | some p =>
    let p' := f p
    if !p'.valid || p' = p then db
    else db.putProject { p' with updatedAt := stamp.getD p'.updatedAt }

/-- `project.touch` -/
def touchProject (db : Database) (now i : Nat) : Database :=
  { db with projects := db.projects.modify i (fun p => { p with updatedAt := now }) (fun _ => rfl) }

/-- Whether a step counts as changed after its creation. -/
def stepKey (s : Step) : Text :=
  if s.createdAt.max s.updatedAt - s.createdAt.min s.updatedAt > 1 then "step.update".toList
  else "step.create".toList

/-- The users of the projects a remix descends from, other than the current user. -/
def remixRecipients (db : Database) (p : Project) (u : Nat) : List User :=
  ((db.projectAncestors p).flatMap fun q => db.projectUsers q.id).filter (·.id ≠ u)

/-- The activities about a project that has just become public. -/
def announceProject (db : Database) (u : Nat) (p : Project) : Database :=
  if p.isRemix then
    (db.remixRecipients p u).foldl (fun (db : Database) (r : User) =>
      db.createActivity .project p.id "project.create".toList (some u) (some r.id)) db
  else db.createActivity .project p.id "project.new".toList (some u) none

/-- The activities about a step that was created or updated. -/
def announceStep (db : Database) (u : Nat) (p : Project) (s : Step) : Database :=
  if p.isRemix then
    (db.remixRecipients p u).foldl (fun (db : Database) (r : User) =>
      db.createActivity .step s.id (stepKey s) (some u) (some r.id)) db
  else db.createActivity .step s.id (stepKey s) (some u) none

/-- The deletions when a project has become unpublished.  Only the id is compared. -/
def forgetActivities (db : Database) (i : Nat) : Database :=
  (db.projectSteps i).foldl (fun (db : Database) (s : Step) => db.destroyActivities (some s.id))
    (db.destroyActivities (some i))

/-- `Project#set_published(current_user_id, project_id, step_id)` -/
def setPublished (db : Database) (now u i : Nat) (step : Option Nat) : Database :=
  match db.projects.find? i with
  | none => db
  | some p =>
    if db.published p && p.unpublished then
      (db.announceProject u p).updateProject (some now) i fun p =>
        { p with privacy := some "public".toList }
    else if db.published p && !p.isPrivate then
      let db := (step.bind db.steps.find?).elim db (db.announceStep u p)
      db.updateProject (some now) i fun p => { p with privacy := some "public".toList }
    else if !db.published p then
      -- project has become unpublished - delete all activities about it
      let db := db.forgetActivities i
      let db :=
        if p.featured == some true then
          db.updateProject (some now) i fun p => { p with featured := some false }
        else db
      db.updateProject (some now) i fun p => { p with privacy := none }
    else db

/-- `Project#set_built` -/
def setBuilt (db : Database) (now i : Nat) : Database :=
  let built := (db.projectSteps i).any (·.last == some true)
  db.updateProject (some now) i fun p => { p with built := some built }

/-- `Project#broken?`: the positions of the steps are not 0, 1, 2, … -/
def broken (db : Database) (i : Nat) : Bool :=
  let positions := (db.orderedSteps i).map (·.position)
  if positions.length = 0 then false
  else
    positions != (List.range positions.length).map Int.ofNat ||
      (positions.filter (· = 0)).length > 1

def adaAndBob : Table User := .ofRows [ada, bob] 3 (by decide)

/-- A database with one user and one empty project of theirs, where concrete runs start. -/
def oneProject (title : Text) (privacy : Option Text) : Database :=
  { empty with
    users := .ofRows [ada] 2 (by decide)
    projects := .ofRows [⟨1, title, none, privacy, none, some false, none, none, none, 0, 0⟩] 2
      (by simp [Table.WellKeyed, Keyed.key])
    projectsUsers := [(1, 1)] }

/-! ## What these functions leave alone -/

/-- `db'` differs from `db` at most in the projects and the activities. -/
def SameRecords (db db' : Database) : Prop :=
  ∃ projects activities, db' = { db with projects, activities }

namespace SameRecords

theorem refl (db : Database) : SameRecords db db := ⟨db.projects, db.activities, rfl⟩

theorem trans {a b c : Database} (h : SameRecords a b) (h' : SameRecords b c) : SameRecords a c := by
  obtain ⟨ps, as, rfl⟩ := h
  obtain ⟨ps', as', rfl⟩ := h'
  exact ⟨ps', as', rfl⟩

theorem steps {db db' : Database} (h : SameRecords db db') : db'.steps = db.steps := by
  obtain ⟨ps, as, rfl⟩ := h
  rfl

theorem foldl {α : Type} {f : Database → α → Database} (hf : ∀ db a, SameRecords db (f db a))
    (l : List α) (db : Database) : SameRecords db (l.foldl f db) := by
  induction l generalizing db with
  | nil => exact refl db
  | cons a l ih => exact (hf db a).trans (ih (f db a))

theorem createActivity (db : Database) (t : Trackable) (i : Nat) (key : Text)
    (owner recipient : Option Nat) :
    SameRecords db (db.createActivity t i key owner recipient) := ⟨_, _, rfl⟩

theorem destroyActivities (db : Database) (i : Option Nat) :
    SameRecords db (db.destroyActivities i) := ⟨_, _, rfl⟩

theorem updateProject (db : Database) (stamp : Option Nat) (i : Nat) (f : Project → Project) :
    SameRecords db (db.updateProject stamp i f) := by
  unfold Database.updateProject
  split
  · exact refl db
  · dsimp only
    split
    · exact refl db
    · exact ⟨_, _, rfl⟩

theorem announceProject (db : Database) (u : Nat) (p : Project) :
    SameRecords db (db.announceProject u p) := by
  unfold Database.announceProject
  split
  · exact foldl (fun _ _ => createActivity _ _ _ _ _ _) _ _
  · exact createActivity _ _ _ _ _ _

theorem announceStep (db : Database) (u : Nat) (p : Project) (s : Step) :
    SameRecords db (db.announceStep u p s) := by
  unfold Database.announceStep
  split
  · exact foldl (fun _ _ => createActivity _ _ _ _ _ _) _ _
  · exact createActivity _ _ _ _ _ _

theorem forgetActivities (db : Database) (i : Nat) : SameRecords db (db.forgetActivities i) :=
  (destroyActivities db (some i)).trans (foldl (fun _ _ => destroyActivities _ _) _ _)

theorem setPublished (db : Database) (now u i : Nat) (step : Option Nat) :
    SameRecords db (db.setPublished now u i step) := by
  unfold Database.setPublished
  split
  · exact refl db
  · dsimp only
    split
    · exact (announceProject _ _ _).trans (updateProject _ _ _ _)
    · split
      · refine trans ?_ (updateProject _ _ _ _)
        cases step.bind db.steps.find? with
        | none => exact refl db
        | some s => exact announceStep _ _ _ _
      · split
        · refine (forgetActivities db i).trans (trans ?_ (updateProject _ _ _ _))
          split
          · exact updateProject _ _ _ _
          · exact refl _
        · exact refl db

theorem setBuilt (db : Database) (now i : Nat) : SameRecords db (db.setBuilt now i) :=
  updateProject _ _ _ _

theorem touchProject (db : Database) (now i : Nat) : SameRecords db (db.touchProject now i) :=
  ⟨_, _, rfl⟩

end SameRecords

end Database
