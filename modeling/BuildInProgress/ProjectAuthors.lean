import BuildInProgress.Frame

/-!
# New projects and their authors

`projects_controller.rb` makes a project for the user who asks, and lets the authors of a project add
and remove authors by name.  The mails to new authors and the pushes to the Village are left out.
-/

open Text

namespace Ability

variable (db : Database) (u : User)

/-- `can :add_users, Project` -/
def addUsers (p : Project) : Bool := db.author p.id u.id

/-- `can :remove_user, Project` -/
def removeUser (p : Project) : Bool := db.author p.id u.id

end Ability

namespace Database

/-- `User.where(:username => name).first` -/
def userNamed (db : Database) (name : Text) : Option User := db.users.rows.find? (·.username = name)

/-- `project.users << user` -/
def addAuthor (db : Database) (p u : Nat) : Database := { db with projectsUsers := db.projectsUsers ++ [(p, u)] }

/-- `project.users.delete(user)`: every row of the pair goes. -/
def deleteAuthor (db : Database) (p u : Nat) : Database :=
  { db with projectsUsers := db.projectsUsers.filter (· ≠ (p, u)) }

end Database

namespace ProjectsController

open Database

/-! ## Creating -/

/-- The columns of a project before anything is assigned. -/
def blankProject : Project := ⟨0, [], none, none, none, none, none, none, none, 0, 0⟩

/-- `current_user.projects.where("title like ?", "%Untitled%").count` -/
def numUntitled (db : Database) (u : User) : Nat :=
  ((db.projectsUsers.filter (·.2 = u.id)).filterMap fun pu => db.projects.find? pu.1).countP fun p =>
    includes p.title "Untitled".toList

def carriesUpdatedAt : ProjectAttr → Bool
  | .updatedAt _ => true
  | _ => false

/-- The record `create` saves under the id `i`.  A submitted stamp is kept. -/
def newProject (now untitled : Nat) (params : List ProjectAttr) (i : Nat) : Project :=
  let p := params.foldl ProjectAttr.assign blankProject
  { p with
    id := i
    title := "Untitled-".toList ++ toS (untitled + 1)
    built := some false
    createdAt := now
    updatedAt := if params.any carriesUpdatedAt then p.updatedAt else now }

/-- `@project.save`: the project, the row of its author, and the images that were submitted with it. -/
def saveNew (u : User) (now untitled : Nat) (params : List ProjectAttr) (db : Database) : Outcome × Database :=
  let i := db.projects.next
  -- a new project has no image that a nested id could name
  if (ProjectAttr.imagesOf params).any (·.1.isSome) then (.notFound, db)
  else if !remixValid (newProject now untitled params i) [] then (.invalid, db)
  else
    let db := { db with projects := db.projects.insert (newProject now untitled params) (fun _ => rfl) }
    (.ok, (ProjectAttr.imagesOf params).foldl (saveNestedImage i) (db.addAuthor i u.id))

/-- `POST /projects`, also under `GET /projects/new` -/
def create (u : User) (now : Nat) (params : List ProjectAttr) (db : Database) : Outcome × Database :=
  saveNew u now (numUntitled db u) params db

/-- A project is created as one new row with one author, or not at all. -/
theorem saveNew_cases (u : User) (now untitled : Nat) (params : List ProjectAttr) (db : Database) :
    ((saveNew u now untitled params db).1 ≠ .ok ∧ (saveNew u now untitled params db).2 = db) ∨
      ((saveNew u now untitled params db).1 = .ok ∧
        (saveNew u now untitled params db).2.projects.rows =
          db.projects.rows ++ [newProject now untitled params db.projects.next] ∧
        (saveNew u now untitled params db).2.projects.next = db.projects.next + 1 ∧
        (saveNew u now untitled params db).2.projectsUsers = db.projectsUsers ++ [(db.projects.next, u.id)] ∧
        Touches [.projects, .projectsUsers, .images, .videos] db (saveNew u now untitled params db).2) := by
  unfold saveNew
  dsimp only
  split
  · exact Or.inl ⟨by simp, rfl⟩
  · split
    · exact Or.inl ⟨by simp, rfl⟩
    · right
      generalize hdb' : ({ db with projects := db.projects.insert (newProject now untitled params) (fun _ => rfl) } :
        Database).addAuthor db.projects.next u.id = db'
      have hfirst : Touches [.projects, .projectsUsers, .images, .videos] db db' := by
        rw [← hdb']
        intro t ht
        cases t <;> first | rfl | exact absurd (by decide) ht
      have himages : Touches [.images, .videos] db'
          ((ProjectAttr.imagesOf params).foldl (saveNestedImage db.projects.next) db') :=
        .foldl (touches_saveNestedImage db.projects.next) _ db'
      refine ⟨rfl, ?_, ?_, ?_, hfirst.trans (himages.mono (by decide))⟩
      · rw [(himages .projects (by decide) : _ = _), ← hdb']
        rfl
      · rw [(himages .projects (by decide) : _ = _), ← hdb']
        rfl
      · rw [(himages .projectsUsers (by decide) : _ = _), ← hdb']
        rfl

/-! ## Adding and removing authors -/

/-- One name of the list, once `project.users.pluck(:username)` does not hold it.  The name of nobody
raises. -/
def addUser (u : User) (p : Nat) (user : User) (db : Database) : Database :=
  (db.addAuthor p user.id).createActivity .project p "project.author_add".toList (some u.id) (some user.id)

/-- The names one after the other. -/
def addEach (u : User) (p : Nat) : List Text → Database → Outcome × Database
  | [], db => (.ok, db)
  | name :: names, db =>
    if ((db.projectUsers p).map User.username).contains name then addEach u p names db
    else
      match db.userNamed name with
      | none => (.error, db)
      | some user => addEach u p names (addUser u p user db)

/-- `GET /projects/add_users` -/
def addUsers (u : User) (p : Nat) (names : List Text) (db : Database) : Outcome × Database :=
  match db.projects.find? p with
  | none => (.notFound, db)
  | some project => authorize (some (Ability.addUsers db u project)) db (addEach u p names db)

/-- What `remove_user` does when it is allowed. -/
def removeAuthor (p : Nat) (user : User) (db : Database) : Database :=
  let db := db.deleteAuthor p user.id
  { db with
    activities := db.activities.filter fun a =>
      !(a.key == "project.author_add".toList && a.trackableId == some p && a.recipientId == some user.id) }

/-- `GET /projects/remove_user`; how many authors are left is not asked. -/
def removeUser (u : User) (p : Nat) (name : Text) (db : Database) : Outcome × Database :=
  match db.projects.find? p with
  | none => (.notFound, db)
  | some project =>
    authorize (some (Ability.removeUser db u project)) db <|
      match db.userNamed name with
      | none => (.error, db)
      | some user => (.ok, removeAuthor p user db)

end ProjectsController
