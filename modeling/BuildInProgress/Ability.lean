import BuildInProgress.Project

/-!
# Permissions

`app/models/ability.rb`.  A rule looks at the authors of the project a record belongs to; a record
without a project makes the rule raise, which is `none` here.  `authorize!` on something that is not
a record of the class denies.
-/

namespace Ability

variable (db : Database) (u : User)

/-- `record.project.users.include? user` -/
def authorOf (p : Option Nat) : Option Bool :=
  (p.bind db.projects.find?).map fun project => db.author project.id u.id

/-- `can :create, Step` -/
def createStep (s : Step) : Option Bool := authorOf db u s.projectId

/-- `can :update, Step` -/
def updateStep (s : Step) : Option Bool := (authorOf db u s.projectId).map (· || u.isAdmin)

/-- `can :destroy, Step` -/
def destroyStep (s : Step) : Option Bool := authorOf db u s.projectId

/-- `can :read, Project`; nobody signed in is a new user, who is no author and no admin. -/
def readProject (viewer : Option User) (p : Project) : Bool :=
  viewer.any (fun u => db.author p.id u.id) || !p.isPrivate || viewer.any User.isAdmin

/-- `can :update, Project`: `project.users.include? user || user.admin?` asks for `user || ..`. -/
def updateProject (p : Project) : Bool := db.author p.id u.id

/-- `can :destroy, Project` -/
def destroyProject (p : Project) : Bool := db.author p.id u.id

/-- `can :destroy, Collectify` -/
def destroyCollectify (c : Collectify) : Option Bool :=
  match db.collections.find? c.collectionId with
  | some k => if k.userId = some u.id then some true else authorOf db u (some c.projectId)
  | none => authorOf db u (some c.projectId)

/-- `can :create, Image` -/
def createImage (m : Image) : Option Bool := authorOf db u m.projectId

/-- `can :destroy, Image` -/
def destroyImage (m : Image) : Option Bool := authorOf db u m.projectId

/-- `can :create, Video` -/
def createVideo (v : Video) : Option Bool := authorOf db u v.projectId

end Ability

/-- How a request ends. -/
inductive Outcome where
  /-- the action ran to its end -/
  | ok
  /-- a record the action looks for does not exist -/
  | notFound
  /-- `CanCan::AccessDenied`, redirected to the unauthorized page -/
  | denied
  /-- the action itself refuses, with a message -/
  | refused
  /-- a validation failed and the form is shown again -/
  | invalid
  /-- another exception -/
  | error
  deriving DecidableEq, Repr

/-- Run the rest of an action when a permission allows it. -/
def authorize (permission : Option Bool) (db : Database) (rest : Outcome × Database) :
    Outcome × Database :=
  match permission with
  | none => (.error, db)
  | some false => (.denied, db)
  | some true => rest

theorem authorize_cases (permission : Option Bool) (db : Database) (rest : Outcome × Database) :
    (permission = some true ∧ authorize permission db rest = rest) ∨
      (permission ≠ some true ∧ (authorize permission db rest).2 = db) := by
  cases permission with
  | none => exact Or.inr ⟨by simp, rfl⟩
  | some b =>
    cases b with
    | false => exact Or.inr ⟨by simp, rfl⟩
    | true => exact Or.inl ⟨rfl, rfl⟩

theorem authorize_ok {permission : Option Bool} {db : Database} {rest : Outcome × Database}
    (h : (authorize permission db rest).1 = .ok) : permission = some true ∧ authorize permission db rest = rest := by
  cases permission with
  | none => cases h
  | some b =>
    cases b with
    | false => cases h
    | true => exact ⟨rfl, rfl⟩
