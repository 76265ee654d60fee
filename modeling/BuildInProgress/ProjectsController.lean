import BuildInProgress.MediaControllers

/-!
# The project and collection controllers

What `projects_controller.rb`, `collections_controller.rb` and `collectifies_controller.rb` write:
the update of a project, its privacy, its destruction, and its membership in collections.  Village
pushes, the log on S3 and the touches of users are left out.
-/

open Text Ancestry

/-- `attr_accessible` of `Project`; the other names have no reader here. -/
inductive ProjectAttr where
  | title (v : Text)
  | description (v : Option Text)
  | built (v : Option Bool)
  | featured (v : Option Bool)
  | updatedAt (v : Nat)
  | remixAncestry (v : Option Text)
  | villageId (v : Option Nat)
  | privacy (v : Option Text)
  | coverImage (v : Option Nat)
  | imagesAttributes (v : List (Option Nat × List ImageAttr))
  deriving DecidableEq, Repr

namespace ProjectAttr

def assign (p : Project) : ProjectAttr → Project
  | title v => { p with title := v }
  | description v => { p with description := v }
  | built v => { p with built := v }
  | featured v => { p with featured := v }
  | updatedAt v => { p with updatedAt := v }
  | remixAncestry v => { p with remixAncestry := v }
  | villageId v => { p with villageId := v }
  | privacy v => { p with privacy := v }
  | coverImage v => { p with coverImage := v }
  | imagesAttributes _ => p

/-- `params[:project][:images_attributes]` -/
def imagesOf (params : List ProjectAttr) : List (Option Nat × List ImageAttr) :=
  params.flatMap fun
    | imagesAttributes v => v
    | _ => []

def carriesPrivacy : ProjectAttr → Bool
  | privacy _ => true
  | _ => false

/-- The record `update_attributes` writes.  An unchanged record keeps its stamp, and so does one
whose stamp was submitted. -/
def record (now : Nat) (params : List ProjectAttr) (p : Project) : Project :=
  let p' := params.foldl assign p
  if p' = p ∨ p'.updatedAt ≠ p.updatedAt then p' else { p' with updatedAt := now }

end ProjectAttr

namespace Database

/-! ## Collections -/

/-- `collection.projects`, as memberships. -/
def collectionProjects (db : Database) (k : Nat) : List Project :=
  (db.collectifies.rows.filter (·.collectionId = k)).filterMap fun c => db.projects.find? c.projectId

/-- `Collection#published?` -/
def collectionPublished (db : Database) (k : Collection) : Bool :=
  !startsWith k.name "Untitled".toList && (db.collectionProjects k.id).any Project.isPublic

/-- The validations of a saved collection: an owner, and a name of its own. -/
def collectionValid (db : Database) (k : Collection) : Bool :=
  k.userId.isSome && !blank k.name && db.collections.rows.all fun r => r.id == k.id || r.name != k.name

/-- `collection.update_attributes` -/
def updateCollection (db : Database) (stamp : Option Nat) (i : Nat) (f : Collection → Collection) :
    Database :=
  match db.collections.find? i with
  | none => db
  | some k =>
    let k' := f k
    if !db.collectionValid k' || k' = k then db
    else
      { db with
        collections := db.collections.modify i (fun r =>
          { k' with id := r.id, updatedAt := stamp.getD k'.updatedAt }) (fun _ => rfl) }

/-- `Collection#remove!`; without a membership it raises. -/
def removeFromCollection (db : Database) (now : Nat) (k : Collection) (p : Nat) : Option Database :=
  match db.collectifies.rows.find? fun c => c.collectionId = k.id ∧ c.projectId = p with
  | none => none
  | some c =>
    let db := { db with collectifies := db.collectifies.filter (·.id ≠ c.id) }
    some (db.updateCollection (some now) k.id fun k =>
      { k with published := some (db.collectionPublished k) })

end Database

namespace CollectionsController

/-- `GET /collections/:id/update_privacy` -/
def updatePrivacy (i : Nat) (privacy : Option Text) (db : Database) : Outcome × Database :=
  match db.collections.find? i with
  | none => (.notFound, db)
  | some _ => (.ok, db.updateCollection none i fun k => { k with privacy })

end CollectionsController

namespace CollectifiesController

/-- `DELETE /collectifies/:id` with the id of a collection and of a project. -/
def destroy (u : User) (now k p : Nat) (db : Database) : Outcome × Database :=
  match db.collections.find? k, db.projects.find? p with
  | some collection, some _ =>
    match db.collectifies.rows.find? fun c => c.collectionId = k ∧ c.projectId = p with
    | none => (.notFound, db)
    | some c =>
      authorize (Ability.destroyCollectify db u c) db <|
        -- by the id of the membership alone
        let db := db.destroyActivities (some c.id)
        match db.removeFromCollection now collection p with
        | none => (.error, db)
        | some db =>
          if db.collectionPublished collection then (.ok, db)
          else
            let db := db.updateCollection (some now) k fun k => { k with published := some false }
            (.ok, db.destroyActivities (some k))
  | _, _ => (.notFound, db)

end CollectifiesController

namespace ProjectsController

/-! ## Updating a project -/

/-- The columns of an image that is built without parameters. -/
def blankImage : Image :=
  ⟨0, none, none, none, none, none, none, none, none, none, none, none, none⟩

/-- One nested image: it is changed, or built below the project. -/
def saveNestedImage (p : Nat) (db : Database) (e : Option Nat × List ImageAttr) : Database :=
  match e.1 with
  | some i =>
    ImagesController.modifyImage db i (fun m => e.2.foldl ImageAttr.assign m)
      (fun m => ImageAttr.foldl_assign_id m e.2)
  | none =>
    ImagesController.insertImage db { e.2.foldl ImageAttr.assign blankImage with projectId := some p }

/-- A nested image with an id has to be an image of the project. -/
def nestedImagesFound (db : Database) (p : Nat) (params : List ProjectAttr) : Bool :=
  (ProjectAttr.imagesOf params).all fun e => e.1.all fun i => (db.projectImages p).any (·.id = i)

/-- The database once the submitted attributes are saved. -/
def saveProject (db : Database) (now : Nat) (project : Project) (params : List ProjectAttr) : Database :=
  (ProjectAttr.imagesOf params).foldl (saveNestedImage project.id)
    (db.putProject (ProjectAttr.record now params project))

/-- `@project.title.downcase.include? "untitled"`, where `published?` asks for the prefix. -/
def untitled (p : Project) : Bool := includes (downcase p.title) "untitled".toList

/-- `PUT /projects/:id` -/
def update (u : User) (now i : Nat) (params : List ProjectAttr) (db : Database) : Outcome × Database :=
  match db.projects.find? i with
  | none => (.notFound, db)
  | some project =>
    authorize (some (Ability.updateProject db u project)) db <|
      let db := StepsController.touchCollections db now i
      let saved := ProjectAttr.record now params project
      if !nestedImagesFound db i params then (.notFound, db)
      else if !saved.valid then (.invalid, db)
      else
        let db := saveProject db now project params
        if saved.unpublished || untitled saved then (.ok, db.setPublished now u.id i none)
        else (.ok, db)

/-! ## Privacy -/

/-- A project that has become private leaves its collections, one after the other. -/
def leaveCollections (u : User) (now : Nat) : List Collectify → Database → Outcome × Database
  | [], db => (.ok, db)
  | c :: cs, db =>
    authorize (Ability.destroyCollectify db u c) db <|
      let db := db.destroyActivities (some c.id)
      match db.collections.find? c.collectionId with
      | none => (.error, db)
      | some k =>
        match db.removeFromCollection now k c.projectId with
        | none => (.error, db)
        | some db =>
          let db :=
            if db.collectionPublished k then db
            else
              -- `@collection` was never set, so this asks for activities without a trackable
              (db.updateCollection (some now) k.id fun k => { k with published := some false }).destroyActivities
                none
          leaveCollections u now cs db

/-- `GET /projects/:id/update_privacy` -/
def updatePrivacy (u : User) (now i : Nat) (privacy : Option Text) (db : Database) :
    Outcome × Database :=
  match db.projects.find? i with
  | none => (.notFound, db)
  | some _ =>
    let db := db.updateProject none i fun p => { p with privacy }
    if privacy = some "private".toList then
      leaveCollections u now (db.collectifies.rows.filter (·.projectId = i)) db
    else (.ok, db)

/-! ## Destroying a project -/

/-- `Project#questions` -/
def questions (db : Database) (p : Nat) : List Question :=
  (db.projectSteps p).filterMap fun s => db.stepQuestion s.id

/-- `FavoriteProject.where(:user_id => u).where(:project_id => p).first` -/
def favoriteOf (db : Database) (u p : Nat) : Option FavoriteProject :=
  db.favoriteProjects.rows.find? fun f => f.userId = u ∧ f.projectId = p

/-- The activities that go with a project. -/
def forgetProject (db : Database) (u p : Nat) : Database :=
  let qs := questions db p
  let favorite := favoriteOf db u p
  let db := db.destroyActivitiesOf .project p
  let db := qs.foldl (fun (db : Database) (q : Question) => db.destroyActivitiesOf .question q.id) db
  let db := favorite.elim db fun f => db.destroyActivitiesOf .favoriteProject f.id
  -- here the type is not asked for
  (db.projectSteps p).foldl (fun (db : Database) (s : Step) => db.destroyActivities (some s.id)) db

/-- The remixes of a project go below the project it remixes. -/
def adoptRemixes (db : Database) (project : Project) : Database :=
  let child := childAncestry project.remixAncestry project.id
  { db with
    projects := db.projects.map (fun r =>
      if descendant child r.remixAncestry then { r with remixAncestry := project.remixAncestry } else r)
      (fun r => by split <;> rfl) }

/-- `project.destroy` with the rows that depend on it.  The gem finds no descendants any more. -/
def destroyProject (db : Database) (now p : Nat) : Database :=
  let db := (db.projectSteps p).foldl (fun (db : Database) (s : Step) => db.destroyStep now s) db
  let db := (db.projectImages p).foldl (fun (db : Database) (m : Image) => db.destroyImage m.id) db
  { db with
    videos := db.videos.filter (·.projectId ≠ some p)
    edits := db.edits.filter (·.projectId ≠ some p)
    favoriteProjects := db.favoriteProjects.filter (·.projectId ≠ p)
    collectifies := db.collectifies.filter (·.projectId ≠ p)
    projectsUsers := db.projectsUsers.filter (·.1 ≠ p)
    projects := db.projects.filter (·.id ≠ p) }

/-- `DELETE /projects/:id` -/
def destroy (u : User) (now i : Nat) (db : Database) : Outcome × Database :=
  match db.projects.find? i with
  | none => (.notFound, db)
  | some project =>
    authorize (some (Ability.destroyProject db u project)) db <|
      let db := forgetProject db u.id i
      let db := { db with collectifies := db.collectifies.filter (·.projectId ≠ i) }
      (.ok, destroyProject (adoptRemixes db project) now i)

end ProjectsController
