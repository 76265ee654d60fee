import BuildInProgress.ProjectRows

/-!
# Making and filling collections

`CollectionsController#create`, `#update` and `#add_project`.  The description, the picture and the slug of a
collection have no reader here, and mails change no row.  The request to add a project carries the id that
was read from the address of the project, if there was one.
-/

open Text

/-- `attr_accessible` of `Collection`; the other names have no reader here. -/
inductive CollectionAttr where
  | name (v : Text)
  | published (v : Option Bool)
  | privacy (v : Option Text)
  deriving DecidableEq, Repr

namespace CollectionAttr

def assign (k : Collection) : CollectionAttr → Collection
  | name v => { k with name := v }
  | published v => { k with published := v }
  | privacy v => { k with privacy := v }

/-- The record in memory once the parameters are assigned. -/
def record (params : List CollectionAttr) (k : Collection) : Collection := params.foldl assign k

end CollectionAttr

namespace Ability

/-- `can :update, Collection` -/
def updateCollection (u : User) (k : Collection) : Bool := k.userId == some u.id

end Ability

namespace Database

/-- `collection.user` -/
def collectionUser (db : Database) (k : Collection) : Option User := k.userId.bind db.users.find?

/-- `collection.collectifies` -/
def memberships (db : Database) (i : Nat) : List Collectify := db.collectifies.rows.filter (·.collectionId = i)

def insertCollection (db : Database) (k : Collection) : Database :=
  { db with collections := db.collections.insert (fun i => { k with id := i }) (fun _ => rfl) }

def insertCollectify (db : Database) (i p : Nat) : Database :=
  { db with collectifies := db.collectifies.insert (fun c => ⟨c, i, p⟩) (fun _ => rfl) }

def touchCollection (db : Database) (now i : Nat) : Database :=
  { db with collections := db.collections.modify i (fun k => { k with updatedAt := now }) (fun _ => rfl) }

end Database

namespace CollectionsController

/-! ## Creating -/

/-- The columns of a collection before anything is assigned. -/
def blankCollection : Collection := ⟨0, [], none, some false, none, 0⟩

def untitledName (n : Text) : Text := "Untitled-Collection-".toList ++ n

/-- The default scope orders by `updated_at` before `created_at`; rows are created in the order of their
ids. -/
def latest (ks : List Collection) : Option Collection :=
  (ks.insertionSort fun a b => b.updatedAt < a.updatedAt ∨ (b.updatedAt = a.updatedAt ∧ b.id ≤ a.id)).head?

/-- One more than the number in the name of the latest untitled collection. -/
def untitledCount (db : Database) : Int :=
  match latest (db.collections.rows.filter fun k => includes k.name "Untitled".toList) with
  | none => 1
  | some k => toI (sub "Untitled-Collection-".toList [] k.name) + 1

/-- The record `create` saves: some submitted values are replaced. -/
def newCollection (u : User) (now : Nat) (params : List CollectionAttr) (db : Database) : Collection :=
  { CollectionAttr.record params blankCollection with
    id := db.collections.next
    name := untitledName (intToS (untitledCount db))
    userId := some u.id
    privacy := some "unlisted".toList
    updatedAt := now }

/-- `POST /collections` -/
def create (u : User) (now : Nat) (params : List CollectionAttr) (db : Database) : Outcome × Database :=
  let k := newCollection u now params db
  if !db.collectionValid k then (.invalid, db)
  else
    let db := db.insertCollection k
    (.ok, db.updateCollection (some now) k.id fun k => { k with name := untitledName (toS k.id) })

/-! ## Updating -/

/-- The activities about one membership of a collection that is published for the first time. -/
def announceMembership (u : User) (owner : Option User) (c : Collectify) (project : Project) (db : Database) :
    Database :=
  (db.projectUsers project.id).foldl (fun (db : Database) (r : User) =>
    let db := db.createActivity .collectify c.id "collectify.create".toList (some u.id) (some r.id)
    if owner.map User.id ≠ some u.id ∧ owner.map User.id ≠ some r.id then
      db.createActivity .collectify c.id "collectify.owner_create".toList (some u.id) (owner.map User.id)
    else db) db

/-- The loop over the memberships; one whose project is gone raises, and the flag says so. -/
def announceMemberships (u : User) (owner : Option User) : List Collectify → Database → Bool × Database
  | [], db => (true, db)
  | c :: cs, db =>
    if db.activities.rows.any fun a => a.trackableType == some .collectify && a.trackableId == some c.id then
      announceMemberships u owner cs db
    else
      match db.projects.find? c.projectId with
      | none => (false, db)
      | some project => announceMemberships u owner cs (announceMembership u owner c project db)

/-- What `update` does when the saved collection is published and its flag was not set. -/
def publishFirst (u : User) (now : Nat) (k : Collection) (db : Database) : Bool × Database :=
  let db :=
    if k.privacy = some "unlisted".toList then
      db.updateCollection (some now) k.id fun k => { k with privacy := some "public".toList }
    else db
  let db := db.createActivity .collection k.id "collection.create".toList (some u.id) none
  announceMemberships u (db.collectionUser k) (db.memberships k.id) db

/-- The activities about a collection and its memberships. -/
def forgetCollection (db : Database) (i : Nat) : Database :=
  ((db.memberships i).foldl (fun (db : Database) (c : Collectify) => db.destroyActivitiesOf .collectify c.id)
    db).destroyActivitiesOf .collection i

/-- `PUT /collections/:id` -/
def update (u : User) (now i : Nat) (params : List CollectionAttr) (db : Database) : Outcome × Database :=
  match db.collections.find? i with
  | none => (.notFound, db)
  | some k =>
    authorize (some (Ability.updateCollection u k)) db <|
      let saved := CollectionAttr.record params k
      if !db.collectionValid saved then (.invalid, db)
      else
        let db := db.updateCollection (some now) i (CollectionAttr.record params)
        if db.collectionPublished saved then
          let r := if saved.published = some false then publishFirst u now saved db else (true, db)
          if r.1 then (.ok, r.2.updateCollection (some now) i fun k => { k with published := some true })
          else (.error, r.2)
        else (.ok, forgetCollection db i)

/-! ## Adding a project -/

/-- The notifications when a published collection gets the membership `c`.  The owner's settings are read,
and a collection without an owner raises. -/
def announceProject (u : User) (k : Collection) (c : Nat) (project : Project) (db : Database) : Bool × Database :=
  let owner := db.collectionUser k
  let db := ((db.projectUsers project.id).filter (·.id ≠ u.id)).foldl (fun (db : Database) (r : User) =>
    db.createActivity .collectify c "collectify.create".toList (some u.id) (some r.id)) db
  if owner.map User.id ≠ some u.id ∧ !(owner.any fun o => db.author project.id o.id) then
    (owner.isSome,
      db.createActivity .collectify c "collectify.owner_create".toList (some u.id) (owner.map User.id))
  else (true, db)

/-- What `add_project` does with the new membership `c`. -/
def afterAdd (u : User) (now : Nat) (k : Collection) (c : Nat) (project : Project) (db : Database) :
    Outcome × Database :=
  if db.collectionPublished k then
    let db :=
      if k.published = some false then
        (db.createActivity .collection k.id "collection.create".toList (some u.id) none).updateCollection (some now)
          k.id fun k => { k with privacy := some "public".toList }
      else db
    let r := announceProject u k c project db
    if r.1 then
      (.ok, (r.2.updateCollection (some now) k.id fun k => { k with published := some true }).touchCollection now k.id)
    else (.error, r.2)
  else (.ok, db.touchCollection now k.id)

/-- `POST /collections/:id/add_project`; anybody who is signed in may add any project. -/
def addProject (u : User) (now i : Nat) (p : Option Nat) (db : Database) : Outcome × Database :=
  match db.collections.find? i with
  | none => (.notFound, db)
  | some k =>
    match p with
    | none => (.refused, db)
    | some p =>
      match db.projects.find? p with
      | none => (.notFound, db)
      | some project =>
        -- the index over both columns is unique
        if (db.memberships k.id).any (·.projectId == p) then (.refused, db)
        else afterAdd u now k db.collectifies.next project (db.insertCollectify k.id p)

/-- A request to add a project writes nothing, and then the collection does not lack the project, or it adds
the membership. -/
theorem addProject_cases (u : User) (now i : Nat) (p : Option Nat) (db : Database) :
    ((addProject u now i p db).2 = db ∧ ∀ k project, db.collections.find? i = some k →
      p.bind db.projects.find? = some project → ∃ c ∈ db.memberships i, c.projectId = project.id) ∨
    ∃ k project, db.collections.find? i = some k ∧ p.bind db.projects.find? = some project ∧
      (∀ c ∈ db.memberships i, c.projectId ≠ project.id) ∧
      addProject u now i p db = afterAdd u now k db.collectifies.next project (db.insertCollectify i project.id) := by
  unfold addProject
  cases hk : db.collections.find? i with
  | none => exact Or.inl ⟨rfl, fun _ _ hk' => by cases hk'⟩
  | some k =>
    have hki : k.id = i := (Table.find?_eq_some.mp hk).2
    cases p with
    | none => exact Or.inl ⟨rfl, fun _ _ _ hp => by cases hp⟩
    | some p =>
      dsimp only
      rw [Option.bind_some, hki]
      cases hproject : db.projects.find? p with
      | none => exact Or.inl ⟨rfl, fun _ _ _ hp => by cases hp⟩
      | some project =>
        have hpid : project.id = p := (Table.find?_eq_some.mp hproject).2
        dsimp only
        by_cases hin : (db.memberships i).any (·.projectId == p) = true
        · refine Or.inl ⟨by rw [if_pos hin], fun _ project' _ hp => ?_⟩
          obtain ⟨c, hc, hcp⟩ := List.any_eq_true.mp hin
          have hpp : project = project' := Option.some.inj hp
          exact ⟨c, hc, (beq_iff_eq.mp hcp).trans (hpp ▸ hpid).symm⟩
        · refine Or.inr ⟨k, project, rfl, rfl, fun c hc hcp => ?_, by rw [if_neg hin, hpid]⟩
          exact hin (List.any_eq_true.mpr ⟨c, hc, beq_iff_eq.mpr (hcp.trans hpid)⟩)

end CollectionsController
