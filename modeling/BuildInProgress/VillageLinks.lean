import BuildInProgress.Lib.Exclusive
import BuildInProgress.RemixLineage
import BuildInProgress.ProjectRows

/-!
# Projects on the Village

A public project of somebody who comes from the Village is pushed there.  The id that the Village answers
is stored in `village_id`; later requests update and delete the entry of that id.
-/

open Text

/-- What the Village pushes ask of the current user: a `uid` and an access token. -/
structure Login where
  fromVillage : Bool
  token : Bool
  deriving DecidableEq, Repr

inductive VillageVerb where
  | post | put | delete
  deriving DecidableEq, Repr

/-- A call to the Village for a project: the entry it is about, and who else holds that entry then. -/
structure VillageCall where
  verb : VillageVerb
  project : Nat
  entry : Nat
  others : List Nat
  deriving DecidableEq, Repr

/-- The database, the ids the Village has given out, and the calls to it so far. -/
structure Linked where
  db : Database
  issued : List Nat
  calls : List VillageCall

namespace Database

/-- The other projects with this `village_id`. -/
def holders (db : Database) (p v : Nat) : List Nat :=
  (db.projects.rows.filter fun q => q.id ≠ p ∧ q.villageId = some v).map Project.id

end Database

namespace Linked

/-- The ids in use: given out before, or stored with a project. -/
def known (w : Linked) : List Nat := w.issued ++ w.db.projects.rows.filterMap Project.villageId

variable (post : List Nat → Nat)

/-- `StepsController#create_village_project` -/
def createVillageProject (now p : Nat) (w : Linked) : Linked where
  db := w.db.updateProject (some now) p fun r => { r with villageId := some (post w.known) }
  issued := post w.known :: w.issued
  calls := w.calls ++ [⟨.post, p, post w.known, w.db.holders p (post w.known)⟩]

/-- `update_village_project` -/
def updateVillageProject (p v : Nat) (w : Linked) : Linked :=
  { w with calls := w.calls ++ [⟨.put, p, v, w.db.holders p v⟩] }

/-- `destroy_village_project` -/
def destroyVillageProject (token : Bool) (p v : Nat) (w : Linked) : Linked :=
  if token then { w with calls := w.calls ++ [⟨.delete, p, v, w.db.holders p v⟩] } else w

/-- The push at the end of a request about the steps of a project that it has loaded at its beginning. -/
def push (login : Login) (now : Nat) (project : Project) (w : Linked) : Linked :=
  match project.villageId with
  | none =>
    if login.fromVillage && project.isPublic && login.token then createVillageProject post now project.id w else w
  | some v => if login.token then updateVillageProject project.id v w else w

/-- `ProjectsController#create_village_project` writes `ENV[APP_NAME]`.  There is no such constant, so it raises in
front of the POST. -/
def raiseVillageProject (w : Linked) : Outcome × Linked := (.error, w)

/-- The push at the end of `add_users`. -/
def pushAuthors (login : Login) (project : Project) (w : Linked) : Outcome × Linked :=
  match project.villageId with
  | none => if login.fromVillage && project.isPublic && login.token then raiseVillageProject w else (.ok, w)
  | some v => (.ok, if login.token then updateVillageProject project.id v w else w)

/-- The push at the end of an update of the project; the entry is looked up once more. -/
def pushUpdated (login : Login) (saved : Project) (w : Linked) : Outcome × Linked :=
  match saved.villageId with
  | none => if saved.isPublic && login.fromVillage && login.token then raiseVillageProject w else (.ok, w)
  | some _ =>
    if w.db.published saved && login.fromVillage && login.token then
      match (w.db.projects.find? saved.id).bind Project.villageId with
      | none => (.ok, w)
      | some v => (.ok, updateVillageProject saved.id v w)
    else (.ok, w)

end Linked

/-- The requests that make projects or push them to the Village. -/
inductive VillageRequest where
  | createProject (u : User) (now : Nat) (params : List ProjectAttr)
  | remix (u : User) (now p : Nat)
  | createStep (login : Login) (u : User) (now : Nat) (html : Bool) (p : Nat) (params : List StepAttr)
  | updateStep (login : Login) (u : User) (now p : Nat) (id : Int) (params : List StepAttr)
  | updateProject (login : Login) (u : User) (now p : Nat) (params : List ProjectAttr)
  | addUsers (login : Login) (u : User) (p : Nat) (names : List Text)
  | removeUser (login : Login) (u : User) (p : Nat) (name : Text) (fromVillage : Bool)
  | destroyProject (login : Login) (u : User) (now p : Nat)

namespace VillageRequest

open Linked

variable (post : List Nat → Nat)

/-- What a completed request about the project `p` pushes. -/
def pushed (pushes : Project → Linked → Linked) (p : Nat) (r : Outcome × Database) (w : Linked) : Linked :=
  match w.db.projects.find? p with
  | none => { w with db := r.2 }
  | some project => if r.1 = .ok then pushes project { w with db := r.2 } else { w with db := r.2 }

def perform (w : Linked) : VillageRequest → Linked
  | createProject u now params => { w with db := (ProjectsController.create u now params w.db).2 }
  | remix u now p => { w with db := (w.db.remix u now p).2 }
  | createStep login u now html p params =>
    let r := StepsController.create u now html p params w.db
    -- only the page answer pushes
    if html then pushed (push post login now) p r w else { w with db := r.2 }
  | updateStep login u now p id params =>
    pushed (push post login now) p (StepsController.update u now p id params w.db) w
  | updateProject login u now p params =>
    let r := ProjectsController.update u now p params w.db
    match ProjectsController.saves u now p params w.db with
    | none => { w with db := r.2 }
    | some project => (pushUpdated login (ProjectAttr.record now params project) { w with db := r.2 }).2
  | addUsers login u p names =>
    pushed (fun project w => (pushAuthors login project w).2) p (ProjectsController.addUsers u p names w.db) w
  | removeUser login u p name fromVillage =>
    let r := ProjectsController.removeUser u p name w.db
    match (w.db.projects.find? p).bind Project.villageId with
    | none => { w with db := r.2 }
    | some v =>
      if r.1 = .ok && fromVillage && login.token then updateVillageProject p v { w with db := r.2 }
      else { w with db := r.2 }
  | destroyProject login u now p =>
    let r := ProjectsController.destroy u now p w.db
    match (w.db.projects.find? p).bind Project.villageId with
    | none => { w with db := r.2 }
    | some v => if r.1 = .ok then { destroyVillageProject login.token p v w with db := r.2 } else { w with db := r.2 }

end VillageRequest

/-! ## Who holds which entry -/

namespace Project

/-- The entry a project holds. -/
def link (p : Project) : Nat × Option Nat := (p.id, p.villageId)

theorem link_updated (stamp : Option Nat) {f : Project → Project} (hf : ∀ p, (f p).link = p.link) (p : Project) :
    (p.updated stamp f).link = p.link := by
  unfold updated
  split
  · rfl
  · exact hf p

theorem link_republished (published : Bool) (now : Nat) (p : Project) :
    (p.republished published now).link = p.link := by
  unfold republished
  split
  · exact link_updated _ (by intro _; rfl) p
  · split
    · exact link_updated _ (by intro _; rfl) p
    · split
      · dsimp only
        rw [link_updated _ (by intro _; rfl)]
        split
        · exact link_updated _ (by intro _; rfl) p
        · rfl
      · rfl

end Project

namespace Database

open Holdings

/-- No two projects have the same `village_id`. -/
def ExclusiveLinks (db : Database) : Prop :=
  ∀ p ∈ db.projects.rows, ∀ q ∈ db.projects.rows, ∀ v, p.villageId = some v → q.villageId = some v → p.id = q.id

def links (db : Database) : List (Nat × Option Nat) := db.projects.rows.map Project.link

variable {db db' : Database}

theorem exclusiveLinks_iff : db.ExclusiveLinks ↔ Exclusive db.links := by
  constructor
  · intro h a ha b hb v hav hbv
    obtain ⟨p, hp, rfl⟩ := List.mem_map.mp ha
    obtain ⟨q, hq, rfl⟩ := List.mem_map.mp hb
    exact h p hp q hq v hav hbv
  · intro h p hp q hq
    exact h p.link (List.mem_map_of_mem hp) q.link (List.mem_map_of_mem hq)

theorem mem_links {p : Project} (hp : p ∈ db.projects.rows) : (p.id, p.villageId) ∈ db.links :=
  List.mem_map_of_mem (f := Project.link) hp

theorem mem_links_of_find? {i : Nat} {p : Project} (h : db.projects.find? i = some p) : (i, p.villageId) ∈ db.links := by
  obtain ⟨hp, rfl⟩ := Table.find?_eq_some.mp h
  exact mem_links hp

theorem holders_eq_nil {p v : Nat} (h : FreeFor db.links p (some v)) : db.holders p v = [] := by
  rw [holders, List.map_eq_nil_iff, List.filter_eq_nil_iff]
  intro q hq hv
  rw [decide_eq_true_eq] at hv
  exact h v rfl q.link (List.mem_map_of_mem hq) hv.1 hv.2

/-- The id of a row that is rewritten once. -/
theorem links_map {p : Nat} {f : Project → Project} {o : Option Nat} (hf : ∀ r, (f r).link = (r.id, o))
    (hrows : db'.projects.rows = db.projects.rows.map fun r => if r.id = p then f r else r) :
    db'.links = write db.links p o := by
  rw [links, hrows, links, write, List.map_map, List.map_map]
  apply List.map_congr_left
  intro r _
  show Project.link (if r.id = p then f r else r) = if r.id = p then (p, o) else r.link
  by_cases hr : r.id = p
  · rw [if_pos hr, if_pos hr, hf, hr]
  · rw [if_neg hr, if_neg hr]

theorem links_concat {x : Project} (hrows : db'.projects.rows = db.projects.rows ++ [x]) :
    db'.links = db.links ++ [(x.id, x.villageId)] := by
  rw [links, hrows, List.map_append]
  rfl

theorem ne_next_of_mem_links {a : Nat × Option Nat} (ha : a ∈ db.links) : a.1 ≠ db.projects.next := by
  obtain ⟨p, hp, rfl⟩ := List.mem_map.mp ha
  exact Nat.ne_of_lt (db.projects.bound p hp).2

/-- Storing an id of the Village, if the project is valid. -/
theorem links_updateProject (db : Database) (now p v : Nat) :
    (db.updateProject (some now) p fun r => { r with villageId := some v }).links = db.links ∨
      (db.updateProject (some now) p fun r => { r with villageId := some v }).links = write db.links p (some v) := by
  unfold updateProject
  cases hfind : db.projects.find? p with
  | none => exact Or.inl rfl
  | some r =>
    obtain ⟨-, rfl⟩ := Table.find?_eq_some.mp hfind
    dsimp only
    split
    · exact Or.inl rfl
    · refine Or.inr (links_map (f := fun q => { r with id := q.id, villageId := some v, updatedAt := now })
        (fun _ => rfl) ?_)
      rw [putProject, Table.rows_modify]
      rfl

end Database

/-! ## Every request -/

namespace Linked

open Holdings Database

/-- The links are exclusive, and no call was about an entry that another project held. -/
structure Safe (w : Linked) : Prop where
  exclusive : w.db.ExclusiveLinks
  harmless : ∀ c ∈ w.calls, c.others = []

variable {post : List Nat → Nat} {w : Linked}

theorem Safe.congr (h : w.Safe) {db : Database} (hlinks : db.links = w.db.links) : ({ w with db } : Linked).Safe :=
  ⟨exclusiveLinks_iff.mpr (hlinks ▸ exclusiveLinks_iff.mp h.exclusive), h.harmless⟩

theorem harmless_concat (h : ∀ c ∈ w.calls, c.others = []) {verb : VillageVerb} {p v : Nat}
    (hfree : FreeFor w.db.links p (some v)) : ∀ c ∈ w.calls ++ [⟨verb, p, v, w.db.holders p v⟩], c.others = [] := by
  rw [List.forall_mem_append, List.forall_mem_singleton]
  exact ⟨h, holders_eq_nil hfree⟩

theorem Safe.updateVillageProject (h : w.Safe) {p v : Nat} (hmem : (p, some v) ∈ w.db.links) :
    (w.updateVillageProject p v).Safe :=
  ⟨h.exclusive, harmless_concat h.harmless ((exclusiveLinks_iff.mp h.exclusive).freeFor hmem)⟩

theorem Safe.destroyVillageProject (h : w.Safe) {token : Bool} {p v : Nat} (hmem : (p, some v) ∈ w.db.links) :
    (w.destroyVillageProject token p v).Safe := by
  unfold Linked.destroyVillageProject
  split
  · exact ⟨h.exclusive, harmless_concat h.harmless ((exclusiveLinks_iff.mp h.exclusive).freeFor hmem)⟩
  · exact h

/-- A fresh id is nobody's. -/
theorem freeFor_post (hfresh : ∀ l, post l ∉ l) (p : Nat) : FreeFor w.db.links p (some (post w.known)) := by
  intro v hv a ha _ hav
  obtain ⟨q, hq, rfl⟩ := List.mem_map.mp ha
  refine hfresh w.known (List.mem_append_right _ (List.mem_filterMap.mpr ⟨q, hq, ?_⟩))
  rw [hv]
  exact hav

theorem Safe.createVillageProject (h : w.Safe) (hfresh : ∀ l, post l ∉ l) {now p : Nat} {o : Option Nat}
    (hmem : (p, o) ∈ w.db.links) : (w.createVillageProject post now p).Safe := by
  refine ⟨exclusiveLinks_iff.mpr ?_, harmless_concat h.harmless (freeFor_post hfresh p)⟩
  have hexclusive := exclusiveLinks_iff.mp h.exclusive
  show Exclusive (w.db.updateProject (some now) p fun r => { r with villageId := some (post w.known) }).links
  rcases links_updateProject w.db now p (post w.known) with hsame | hwrite
  · rw [hsame]
    exact hexclusive
  · rw [hwrite, exclusive_write hexclusive ⟨_, hmem, rfl⟩]
    exact freeFor_post hfresh p

theorem Safe.push (h : w.Safe) (hfresh : ∀ l, post l ∉ l) {login : Login} {now : Nat} {project : Project}
    (hmem : (project.id, project.villageId) ∈ w.db.links) : (w.push post login now project).Safe := by
  unfold Linked.push
  cases hv : project.villageId with
  | none =>
    dsimp only
    split
    · exact h.createVillageProject hfresh hmem
    · exact h
  | some v =>
    rw [hv] at hmem
    dsimp only
    split
    · exact h.updateVillageProject hmem
    · exact h

theorem Safe.pushAuthors (h : w.Safe) {login : Login} {project : Project}
    (hmem : (project.id, project.villageId) ∈ w.db.links) : (w.pushAuthors login project).2.Safe := by
  unfold Linked.pushAuthors
  cases hv : project.villageId with
  | none =>
    dsimp only
    split
    · exact h
    · exact h
  | some v =>
    rw [hv] at hmem
    dsimp only
    split
    · exact h.updateVillageProject hmem
    · exact h

theorem Safe.pushUpdated (h : w.Safe) (login : Login) (saved : Project) : (w.pushUpdated login saved).2.Safe := by
  unfold Linked.pushUpdated
  cases saved.villageId with
  | none =>
    dsimp only
    split
    · exact h
    · exact h
  | some _ =>
    dsimp only
    split
    · cases hfind : w.db.projects.find? saved.id with
      | none => exact h
      | some r =>
        rw [Option.bind_some]
        have hlink := mem_links_of_find? hfind
        cases hv : r.villageId with
        | none => exact h
        | some v =>
          rw [hv] at hlink
          exact h.updateVillageProject hlink
    · exact h

/-- What `ProjectsController#update` pushes leaves the links as they are. -/
theorem db_pushUpdated (login : Login) (saved : Project) : (w.pushUpdated login saved).2.db = w.db := by
  unfold Linked.pushUpdated
  cases saved.villageId with
  | none =>
    dsimp only
    split
    · rfl
    · rfl
  | some _ =>
    dsimp only
    split
    · split
      · rfl
      · rfl
    · rfl

end Linked

namespace ProjectsController

open Database Holdings

/-- A new project is saved when no nested image claims to exist and the record is valid. -/
theorem saveNew_ok_iff {u : User} {now untitled : Nat} {params : List ProjectAttr} {db : Database} :
    (saveNew u now untitled params db).1 = .ok ↔ (ProjectAttr.imagesOf params).any (·.1.isSome) = false ∧
      remixValid (newProject now untitled params db.projects.next) [] = true := by
  unfold saveNew
  dsimp only
  cases (ProjectAttr.imagesOf params).any (·.1.isSome) with
  | true => simp
  | false =>
    cases remixValid (newProject now untitled params db.projects.next) [] with
    | true => simp
    | false => simp

theorem projects_addUsers (u : User) (p : Nat) (names : List Text) (db : Database) :
    (addUsers u p names db).2.projects = db.projects := by
  have heach : ∀ (names : List Text) (db : Database), (addEach u p names db).2.projects = db.projects := by
    intro names
    induction names with
    | nil => exact fun _ => rfl
    | cons name names ih =>
      intro db
      unfold addEach
      split
      · exact ih db
      · split
        · rfl
        · exact ih _
  unfold addUsers
  split
  · rfl
  · rename_i project _
    rcases authorize_cases (some (Ability.addUsers db u project)) db (addEach u p names db) with ⟨-, heq⟩ | ⟨-, heq⟩
    · rw [heq]
      exact heach names db
    · rw [heq]

theorem projects_removeUser (u : User) (p : Nat) (name : Text) (db : Database) :
    (removeUser u p name db).2.projects = db.projects := by
  unfold removeUser
  split
  · rfl
  · rename_i project _
    rcases authorize_cases (some (Ability.removeUser db u project)) db _ with ⟨-, heq⟩ | ⟨-, heq⟩
    · rw [heq]
      split
      · rfl
      · rfl
    · rw [heq]

/-- A deletion takes one holding away. -/
theorem links_destroy_subset (u : User) (now p : Nat) (db : Database) : (destroy u now p db).2.links ⊆ db.links := by
  by_cases hok : (destroy u now p db).1 = .ok
  · obtain ⟨project, -, -, hrows⟩ := projects_destroy hok
    intro a ha
    rw [links, hrows] at ha
    obtain ⟨r', hr', rfl⟩ := List.mem_map.mp ha
    obtain ⟨r, hr, rfl⟩ := List.mem_map.mp (List.mem_filter.mp hr').1
    have hlink : (adoptedRemix project r).link = r.link := by
      unfold adoptedRemix
      split
      · rfl
      · rfl
    rw [hlink]
    exact List.mem_map_of_mem hr
  · rw [destroy_of_not_ok hok]
    exact List.Subset.refl _

/-- An update that saves writes the submitted holding, if there is one. -/
theorem links_update {u : User} {now p : Nat} {params : List ProjectAttr} {db : Database} {project : Project}
    (h : saves u now p params db = some project) :
    (update u now p params db).2.links = write db.links p (ProjectAttr.record now params project).villageId := by
  rcases update_saves u now p params db with ⟨hnone, -⟩ | ⟨q, hq, hsaves, -, hrows, -, -⟩
  · cases hnone.symm.trans h
  · cases hsaves.symm.trans h
    have hid : project.id = p := (Table.find?_eq_some.mp hq).2
    have hlink : (rowAfter db now params project).link = (p, (ProjectAttr.record now params project).villageId) := by
      have hrecord : (ProjectAttr.record now params project).link =
          (p, (ProjectAttr.record now params project).villageId) := by
        rw [Project.link, ProjectAttr.record_id, hid]
      unfold rowAfter
      split
      · rw [Project.link_republished, hrecord]
      · exact hrecord
    rw [links, hrows, links, write, List.map_map, List.map_map]
    apply List.map_congr_left
    intro r _
    show Project.link (if r.id = p then rowAfter db now params project else r) = if r.id = p then (p, _) else r.link
    split
    · exact hlink
    · rfl

end ProjectsController

theorem Database.remix_isSome {u : User} {now p : Nat} {db : Database} :
    (db.remix u now p).1.isSome = true ↔ ∃ project, db.projects.find? p = some project ∧
      remixValid (remixProject project now db.projects.next) (db.projectSteps p) = true := by
  rw [remix]
  cases hfind : db.projects.find? p with
  | none => simp
  | some project =>
    dsimp only
    cases hvalid : remixValid (remixProject project now db.projects.next) (db.projectSteps p) with
    | true => simp [hvalid]
    | false => simp [hvalid]

namespace VillageRequest

open Linked Holdings Database

/-- The request gives no project an entry that another one holds: a submitted `village_id` is free, and what
is remixed has none. -/
def KeepsLinks (w : Linked) : VillageRequest → Prop
  | createProject u now params =>
    let q := ProjectsController.newProject now (ProjectsController.numUntitled w.db u) params w.db.projects.next
    (ProjectAttr.imagesOf params).any (·.1.isSome) = false → remixValid q [] = true → FreeFor w.db.links q.id q.villageId
  | remix _ now p => ∀ project, w.db.projects.find? p = some project →
      remixValid (remixProject project now w.db.projects.next) (w.db.projectSteps p) = true → project.villageId = none
  | updateProject _ u now p params => ∀ project, ProjectsController.saves u now p params w.db = some project →
      FreeFor w.db.links p (ProjectAttr.record now params project).villageId
  | _ => True

variable {post : List Nat → Nat} {w : Linked}

theorem safe_pushed (h : w.Safe) {pushes : Project → Linked → Linked} {p : Nat} {r : Outcome × Database}
    (hpushes : ∀ {w : Linked} {project : Project}, w.Safe → (project.id, project.villageId) ∈ w.db.links →
      (pushes project w).Safe) (hlinks : r.2.links = w.db.links) : (pushed pushes p r w).Safe := by
  have hafter : ({ w with db := r.2 } : Linked).Safe := h.congr hlinks
  unfold pushed
  cases hfind : w.db.projects.find? p with
  | none => exact hafter
  | some project =>
    dsimp only
    split
    · refine hpushes hafter ?_
      rw [hlinks]
      exact mem_links (Table.find?_eq_some.mp hfind).1
    · exact hafter

/-- The row of a new project adds its holding. -/
theorem safe_insert_iff (h : w.Safe) {db : Database} {x : Project} (hx : x.id = w.db.projects.next)
    (hrows : db.projects.rows = w.db.projects.rows ++ [x]) :
    ({ w with db } : Linked).Safe ↔ FreeFor w.db.links x.id x.villageId := by
  have hexclusive := exclusiveLinks_iff.mp h.exclusive
  have hnew : ∀ a ∈ w.db.links, a.1 ≠ x.id := fun a ha => hx ▸ ne_next_of_mem_links ha
  have hlinks := links_concat hrows
  constructor
  · intro hsafe
    have hafter := exclusiveLinks_iff.mp hsafe.exclusive
    rw [hlinks] at hafter
    exact (exclusive_concat hexclusive hnew).mp hafter
  · intro hfree
    refine ⟨exclusiveLinks_iff.mpr ?_, h.harmless⟩
    rw [hlinks]
    exact (exclusive_concat hexclusive hnew).mpr hfree

theorem safe_createProject_iff (h : w.Safe) (u : User) (now : Nat) (params : List ProjectAttr) :
    (createProject u now params).KeepsLinks w ↔ (perform post w (createProject u now params)).Safe := by
  rw [perform, ProjectsController.create]
  rcases ProjectsController.saveNew_cases u now (ProjectsController.numUntitled w.db u) params w.db with
    ⟨hno, heq⟩ | ⟨hok, hrows, -, -, -⟩
  · rw [heq]
    refine iff_of_true (fun hnested hvalid => absurd ?_ hno) h
    exact ProjectsController.saveNew_ok_iff.mpr ⟨hnested, hvalid⟩
  · obtain ⟨hnested, hvalid⟩ := ProjectsController.saveNew_ok_iff.mp hok
    rw [safe_insert_iff h rfl hrows]
    constructor
    · intro hkeeps
      exact hkeeps hnested hvalid
    · intro hfree _ _
      exact hfree

theorem safe_remix_iff (h : w.Safe) (u : User) (now p : Nat) :
    (remix u now p).KeepsLinks w ↔ (perform post w (remix u now p)).Safe := by
  rw [perform]
  rcases w.db.remix_project u now p with heq | ⟨project, description, hproject, hsome, hrows, -, -, -⟩
  · rw [heq]
    refine iff_of_true (fun project hproject hvalid => ?_) h
    have hsome : (w.db.remix u now p).1.isSome = true := remix_isSome.mpr ⟨project, hproject, hvalid⟩
    rw [heq] at hsome
    cases hsome
  · rw [safe_insert_iff h rfl hrows]
    constructor
    · intro hkeeps
      obtain ⟨q, hq, hvalid⟩ := remix_isSome.mp (by rw [hsome]; rfl)
      cases hproject.symm.trans hq
      show FreeFor w.db.links w.db.projects.next project.villageId
      rw [hkeeps project hproject hvalid]
      exact freeFor_none
    · intro hfree q hq _
      cases hproject.symm.trans hq
      -- the project itself holds what its remix would hold
      have hmem := mem_links (Table.find?_eq_some.mp hproject).1
      cases hv : project.villageId with
      | none => rfl
      | some v =>
        rw [hv] at hmem
        exact absurd rfl (hfree v hv _ hmem (ne_next_of_mem_links hmem))

theorem safe_updateProject_iff (h : w.Safe) (login : Login) (u : User) (now p : Nat)
    (params : List ProjectAttr) :
    (updateProject login u now p params).KeepsLinks w ↔ (perform post w (updateProject login u now p params)).Safe := by
  have hexclusive := exclusiveLinks_iff.mp h.exclusive
  rw [perform]
  cases hsaves : ProjectsController.saves u now p params w.db with
  | none =>
    have hlinks : (ProjectsController.update u now p params w.db).2.links = w.db.links := by
      rcases ProjectsController.update_saves u now p params w.db with ⟨-, -, hps, -⟩ | ⟨q, -, hsome, -⟩
      · rw [links, hps, links]
      · cases hsaves.symm.trans hsome
    exact iff_of_true (fun q hq => by cases hsaves.symm.trans hq) (h.congr hlinks)
  | some project =>
    have hlinks := ProjectsController.links_update hsaves
    have hproject : w.db.projects.find? p = some project := (Option.filter_eq_some_iff.mp hsaves).1
    have hmem := mem_links_of_find? hproject
    constructor
    · intro hkeeps
      have hafter : ({ w with db := (ProjectsController.update u now p params w.db).2 } : Linked).Safe := by
        refine ⟨exclusiveLinks_iff.mpr ?_, h.harmless⟩
        rw [hlinks]
        exact (exclusive_write hexclusive ⟨_, hmem, rfl⟩).mpr (hkeeps project hsaves)
      exact hafter.pushUpdated login _
    · intro hsafe q hq
      cases hsaves.symm.trans hq
      have hafter := exclusiveLinks_iff.mp hsafe.exclusive
      rw [db_pushUpdated, hlinks] at hafter
      exact (exclusive_write hexclusive ⟨_, hmem, rfl⟩).mp hafter

/-- The entry of a project that gave up a user is still its own. -/
theorem safe_removeUser (h : w.Safe) (login : Login) (u : User) (p : Nat) (name : Text) (fromVillage : Bool) :
    (perform post w (removeUser login u p name fromVillage)).Safe := by
  have hlinks : (ProjectsController.removeUser u p name w.db).2.links = w.db.links := by
    rw [links, ProjectsController.projects_removeUser, links]
  rw [perform]
  cases hfind : w.db.projects.find? p with
  | none => exact h.congr hlinks
  | some project =>
    have hmem := mem_links_of_find? hfind
    rw [Option.bind_some]
    cases hv : project.villageId with
    | none => exact h.congr hlinks
    | some v =>
      rw [hv, ← hlinks] at hmem
      dsimp only
      split
      · exact (h.congr hlinks).updateVillageProject hmem
      · exact h.congr hlinks

/-- The entry is deleted while the project still holds it. -/
theorem safe_destroyProject (h : w.Safe) (login : Login) (u : User) (now p : Nat) :
    (perform post w (destroyProject login u now p)).Safe := by
  have hsub := ProjectsController.links_destroy_subset u now p w.db
  have hgone : ∀ {w' : Linked}, w'.Safe → w'.db = w.db →
      ({ w' with db := (ProjectsController.destroy u now p w.db).2 } : Linked).Safe := fun hw hdb =>
    ⟨exclusiveLinks_iff.mpr ((exclusiveLinks_iff.mp (hdb ▸ hw.exclusive)).subset hsub), hw.harmless⟩
  rw [perform]
  cases hfind : w.db.projects.find? p with
  | none => exact hgone h rfl
  | some project =>
    have hmem := mem_links_of_find? hfind
    rw [Option.bind_some]
    cases hv : project.villageId with
    | none => exact hgone h rfl
    | some v =>
      rw [hv] at hmem
      dsimp only
      split
      · refine hgone (h.destroyVillageProject hmem) ?_
        unfold destroyVillageProject
        split
        · rfl
        · rfl
      · exact hgone h rfl

/-- A request keeps the links exclusive and harms no entry exactly when it hands out none twice. -/
theorem safe_perform (hfresh : ∀ l, post l ∉ l) (h : w.Safe) (r : VillageRequest) :
    r.KeepsLinks w ↔ (perform post w r).Safe := by
  cases r with
  | createProject u now params => exact safe_createProject_iff h u now params
  | remix u now p => exact safe_remix_iff h u now p
  | createStep login u now html p params =>
    have hlinks : (StepsController.create u now html p params w.db).2.links = w.db.links :=
      StepsController.sameColumn_create w.db (fun _ _ => rfl) (fun _ _ => rfl) (fun _ _ => rfl) (fun _ _ => rfl) u now
        html p params
    refine iff_of_true trivial ?_
    rw [perform]
    split
    · exact safe_pushed h (fun hw hmem => hw.push hfresh hmem) hlinks
    · exact h.congr hlinks
  | updateStep login u now p id params =>
    exact iff_of_true trivial (safe_pushed h (fun hw hmem => hw.push hfresh hmem)
      (StepsController.sameColumn_update w.db (fun _ _ => rfl) (fun _ _ => rfl) (fun _ _ => rfl) (fun _ _ => rfl) u now p
        id params))
  | updateProject login u now p params => exact safe_updateProject_iff h login u now p params
  | addUsers login u p names =>
    refine iff_of_true trivial (safe_pushed h (fun hw hmem => hw.pushAuthors hmem) ?_)
    rw [links, ProjectsController.projects_addUsers, links]
  | removeUser login u p name fromVillage => exact iff_of_true trivial (safe_removeUser h login u p name fromVillage)
  | destroyProject login u now p => exact iff_of_true trivial (safe_destroyProject h login u now p)

end VillageRequest

/-- When the Village gives every new entry a fresh id, the links stay exclusive in every state of a run, and no
call is about an entry of another project, exactly when no request of the run hands an entry out twice. -/
theorem village_links_exclusive_iff {post : List Nat → Nat} (hfresh : ∀ l, post l ∉ l) {w : Linked} (h : w.Safe)
    (rs : List VillageRequest) :
    (∀ n, (Run.after (VillageRequest.perform post) w (rs.take n)).Safe) ↔
      Run.Along (VillageRequest.perform post) (fun w (r : VillageRequest) => r.KeepsLinks w) w rs :=
  Run.along_iff_forall_take (A := fun _ _ => True) (I := Linked.Safe) (J := fun _ => True) (fun _ _ _ _ => trivial)
    (fun _ r _ hw _ => VillageRequest.safe_perform hfresh hw r) trivial h (Run.Along.of_forall fun _ _ => trivial)

namespace Database

instance (db : Database) : Decidable db.ExclusiveLinks :=
  decidable_of_iff (∀ p ∈ db.projects.rows, ∀ q ∈ db.projects.rows, p.villageId.isSome = true →
    p.villageId = q.villageId → p.id = q.id) <| by
    constructor
    · intro h p hp q hq v hv hv'
      exact h p hp q hq (by rw [hv]; rfl) (hv.trans hv'.symm)
    · intro h p hp q hq hsome heq
      obtain ⟨v, hv⟩ := Option.isSome_iff_exists.mp hsome
      exact h p hp q hq v hv (heq.symm.trans hv)

end Database

namespace Linked

instance (w : Linked) : Decidable w.Safe :=
  decidable_of_iff (w.db.ExclusiveLinks ∧ ∀ c ∈ w.calls, c.others = [])
    ⟨fun h => ⟨h.1, h.2⟩, fun h => ⟨h.exclusive, h.harmless⟩⟩

/-- A public lamp that is not on the Village yet. -/
def lamp : Linked := ⟨Database.oneProject "Lamp".toList (some "public".toList), [], []⟩

/-- A Village that counts its entries up. -/
def countUp (l : List Nat) : Nat := l.max?.getD 0 + 1

theorem countUp_fresh (l : List Nat) : countUp l ∉ l := by
  intro hmem
  have hle : countUp l ≤ l.max?.getD 0 := List.le_max?_getD_of_mem hmem
  rw [countUp] at hle
  omega

end Linked

theorem village_links_lamp :
    (Run.after (VillageRequest.perform Linked.countUp) .lamp
      (List.take 2 [.createStep ⟨true, true⟩ ada 2 true 1 [.name "Saw".toList], .destroyProject ⟨true, true⟩ ada 3 1])).Safe :=
  (village_links_exclusive_iff Linked.countUp_fresh (by decide +kernel) _).mpr (by exact ⟨trivial, trivial, trivial⟩) 2

/-- The project is pushed with its first step.  A remix keeps the `village_id`, and the author of the remix deletes the
entry of the original with it. -/
theorem remix_keeps_village_id :
    (∀ l, Linked.countUp l ∉ l) ∧ Linked.lamp.Safe ∧
      let w := Run.after (VillageRequest.perform Linked.countUp) .lamp
        [.createStep ⟨true, true⟩ ada 2 true 1 [.name "Saw".toList], .remix bob 3 1]
      ¬ w.db.ExclusiveLinks ∧
        ∃ c ∈ (VillageRequest.perform Linked.countUp w (.destroyProject ⟨true, true⟩ bob 4 2)).calls,
          c.verb = .delete ∧ c.project = 2 ∧ c.others = [1] :=
  ⟨Linked.countUp_fresh, by decide +kernel, by decide +kernel, by decide +kernel⟩
