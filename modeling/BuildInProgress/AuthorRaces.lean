import BuildInProgress.Lib.Interleaving
import BuildInProgress.ProjectAuthors
import BuildInProgress.RemixImages

/-!
# The authors of projects under concurrent requests

`add_users` looks whether a user is an author before it makes them one, and `remove_user` does not count the
authors that are left.  Here the requests that write `projects_users` are cut where they access the
database, so that requests under way can interleave.  Each turn reads or writes the authors at most once.
-/

open Text

/-- The requests that write `projects_users`. -/
inductive AuthorRequest where
  | create (u : User) (params : List ProjectAttr)
  | remix (u : User) (p : Nat)
  | addUsers (u : User) (p : Nat) (names : List Text)
  | removeUser (u : User) (p : Nat) (name : Text)

/-- Where a request goes on at its next turn. -/
inductive AuthorPoint where
  | received (r : AuthorRequest)
  /-- `create` has counted the untitled projects. -/
  | save (u : User) (untitled : Nat) (params : List ProjectAttr)
  /-- `remix` has loaded the project and its steps. -/
  | saveRemix (u : User) (project : Project) (ss : List Step)
  /-- The remix `q` of `p` is saved. -/
  | describe (p q : Nat)
  | remixSteps (p q : Nat) (hash : Nat → Option Nat) (ss : List Step)
  | remixImages (q : Nat) (hash : Nat → Option Nat) (ms : List Image)
  /-- `add_users` comes to the next name. -/
  | nextName (u : User) (p : Nat) (names : List Text)
  /-- `add_users` has not found `user` among the authors. -/
  | addAuthor (u : User) (p : Nat) (user : User) (names : List Text)
  /-- `remove_user` is allowed and has found `user`. -/
  | removeAuthor (p : Nat) (user : User)

namespace AuthorPoint

open ProjectsController

theorem key_remixProject (project : Project) (now id : Nat) :
    Keyed.key (Database.remixProject project now id) = id := rfl

/-- The save of a remix: the project, its author and the copies of the steps in one transaction. -/
def insertRemix (u : User) (now : Nat) (project : Project) (ss : List Step) (db : Database) : Database :=
  let q := db.projects.next
  let db := { db with projects := db.projects.insert (Database.remixProject project now) (key_remixProject project now) }
  (db.addAuthor q u.id).insertCopies now q ss

def access (now : Nat) : AuthorPoint → Database → Database × Option AuthorPoint
  | received (.create u params), db => (db, some (save u (numUntitled db u) params))
  | save u untitled params, db => ((saveNew u now untitled params db).2, none)
  | received (.remix u p), db =>
    (db, (db.projects.find? p).map fun project => saveRemix u project (db.projectSteps p))
  | saveRemix u project ss, db =>
    let q := db.projects.next
    if Database.remixValid (Database.remixProject project now q) ss then
      (insertRemix u now project ss db, some (describe project.id q))
    else (db, none)
  | describe p q, db =>
    let db := db.updateProject (some now) q fun r => { r with description := some [] }
    (db, some (remixSteps p q (db.stepHash p q) (db.orderedSteps q)))
  | remixSteps p q hash [], db => (db, some (remixImages q hash (db.orderedImages p)))
  | remixSteps p q hash (s :: ss), db => (Database.remixStep now p hash db s, some (remixSteps p q hash ss))
  | remixImages _ _ [], db => (db, none)
  | remixImages q hash (m :: ms), db => (Database.remixImage q hash db m, some (remixImages q hash ms))
  | received (.addUsers u p names), db =>
    (db, (db.projects.find? p).bind fun project =>
      if Ability.addUsers db u project then some (nextName u p names) else none)
  | nextName _ _ [], db => (db, none)
  | nextName u p (name :: names), db =>
    if ((db.projectUsers p).map User.username).contains name then (db, some (nextName u p names))
    else (db, (db.userNamed name).map fun user => addAuthor u p user names)
  | addAuthor u p user names, db => (addUser u p user db, some (nextName u p names))
  | received (.removeUser u p name), db =>
    (db, (db.projects.find? p).bind fun project =>
      if Ability.removeUser db u project then (db.userNamed name).map fun user => removeAuthor p user else none)
  | removeAuthor p user, db => (ProjectsController.removeAuthor p user db, none)

/-! ## A request that is not interrupted -/

open Interleaving

theorem alone_create (u : User) (now : Nat) (params : List ProjectAttr) (db : Database) :
    Alone access now (received (.create u params)) db (ProjectsController.create u now params db).2 :=
  .more rfl (.last rfl)

theorem alone_addUsers (u : User) (now p : Nat) (names : List Text) (db : Database) :
    Alone access now (received (.addUsers u p names)) db (ProjectsController.addUsers u p names db).2 := by
  -- a name that is found takes two accesses, any other one
  have heach : ∀ (names : List Text) (db : Database),
      Alone access now (nextName u p names) db (addEach u p names db).2 := by
    intro names
    induction names with
    | nil => exact fun _ => .last rfl
    | cons name names ih =>
      intro db
      unfold addEach
      by_cases hin : ((db.projectUsers p).map User.username).contains name = true
      · rw [if_pos hin]
        exact .more (if_pos hin) (ih db)
      · rw [if_neg hin]
        have haccess : access now (nextName u p (name :: names)) db =
            (db, (db.userNamed name).map fun user => addAuthor u p user names) := if_neg hin
        cases hname : db.userNamed name with
        | none =>
          rw [hname] at haccess
          exact .last haccess
        | some user =>
          rw [hname] at haccess
          exact .more haccess (.more rfl (ih _))
  unfold ProjectsController.addUsers
  cases hproject : db.projects.find? p with
  | none =>
    refine .last ?_
    rw [access, hproject]
    rfl
  | some project =>
    have haccess : access now (received (.addUsers u p names)) db =
        (db, if Ability.addUsers db u project then some (nextName u p names) else none) := by
      rw [access, hproject]
      rfl
    dsimp only
    cases hallowed : Ability.addUsers db u project with
    | true =>
      rw [hallowed] at haccess
      exact .more haccess (heach names db)
    | false =>
      rw [hallowed] at haccess
      exact .last haccess

theorem alone_removeUser (u : User) (now p : Nat) (name : Text) (db : Database) :
    Alone access now (received (.removeUser u p name)) db (ProjectsController.removeUser u p name db).2 := by
  unfold ProjectsController.removeUser
  cases hproject : db.projects.find? p with
  | none =>
    refine .last ?_
    rw [access, hproject]
    rfl
  | some project =>
    have haccess : access now (received (.removeUser u p name)) db =
        (db, if Ability.removeUser db u project then (db.userNamed name).map fun user => removeAuthor p user
          else none) := by
      rw [access, hproject]
      rfl
    dsimp only
    cases hallowed : Ability.removeUser db u project with
    | false =>
      rw [hallowed] at haccess
      exact .last haccess
    | true =>
      rw [hallowed, if_pos rfl] at haccess
      cases hname : db.userNamed name with
      | none =>
        rw [hname] at haccess
        exact .last haccess
      | some user =>
        rw [hname] at haccess
        exact .more haccess (.last rfl)

theorem alone_remix (u : User) (now p : Nat) (db : Database) :
    Alone access now (received (.remix u p)) db (db.remix u now p).2 := by
  have himages : ∀ (q : Nat) (hash : Nat → Option Nat) (ms : List Image) (db : Database),
      Alone access now (remixImages q hash ms) db (ms.foldl (Database.remixImage q hash) db) := by
    intro q hash ms
    induction ms with
    | nil => exact fun _ => .last rfl
    | cons m ms ih => exact fun db => .more rfl (ih _)
  have hsteps : ∀ (p q : Nat) (hash : Nat → Option Nat) (ss : List Step) (db : Database),
      Alone access now (remixSteps p q hash ss) db
        (((ss.foldl (Database.remixStep now p hash) db).orderedImages p).foldl (Database.remixImage q hash)
          (ss.foldl (Database.remixStep now p hash) db)) := by
    intro p q hash ss
    induction ss with
    | nil => exact fun db => .more rfl (himages q hash _ db)
    | cons s ss ih => exact fun db => .more rfl (ih _)
  unfold Database.remix
  cases hproject : db.projects.find? p with
  | none =>
    refine .last ?_
    rw [access, hproject]
    rfl
  | some project =>
    have hid : project.id = p := (Table.find?_eq_some.mp hproject).2
    have hreceived : access now (received (.remix u p)) db = (db, some (saveRemix u project (db.projectSteps p))) := by
      rw [access, hproject]
      rfl
    dsimp only
    cases hvalid : Database.remixValid (Database.remixProject project now db.projects.next) (db.projectSteps p) with
    | false =>
      refine .more hreceived (.last ?_)
      rw [access, hvalid]
      rfl
    | true =>
      have hsave : access now (saveRemix u project (db.projectSteps p)) db =
          (insertRemix u now project (db.projectSteps p) db, some (describe p db.projects.next)) := by
        rw [access, hvalid, hid]
        rfl
      refine .more hreceived (.more hsave (.more rfl ?_))
      generalize hdb₁ : insertRemix u now project (db.projectSteps p) db = db₁
      generalize hdb₂ : db₁.updateProject (some now) db.projects.next (fun r => { r with description := some [] }) = db₂
      -- the images are the same before and after the steps
      have himages₁ : db₁.images = db.images := by
        rw [← hdb₁]
        exact Database.touches_insertCopies _ now _ _ .images (by decide)
      have himages₂ : db₂.images = db.images := by
        rw [← hdb₂]
        exact ((Database.SameRecords.updateProject _ _ _ _).touches .images (by decide)).trans himages₁
      have hsame : (db₂.remixSteps now p db.projects.next).orderedImages p =
          (db.projectImages p).insertionSort (Database.imageBefore · ·) := by
        rw [Database.orderedImages, Database.projectImages,
          (Database.touches_remixSteps db₂ now p db.projects.next .images (by decide) : _ = _), himages₂]
        rfl
      have hrest := hsteps p db.projects.next (db₂.stepHash p db.projects.next) (db₂.orderedSteps db.projects.next) db₂
      rw [← Database.remixSteps, hsame] at hrest
      rw [Bool.not_true, if_neg Bool.false_ne_true]
      rw [← hdb₂, ← hdb₁] at hrest ⊢
      exact hrest

end AuthorPoint

/-! ## Authors -/

namespace Database

/-- Every project has an author, and nobody is one twice. -/
structure WellAuthored (db : Database) : Prop where
  authored : ∀ p ∈ db.projects.rows, ∃ pu ∈ db.projectsUsers, pu.1 = p.id
  distinct : db.projectsUsers.Nodup

/-- Authors belong to projects that have been made. -/
def KnownAuthors (db : Database) : Prop := ∀ pu ∈ db.projectsUsers, pu.1 < db.projects.next

/-- The projects there are and their authors are the same. -/
structure SameAuthors (db db' : Database) : Prop where
  projects : SameProjects db db'
  next : db'.projects.next = db.projects.next
  authors : db'.projectsUsers = db.projectsUsers

/-- One project is new, with one author. -/
structure NewAuthored (db db' : Database) : Prop where
  projects : db'.projects.rows.map Keyed.key = db.projects.rows.map Keyed.key ++ [db.projects.next]
  next : db'.projects.next = db.projects.next + 1
  authors : ∃ u, db'.projectsUsers = db.projectsUsers ++ [(db.projects.next, u)]

variable {db db' : Database}

theorem wellAuthored_iff : db.WellAuthored ↔
    (∀ i ∈ db.projects.rows.map Keyed.key, ∃ pu ∈ db.projectsUsers, pu.1 = i) ∧ db.projectsUsers.Nodup := by
  rw [List.forall_mem_map]
  exact ⟨fun h => ⟨h.authored, h.distinct⟩, fun h => ⟨h.1, h.2⟩⟩

theorem SameAuthors.of_touches {names : List TableName} (h : Touches names db db') (hp : .projects ∉ names)
    (hu : .projectsUsers ∉ names) : SameAuthors db db' :=
  ⟨.of_touches h hp, congrArg Table.next (h .projects hp : _ = _), h .projectsUsers hu⟩

theorem SameAuthors.wellAuthored (h : SameAuthors db db') : db'.WellAuthored ↔ db.WellAuthored := by
  rw [wellAuthored_iff, wellAuthored_iff, h.authors, (h.projects : _ = _)]

theorem NewAuthored.wellAuthored (h : NewAuthored db db') (hdb : db.WellAuthored) (hknown : db.KnownAuthors) :
    db'.WellAuthored := by
  obtain ⟨u, hu⟩ := h.authors
  obtain ⟨hauthored, hdistinct⟩ := wellAuthored_iff.mp hdb
  rw [wellAuthored_iff, h.projects, hu, List.forall_mem_append, List.forall_mem_singleton]
  refine ⟨⟨fun i hi => ?_, ⟨_, List.mem_append_right _ List.mem_cons_self, rfl⟩⟩, ?_⟩
  · obtain ⟨pu, hpu, hpi⟩ := hauthored i hi
    exact ⟨pu, List.mem_append_left _ hpu, hpi⟩
  · rw [List.nodup_append]
    refine ⟨hdistinct, List.nodup_singleton _, fun a ha b hb hab => ?_⟩
    -- the id of the new project is in no row yet
    have hlt := hknown a ha
    rw [hab, List.mem_singleton.mp hb] at hlt
    exact Nat.lt_irrefl _ hlt

/-- Adding an author who is one already is all that can go wrong with it. -/
theorem wellAuthored_addAuthor (h : db.WellAuthored) (p u : Nat) :
    (db.addAuthor p u).WellAuthored ↔ db.author p u = false := by
  have hauthor : db.author p u = false ↔ (p, u) ∉ db.projectsUsers := by
    rw [author, List.contains_eq_mem, decide_eq_false_iff_not]
  rw [hauthor]
  constructor
  · intro hafter hmem
    have hnodup : (db.projectsUsers ++ [(p, u)]).Nodup := hafter.distinct
    exact (List.nodup_append.mp hnodup).2.2 _ hmem _ List.mem_cons_self rfl
  · intro hno
    refine ⟨fun q hq => ?_, ?_⟩
    · obtain ⟨pu, hpu, hpq⟩ := h.authored q hq
      exact ⟨pu, List.mem_append_left _ hpu, hpq⟩
    · show (db.projectsUsers ++ [(p, u)]).Nodup
      rw [List.nodup_append]
      refine ⟨h.distinct, List.nodup_singleton _, fun a ha b hb hab => hno ?_⟩
      rw [← List.mem_singleton.mp hb, ← hab]
      exact ha

/-- Removing an author leaves every project one when the project has another one. -/
theorem wellAuthored_deleteAuthor (h : db.WellAuthored) (p u : Nat) :
    (db.deleteAuthor p u).WellAuthored ↔
      ((∃ q ∈ db.projects.rows, q.id = p) → ∃ pu ∈ db.projectsUsers, pu.1 = p ∧ pu.2 ≠ u) := by
  constructor
  · rintro hafter ⟨q, hq, rfl⟩
    obtain ⟨pu, hpu, hpq⟩ := hafter.authored q hq
    obtain ⟨hmem, hne⟩ := List.mem_filter.mp hpu
    rw [decide_eq_true_eq] at hne
    exact ⟨pu, hmem, hpq, fun hu => hne (Prod.ext hpq hu)⟩
  · intro hleft
    refine ⟨fun q hq => ?_, h.distinct.filter _⟩
    by_cases hqp : q.id = p
    · obtain ⟨pu, hpu, hpq, hne⟩ := hleft ⟨q, hq, hqp⟩
      exact ⟨pu, List.mem_filter.mpr ⟨hpu, decide_eq_true fun heq => hne (congrArg Prod.snd heq)⟩, hpq.trans hqp.symm⟩
    · obtain ⟨pu, hpu, hpq⟩ := h.authored q hq
      exact ⟨pu, List.mem_filter.mpr ⟨hpu, decide_eq_true fun heq => hqp (hpq.symm.trans (congrArg Prod.fst heq))⟩, hpq⟩

end Database

/-! ## One access -/

namespace AuthorPoint

open Database Interleaving

/-- What an access does to the authors. -/
theorem access_cases (now : Nat) (r : AuthorPoint) (db : Database) :
    SameAuthors db (access now r db).1 ∨ NewAuthored db (access now r db).1 ∨
      (∃ u p user names, r = addAuthor u p user names) ∨ ∃ p user, r = removeAuthor p user := by
  cases r with
  | received r =>
    cases r with
    | _ => exact Or.inl ⟨.refl db, rfl, rfl⟩
  | save u untitled params =>
    rcases ProjectsController.saveNew_cases u now untitled params db with ⟨-, heq⟩ | ⟨-, hrows, hnext, hauthors, -⟩
    · exact Or.inl (by rw [access, heq]; exact ⟨.refl db, rfl, rfl⟩)
    · refine Or.inr (Or.inl ⟨?_, hnext, u.id, hauthors⟩)
      rw [access, hrows, List.map_append]
      rfl
  | saveRemix u project ss =>
    unfold access
    dsimp only
    split
    -- a step is copied into the new project, whose row and author are there already
    · have hcopies : Touches [.steps] _ (insertRemix u now project ss db) := touches_insertCopies _ now db.projects.next ss
      refine Or.inr (Or.inl ⟨?_, congrArg Table.next (hcopies .projects (by decide) : _ = _), u.id,
        hcopies .projectsUsers (by decide)⟩)
      rw [(hcopies .projects (by decide) : _ = _)]
      have hrows : (db.projects.insert (remixProject project now) (fun _ => rfl)).rows =
          db.projects.rows ++ [remixProject project now db.projects.next] := rfl
      show ((db.projects.insert (remixProject project now) (fun _ => rfl)).rows.map _) = _
      rw [hrows, List.map_append]
      rfl
    · exact Or.inl ⟨.refl db, rfl, rfl⟩
  -- the attributes of the remix change, its key does not
  | describe p q =>
    refine Or.inl ⟨?_, next_updateProject db _ _ _, ?_⟩
    · exact SameColumn.updateProject (g := Keyed.key) (fun _ _ => rfl) db _ _ (fun _ => rfl) fun _ => rfl
    · exact (SameRecords.updateProject _ _ _ _).touches .projectsUsers (by decide)
  | remixSteps p q hash ss =>
    cases ss with
    | nil => exact Or.inl ⟨.refl db, rfl, rfl⟩
    | cons s ss => exact Or.inl (.of_touches (touches_remixStep db now p hash s) (by decide) (by decide))
  | remixImages q hash ms =>
    cases ms with
    | nil => exact Or.inl ⟨.refl db, rfl, rfl⟩
    | cons m ms => exact Or.inl (.of_touches (touches_remixImages db q hash [m]) (by decide) (by decide))
  | nextName u p names =>
    cases names with
    | nil => exact Or.inl ⟨.refl db, rfl, rfl⟩
    | cons name names =>
      rw [access]
      split
      · exact Or.inl ⟨.refl db, rfl, rfl⟩
      · exact Or.inl ⟨.refl db, rfl, rfl⟩
  | addAuthor u p user names => exact Or.inr (Or.inr (Or.inl ⟨u, p, user, names, rfl⟩))
  | removeAuthor p user => exact Or.inr (Or.inr (Or.inr ⟨p, user, rfl⟩))

/-- What a request under way knows: the project it adds authors to exists. -/
def Known (r : AuthorPoint) (db : Database) : Prop :=
  match r with
  | nextName _ p _ => p < db.projects.next
  | addAuthor _ p _ _ => p < db.projects.next
  | _ => True

theorem Known.mono {r : AuthorPoint} {db db' : Database} (hle : db.projects.next ≤ db'.projects.next)
    (h : r.Known db) : r.Known db' := by
  cases r with
  | nextName u p names => exact Nat.lt_of_lt_of_le h hle
  | addAuthor u p user names => exact Nat.lt_of_lt_of_le h hle
  | _ => trivial

theorem keeps_known : Keeps AuthorPoint.received access Database.KnownAuthors Known := by
  refine ⟨fun _ _ _ => trivial, ?_, ?_, ?_⟩
  · intro now r db hdb hr
    -- the database stays as it should
    rcases access_cases now r db with hsame | hnew | ⟨u, p, user, names, rfl⟩ | ⟨p, user, rfl⟩
    · rw [KnownAuthors, hsame.next, hsame.authors]
      exact hdb
    · obtain ⟨u, hu⟩ := hnew.authors
      rw [KnownAuthors, hnew.next, hu, List.forall_mem_append, List.forall_mem_singleton]
      exact ⟨fun pu hpu => Nat.lt_succ_of_lt (hdb pu hpu), Nat.lt_succ_self _⟩
    · show ∀ pu ∈ db.projectsUsers ++ [(p, user.id)], pu.1 < db.projects.next
      rw [List.forall_mem_append, List.forall_mem_singleton]
      exact ⟨hdb, hr⟩
    · exact fun pu hpu => hdb pu (List.mem_filter.mp hpu).1
  · intro now r db _ hr q hq
    -- the point that comes next names a project that is there
    cases r with
    | received r =>
      cases r with
      | addUsers u p names =>
        obtain ⟨project, hproject, hnext⟩ := Option.bind_eq_some_iff.mp hq
        obtain ⟨hmem, rfl⟩ := Table.find?_eq_some.mp hproject
        split at hnext
        · cases hnext
          exact (db.projects.bound project hmem).2
        · cases hnext
      | removeUser u p name =>
        obtain ⟨project, -, hnext⟩ := Option.bind_eq_some_iff.mp hq
        split at hnext
        · obtain ⟨user, -, rfl⟩ := Option.map_eq_some_iff.mp hnext
          trivial
        · cases hnext
      | create u params =>
        cases hq
        trivial
      | remix u p =>
        obtain ⟨project, -, rfl⟩ := Option.map_eq_some_iff.mp hq
        trivial
    | nextName u p names =>
      cases names with
      | nil => cases hq
      | cons name names =>
        rw [access] at hq ⊢
        by_cases hin : ((db.projectUsers p).map User.username).contains name = true
        · rw [if_pos hin] at hq ⊢
          cases hq
          exact hr
        · rw [if_neg hin] at hq ⊢
          obtain ⟨user, -, rfl⟩ := Option.map_eq_some_iff.mp hq
          exact hr
    | addAuthor u p user names =>
      cases hq
      exact hr
    | saveRemix u project ss =>
      unfold access at hq
      dsimp only at hq
      split at hq
      · cases hq
        trivial
      · cases hq
    | remixSteps p q hash ss =>
      cases ss with
      | nil =>
        cases hq
        trivial
      | cons s ss =>
        cases hq
        trivial
    | remixImages q hash ms =>
      cases ms with
      | nil => cases hq
      | cons m ms =>
        cases hq
        trivial
    | describe p q =>
      cases hq
      trivial
    | save u untitled params => cases hq
    | removeAuthor p user => cases hq
  · intro now r db _ _ q hq
    -- and keeps doing so, since no key is used twice
    refine hq.mono ?_
    rcases access_cases now r db with hsame | hnew | ⟨u, p, user, names, rfl⟩ | ⟨p, user, rfl⟩
    · rw [hsame.next]
    · rw [hnew.next]
      exact Nat.le_succ _
    · exact Nat.le_refl _
    · exact Nat.le_refl _

/-- When an author is added they are none yet, and when one is removed the project has another one. -/
def KeepsAuthors (r : AuthorPoint) (db : Database) : Prop :=
  match r with
  | addAuthor _ p user _ => db.author p user.id = false
  | removeAuthor p user => (∃ q ∈ db.projects.rows, q.id = p) → ∃ pu ∈ db.projectsUsers, pu.1 = p ∧ pu.2 ≠ user.id
  | _ => True

theorem keepsAuthors_iff {now : Nat} {r : AuthorPoint} {db : Database} (hknown : db.KnownAuthors)
    (h : db.WellAuthored) : r.KeepsAuthors db ↔ (access now r db).1.WellAuthored := by
  have hactivities : ∀ (db : Database) (activities : Table Activity),
      ({ db with activities } : Database).WellAuthored ↔ db.WellAuthored := fun db activities =>
    SameAuthors.wellAuthored ⟨.refl db, rfl, rfl⟩
  cases r with
  | addAuthor u p user names => exact (wellAuthored_addAuthor h p user.id).symm.trans (hactivities _ _).symm
  | removeAuthor p user => exact (wellAuthored_deleteAuthor h p user.id).symm.trans (hactivities _ _).symm
  | _ =>
    refine iff_of_true trivial ?_
    rcases access_cases now _ db with hsame | hnew | ⟨_, _, _, _, hr⟩ | ⟨_, _, hr⟩
    · exact hsame.wellAuthored.mpr h
    · exact hnew.wellAuthored h hknown
    · cases hr
    · cases hr

end AuthorPoint

/-- However the requests interleave, every project has an author and nobody is one twice, at every moment,
exactly when no turn adds somebody who has become an author since the check, or removes the only author. -/
theorem authors_kept_iff {db : Database} (h : db.WellAuthored) (hknown : db.KnownAuthors)
    (es : List (Interleaving.Event AuthorRequest Nat)) :
    (∀ n, (Run.after (Interleaving.step AuthorPoint.received AuthorPoint.access) ⟨db, []⟩ (es.take n)).shared.WellAuthored) ↔
      Run.Along (Interleaving.step AuthorPoint.received AuthorPoint.access)
        (fun s (e : Interleaving.Event AuthorRequest Nat) =>
          Interleaving.Admits (fun _ (r : AuthorPoint) db => r.KeepsAuthors db) s e) ⟨db, []⟩ es :=
  AuthorPoint.keeps_known.forall_take_iff (fun _ _ _ hknown _ h => AuthorPoint.keepsAuthors_iff hknown h)
    ⟨hknown, fun _ hp => by cases hp⟩ h es

namespace Database

instance (db : Database) : Decidable db.WellAuthored :=
  decidable_of_iff ((∀ p ∈ db.projects.rows, ∃ pu ∈ db.projectsUsers, pu.1 = p.id) ∧ db.projectsUsers.Nodup)
    ⟨fun h => ⟨h.1, h.2⟩, fun h => ⟨h.authored, h.distinct⟩⟩

instance (db : Database) : Decidable db.KnownAuthors :=
  inferInstanceAs (Decidable (∀ pu ∈ db.projectsUsers, pu.1 < db.projects.next))

instance (r : AuthorPoint) (db : Database) : Decidable (r.KeepsAuthors db) := by
  unfold AuthorPoint.KeepsAuthors
  split <;> infer_instance

/-- A lamp of two authors or of one. -/
def lampOf (authors : List (Nat × Nat)) : Database :=
  { oneProject "Lamp".toList (some "public".toList) with
    users := adaAndBob
    projectsUsers := authors }

end Database

theorem authors_kept_lampOf :
    (Run.after (Interleaving.step AuthorPoint.received AuthorPoint.access) ⟨.lampOf [(1, 1)], []⟩
      (List.take 4 [.arrive (.addUsers ada 1 ["bob".toList]), .turn 0 2, .turn 0 3, .turn 0 4])).shared.WellAuthored :=
  (authors_kept_iff (by decide +kernel) (by decide +kernel) _).mpr (by decide +kernel) 4

/-- The only author leaves; two authors remove each other; two requests add the same user. -/
theorem authors_lost :
    (Database.lampOf [(1, 1)]).WellAuthored ∧ (Database.lampOf [(1, 1), (1, 2)]).WellAuthored ∧
      ¬ (Run.after (Interleaving.step AuthorPoint.received AuthorPoint.access) ⟨.lampOf [(1, 1)], []⟩
          [.arrive (.removeUser ada 1 "ada".toList), .turn 0 2, .turn 0 3]).shared.WellAuthored ∧
      ¬ (Run.after (Interleaving.step AuthorPoint.received AuthorPoint.access) ⟨.lampOf [(1, 1), (1, 2)], []⟩
          [.arrive (.removeUser ada 1 "bob".toList), .arrive (.removeUser bob 1 "ada".toList), .turn 0 2, .turn 1 2,
            .turn 0 3, .turn 0 3]).shared.WellAuthored ∧
      ¬ (Run.after (Interleaving.step AuthorPoint.received AuthorPoint.access) ⟨.lampOf [(1, 1)], []⟩
          [.arrive (.addUsers ada 1 ["bob".toList]), .arrive (.addUsers ada 1 ["bob".toList]), .turn 0 2, .turn 1 2,
            .turn 0 3, .turn 1 3, .turn 0 4, .turn 1 4]).shared.WellAuthored := by
  refine ⟨by decide +kernel, by decide +kernel, by decide +kernel, by decide +kernel, by decide +kernel⟩
