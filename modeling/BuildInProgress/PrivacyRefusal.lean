import BuildInProgress.ActivityDeletion
import BuildInProgress.MediaAuthorization
import BuildInProgress.RecordTimestamps

/-!
# A refused change of privacy

`update_privacy` saves the new privacy and asks for permission afterwards, once for every membership of the project and
while it removes them.  A request that is refused has therefore written something, unless nothing was to be saved and
the first membership already refuses.
-/

open Text

namespace ProjectsController

open Database

/-- The database refuses the value that the save would write. -/
def refusesPrivacy (project : Project) (privacy : Option Text) : Bool :=
  project.valid && project.privacy != privacy && !privacy.all fitsString

/-- `GET /projects/:id/update_privacy` in a worker.  A list or a hash is written as its YAML text, which is never
`private`. -/
def updatePrivacyIn (u : User) (now i : Nat) (privacy : Option Text) (w : Worker) : Outcome × Worker :=
  match w.db.projects.find? i with
  | none => (.notFound, w)
  | some project =>
    -- the switch stays off when the save raises
    let w := { w with projectTimestamps := false }
    if refusesPrivacy project privacy then (.error, w)
    else
      let db := w.db.updateProject none i fun p => { p with privacy }
      let w := { w with db, projectTimestamps := true }
      if privacy = some "private".toList then
        let r := leaveCollections u now (db.collectifies.rows.filter (·.projectId = i)) db
        (r.1, { w with db := r.2 })
      else (.ok, w)

/-- With a value that fits, the request is `updatePrivacy`. -/
theorem updatePrivacyIn_fits (u : User) (now i : Nat) {privacy : Option Text} (h : privacy.all fitsString = true)
    (w : Worker) : (updatePrivacyIn u now i privacy w).1 = (updatePrivacy u now i privacy w.db).1 ∧
      (updatePrivacyIn u now i privacy w).2.db = (updatePrivacy u now i privacy w.db).2 := by
  unfold updatePrivacyIn updatePrivacy
  cases w.db.projects.find? i with
  | none => exact ⟨rfl, rfl⟩
  | some project =>
    have hrefuses : refusesPrivacy project privacy = false := by
      rw [refusesPrivacy, h]
      simp
    dsimp only
    rw [hrefuses, if_neg Bool.false_ne_true]
    by_cases hprivate : privacy = some "private".toList
    · rw [if_pos hprivate, if_pos hprivate]
      exact ⟨rfl, rfl⟩
    · rw [if_neg hprivate, if_neg hprivate]
      exact ⟨rfl, rfl⟩

end ProjectsController

/-! ## The memberships one after the other -/

namespace Database

variable {db₀ db db' : Database} {u : User} {p : Nat} {c : Collectify} {cs : List Collectify}

/-- The loop ends with an exception at this membership: the user may not remove it, or its collection is missing. -/
def Stops (db : Database) (u : User) (c : Collectify) : Prop :=
  Ability.destroyCollectify db u c ≠ some true ∨ db.collections.find? c.collectionId = none

/-- The loop has come to the memberships `cs` and has not touched what the permissions depend on. -/
structure Emptying (db₀ : Database) (u : User) (p : Nat) (cs : List Collectify) (db : Database) : Prop where
  allowed : ∀ c, Ability.destroyCollectify db u c = Ability.destroyCollectify db₀ u c
  collections : ∀ j, (db.collections.find? j).map (fun k => (k.id, k.name, k.userId)) =
    (db₀.collections.find? j).map fun k => (k.id, k.name, k.userId)
  left : db.collectifies.rows.filter (·.projectId = p) = cs

namespace Emptying

theorem stops_iff (h : Emptying db₀ u p cs db) (c : Collectify) : db.Stops u c ↔ db₀.Stops u c := by
  have hnone : db.collections.find? c.collectionId = none ↔ db₀.collections.find? c.collectionId = none := by
    rw [← Option.map_eq_none_iff (f := fun k : Collection => (k.id, k.name, k.userId)), h.collections,
      Option.map_eq_none_iff]
  rw [Stops, h.allowed, hnone, Stops]

theorem next (h : Emptying db₀ u p (c :: cs) db) (hr : Removed c db db') : Emptying db₀ u p cs db' := by
  refine ⟨fun x => ?_, fun j => (hr.collections j).trans (h.collections j), hr.left h.left⟩
  rw [destroyCollectify_congr (hr.touches .projects (by decide)) (hr.touches .projectsUsers (by decide))
    hr.collections, h.allowed]

/-- Deleting activities does not matter to the loop. -/
theorem activities (h : Emptying db₀ u p cs db) (as : Table Activity) :
    Emptying db₀ u p cs { db with activities := as } := ⟨h.allowed, h.collections, h.left⟩

/-- The membership that `remove!` finds is the one the loop is at, also where the project is in a collection twice. -/
theorem found (h : Emptying db₀ u p (c :: cs) db) :
    (db.collectifies.rows.find? fun r => r.collectionId = c.collectionId ∧ r.projectId = c.projectId) = some c := by
  have hc : c ∈ db.collectifies.rows.filter (·.projectId = p) := h.left ▸ List.mem_cons_self
  rw [List.mem_filter, decide_eq_true_eq] at hc
  have hsplit : (fun r : Collectify => decide (r.collectionId = c.collectionId ∧ r.projectId = c.projectId)) =
      fun r => decide (decide (r.projectId = p) = true ∧ decide (r.collectionId = c.collectionId) = true) := by
    funext r
    rw [hc.2, decide_eq_decide, decide_eq_true_eq, decide_eq_true_eq, and_comm]
  rw [hsplit, ← List.find?_filter, h.left, List.find?_cons_of_pos (by simp)]

end Emptying

end Database

namespace ProjectsController

open Database

/-- The memberships that are left afterwards were there before. -/
theorem rows_leaveCollections (u : User) (now : Nat) (cs : List Collectify) (db : Database) :
    List.Sublist (leaveCollections u now cs db).2.collectifies.rows db.collectifies.rows := by
  induction cs generalizing db with
  | nil => exact List.Sublist.refl _
  | cons c cs ih =>
    unfold leaveCollections
    rcases authorize_cases (Ability.destroyCollectify db u c) db _ with ⟨-, heq⟩ | ⟨-, heq⟩
    · rw [heq]
      dsimp only
      split
      · exact List.Sublist.refl _
      · split
        · exact List.Sublist.refl _
        · rename_i k _ _ db₁ hremove
          have hremoved : List.Sublist db₁.collectifies.rows db.collectifies.rows := by
            unfold removeFromCollection at hremove
            split at hremove
            · cases hremove
            · cases hremove
              rw [collectifies_updateCollection]
              exact List.filter_sublist
          refine (ih _).trans ?_
          split
          · exact hremoved
          · show List.Sublist (db₁.updateCollection _ _ _).collectifies.rows _
            rw [collectifies_updateCollection]
            exact hremoved
    · rw [heq]

/-- A membership that stops the loop costs at most the activities with its id. -/
theorem leaveCollections_stops {db : Database} {u : User} {c : Collectify} (h : db.Stops u c) (now : Nat)
    (cs : List Collectify) : (leaveCollections u now (c :: cs) db).1 ≠ .ok ∧ (leaveCollections u now (c :: cs) db).2 =
      if Ability.destroyCollectify db u c = some true then db.destroyActivities (some c.id) else db := by
  unfold leaveCollections
  rcases authorize_cases (Ability.destroyCollectify db u c) db _ with ⟨hallowed, heq⟩ | ⟨hdenied, heq⟩
  · have hnone : db.collections.find? c.collectionId = none := h.resolve_left (not_not.mpr hallowed)
    rw [heq, if_pos hallowed]
    dsimp only
    rw [show (db.destroyActivities (some c.id)).collections = db.collections from rfl, hnone]
    exact ⟨by simp, rfl⟩
  · refine ⟨fun hok => hdenied (authorize_ok hok).1, ?_⟩
    rw [heq, if_neg hdenied]

/-- Any other membership is gone before the loop goes on. -/
theorem leaveCollections_goes {db₀ db : Database} {u : User} {p : Nat} {c : Collectify} {cs : List Collectify}
    (h : Emptying db₀ u p (c :: cs) db) (hgo : ¬ db.Stops u c) (now : Nat) :
    ∃ db', Emptying db₀ u p cs db' ∧ c ∉ db'.collectifies.rows ∧
      leaveCollections u now (c :: cs) db = leaveCollections u now cs db' := by
  obtain ⟨hallowed, hsome⟩ := not_or.mp hgo
  obtain ⟨k, hk⟩ := Option.ne_none_iff_exists'.mp hsome
  have hkid : k.id = c.collectionId := (Table.find?_eq_some.mp hk).2
  have hforget : Emptying db₀ u p (c :: cs) (db.destroyActivities (some c.id)) := h.activities _
  have hfound := hforget.found
  rw [← hkid] at hfound
  obtain ⟨db₁, hremove, hremoved⟩ := removeFromCollection_found hfound now
  have hgone : ∀ {db₂ db' : Database}, Removed c db₂ db' → c ∉ db'.collectifies.rows := by
    intro db₂ db' hr hc
    rw [hr.rows, List.mem_filter] at hc
    simp at hc
  have hk' : (db.destroyActivities (some c.id)).collections.find? c.collectionId = some k := hk
  rw [leaveCollections, not_not.mp hallowed, authorize]
  dsimp only
  rw [hk']
  dsimp only
  rw [hremove]
  dsimp only
  split
  · exact ⟨db₁, hforget.next hremoved, hgone hremoved, rfl⟩
  · have hmarked := hremoved.updateCollection (some now) k.id
    refine ⟨_, ?_, ?_, rfl⟩
    · exact (hforget.next hmarked).activities _
    · have hrows := hgone hmarked
      exact hrows

/-- The loop comes to its end exactly when no membership stops it. -/
theorem leaveCollections_ok_iff {db₀ db : Database} {u : User} {p : Nat} {cs : List Collectify}
    (h : Emptying db₀ u p cs db) (now : Nat) :
    (leaveCollections u now cs db).1 = .ok ↔ ∀ c ∈ cs, ¬ db₀.Stops u c := by
  -- no removal changes what the loop is allowed to do with the next membership
  induction cs generalizing db with
  | nil => exact iff_of_true rfl nofun
  | cons c cs ih =>
    rw [List.forall_mem_cons, ← h.stops_iff]
    by_cases hstops : db.Stops u c
    · exact iff_of_false (leaveCollections_stops hstops now cs).1 fun hall => hall.1 hstops
    · obtain ⟨db', hnext, -, heq⟩ := leaveCollections_goes h hstops now
      rw [heq, ih hnext, and_iff_right hstops]

end ProjectsController

/-! ## What a failed request leaves behind -/

/-- What the request is about is as it was: the privacy of the project, the memberships, whether each collection is
published, the activities and the switch of the class. -/
structure Undisturbed (i : Nat) (w w' : Worker) : Prop where
  privacy : w'.db.privacyOf i = w.db.privacyOf i
  collectifies : w'.db.collectifies.rows = w.db.collectifies.rows
  collections : w'.db.collections.rows.map (fun k => (k.id, k.published)) =
    w.db.collections.rows.map fun k => (k.id, k.published)
  activities : w'.db.activities.rows = w.db.activities.rows
  timestamps : w'.projectTimestamps = w.projectTimestamps

namespace Database

/-- A stop at this membership leaves no trace: it is denied, or no activity has its id. -/
def StopsClean (db : Database) (u : User) (c : Collectify) : Prop :=
  db.Stops u c ∧ (Ability.destroyCollectify db u c = some true → ∀ a ∈ db.activities.rows, a.trackableId ≠ some c.id)

/-- When a failure of the request leaves nothing behind.  The value that the database refuses leaves the switch off, so
it was off before.  Otherwise no membership stops the loop, or the first one does, with nothing to save and the switch
on. -/
def FailsClean (u : User) (i : Nat) (privacy : Option Text) (w : Worker) (project : Project) : Prop :=
  if ProjectsController.refusesPrivacy project privacy then w.projectTimestamps = false
  else privacy = some "private".toList →
    (∀ c ∈ w.db.collectifies.rows, c.projectId = i → ¬ w.db.Stops u c) ∨
      (w.projectTimestamps = true ∧ (project.valid = false ∨ project.privacy = privacy) ∧
        ∃ c, w.db.collectifies.rows.find? (·.projectId = i) = some c ∧ w.db.StopsClean u c)

end Database

namespace ProjectsController

open Database

theorem emptying_updateProject (db : Database) (u : User) (i : Nat) (privacy : Option Text) :
    Emptying db u i (db.collectifies.rows.filter (·.projectId = i))
      (db.updateProject none i fun p => { p with privacy }) := by
  have htouches := touches_updateProject db none i fun p => { p with privacy }
  have hallowed := destroyCollectify_updateProject db none i (f := fun p => { p with privacy }) (fun _ => rfl) u
  refine ⟨hallowed, fun j => ?_, ?_⟩
  · rw [(htouches .collections (by decide) : _ = _)]
  · rw [(htouches .collectifies (by decide) : _ = _)]

/-- A loop that its first membership stops leaves everything as it was when there was nothing to write, the switch was
on and no activity goes. -/
theorem stopped_undisturbed_iff {w : Worker} {i : Nat} {project : Project}
    (hproject : w.db.projects.find? i = some project) (privacy : Option Text) (allowed : Prop) [Decidable allowed]
    (c : Collectify) {db : Database} (hdb : w.db.updateProject none i (fun p => { p with privacy }) = db) :
    Undisturbed i w { w with db := if allowed then db.destroyActivities (some c.id) else db, projectTimestamps := true } ↔
      w.projectTimestamps = true ∧ (project.valid = false ∨ project.privacy = privacy) ∧
        (allowed → ∀ a ∈ w.db.activities.rows, a.trackableId ≠ some c.id) := by
  have htouches : Touches [.projects] w.db db := hdb ▸ touches_updateProject w.db none i fun p => { p with privacy }
  have hcollections : db.collections = w.db.collections := htouches .collections (by decide)
  have hcollectifies : db.collectifies = w.db.collectifies := htouches .collectifies (by decide)
  have hactivities : db.activities = w.db.activities := htouches .activities (by decide)
  have hwritten : db.privacyOf i = w.db.privacyOf i ↔ project.valid = false ∨ project.privacy = privacy := by
    rw [← hdb, privacyOf_updateProject_privacy hproject, privacyOf, hproject, Option.map_some, Option.some.injEq]
    cases project.valid with
    | false => simp
    | true => simp [eq_comm]
  rw [← hwritten]
  -- the activities are only deleted when the user may remove the membership
  by_cases hallowed : allowed
  · rw [if_pos hallowed, forall_prop_of_true hallowed]
    have hforgotten : (db.destroyActivities (some c.id)).activities.rows = w.db.activities.rows ↔
        ∀ a ∈ w.db.activities.rows, a.trackableId ≠ some c.id := by
      rw [← hactivities]
      show db.activities.rows.filter (·.trackableId ≠ some c.id) = _ ↔ _
      rw [List.filter_eq_self]
      simp
    rw [← hforgotten]
    constructor
    · intro h
      exact ⟨h.timestamps.symm, h.privacy, h.activities⟩
    · intro h
      exact ⟨h.2.1, congrArg Table.rows hcollectifies, congrArg _ (congrArg Table.rows hcollections), h.2.2, h.1.symm⟩
  · rw [if_neg hallowed, forall_prop_of_false hallowed, and_true]
    constructor
    · intro h
      exact ⟨h.timestamps.symm, h.privacy⟩
    · intro h
      exact ⟨h.2, congrArg Table.rows hcollectifies, congrArg _ (congrArg Table.rows hcollections),
        congrArg Table.rows hactivities, h.1.symm⟩

/-- With the value written, the loop leaves everything as it was, if it fails, only where it fails at once and there was
nothing to write. -/
theorem leaveCollections_undisturbed_iff {w : Worker} {i : Nat} {project : Project}
    (hproject : w.db.projects.find? i = some project) (u : User) (now : Nat) (privacy : Option Text) :
    ((leaveCollections u now (w.db.collectifies.rows.filter (·.projectId = i))
        (w.db.updateProject none i fun p => { p with privacy })).1 ≠ .ok →
      Undisturbed i w { w with
        db := (leaveCollections u now (w.db.collectifies.rows.filter (·.projectId = i))
          (w.db.updateProject none i fun p => { p with privacy })).2
        projectTimestamps := true }) ↔
      (∀ c ∈ w.db.collectifies.rows, c.projectId = i → ¬ w.db.Stops u c) ∨
        (w.projectTimestamps = true ∧ (project.valid = false ∨ project.privacy = privacy) ∧
          ∃ c, w.db.collectifies.rows.find? (·.projectId = i) = some c ∧ w.db.StopsClean u c) := by
  have hempty := emptying_updateProject w.db u i privacy
  have hall : (∀ c ∈ w.db.collectifies.rows, c.projectId = i → ¬ w.db.Stops u c) ↔
      ∀ c ∈ w.db.collectifies.rows.filter (·.projectId = i), ¬ w.db.Stops u c := by
    refine forall_congr' fun c => ?_
    rw [List.mem_filter, decide_eq_true_eq, and_imp]
  have hhead := List.head?_filter (p := fun c : Collectify => decide (c.projectId = i)) (l := w.db.collectifies.rows)
  have hmem : ∀ c ∈ w.db.collectifies.rows.filter (·.projectId = i), c ∈ w.db.collectifies.rows :=
    fun c hc => (List.mem_filter.mp hc).1
  rw [hall, ← leaveCollections_ok_iff hempty now]
  generalize hdb : (w.db.updateProject none i fun p => { p with privacy }) = db at *
  generalize w.db.collectifies.rows.filter (·.projectId = i) = cs at *
  cases cs with
  | nil => exact iff_of_true (fun hne => absurd rfl hne) (Or.inl rfl)
  | cons c cs =>
    rw [List.head?_cons] at hhead
    -- only the first membership matters: the loop fails there, or has removed it
    by_cases hstops : w.db.Stops u c
    · obtain ⟨hne, heq⟩ := leaveCollections_stops ((hempty.stops_iff c).mpr hstops) now cs
      have hfirst : (∃ c', w.db.collectifies.rows.find? (·.projectId = i) = some c' ∧ w.db.StopsClean u c') ↔
          (Ability.destroyCollectify w.db u c = some true → ∀ a ∈ w.db.activities.rows, a.trackableId ≠ some c.id) := by
        rw [← hhead]
        constructor
        · intro h
          obtain ⟨c', hc', hclean⟩ := h
          rw [Option.some.inj hc']
          exact hclean.2
        · intro h
          exact ⟨c, rfl, hstops, h⟩
      rw [or_iff_right hne, forall_prop_of_true hne, heq, hempty.allowed, hfirst]
      exact stopped_undisturbed_iff hproject privacy _ c hdb
    · -- the membership is gone, whatever comes after it
      obtain ⟨db', hnext, hgone, heq⟩ := leaveCollections_goes hempty (mt (hempty.stops_iff c).mp hstops) now
      have hlost : ¬ Undisturbed i w { w with db := (leaveCollections u now (c :: cs) db).2, projectTimestamps := true } := by
        intro hsame
        have hc := hmem c List.mem_cons_self
        rw [← hsame.collectifies] at hc
        dsimp only at hc
        rw [heq] at hc
        exact hgone ((rows_leaveCollections u now cs db').subset hc)
      constructor
      · intro h
        by_contra hcontra
        rw [not_or] at hcontra
        exact hlost (h hcontra.1)
      · intro h hne
        obtain ⟨-, -, c', hc', hclean⟩ := h.resolve_left hne
        rw [← hhead, Option.some.injEq] at hc'
        rw [← hc'] at hclean
        exact absurd hclean.1 hstops

/-- From any worker a request to change the privacy of a project leaves everything as it was, if it fails, exactly
under `FailsClean`. -/
theorem privacy_refusal_undisturbed_iff (u : User) (now i : Nat) (privacy : Option Text) (w : Worker) :
    ((updatePrivacyIn u now i privacy w).1 ≠ .ok → Undisturbed i w (updatePrivacyIn u now i privacy w).2) ↔
      ∀ project, w.db.projects.find? i = some project → FailsClean u i privacy w project := by
  have hcollectifies : (w.db.updateProject none i fun p => { p with privacy }).collectifies = w.db.collectifies :=
    touches_updateProject w.db none i _ .collectifies (by decide)
  unfold updatePrivacyIn
  cases hproject : w.db.projects.find? i with
  | none => exact iff_of_true (fun _ => ⟨rfl, rfl, rfl, rfl, rfl⟩) fun _ h => by cases h
  | some project =>
    have hone : (∀ q, some project = some q → FailsClean u i privacy w q) ↔ FailsClean u i privacy w project :=
      ⟨fun h => h project rfl, fun h q hq => Option.some.inj hq ▸ h⟩
    rw [hone, FailsClean]
    dsimp only
    by_cases hrefuses : refusesPrivacy project privacy = true
    · rw [if_pos hrefuses, if_pos hrefuses]
      constructor
      · intro h
        exact (h nofun).timestamps.symm
      · intro hoff _
        exact ⟨rfl, rfl, rfl, rfl, hoff.symm⟩
    · rw [if_neg hrefuses, if_neg hrefuses]
      by_cases hprivate : privacy = some "private".toList
      · rw [if_pos hprivate, forall_prop_of_true hprivate, hcollectifies]
        exact leaveCollections_undisturbed_iff hproject u now privacy
      · rw [if_neg hprivate]
        exact iff_of_true (fun h => absurd rfl h) fun h => absurd h hprivate

end ProjectsController

/-- Ada's project in a collection of Bob and in one of hers, with the activity about the first membership. -/
def twoCollections : Worker where
  db := { Database.oneProject "Lamp".toList (some "public".toList) with
    users := Database.adaAndBob
    collections := .ofRows [⟨1, "Lights".toList, some 2, some true, none, 0⟩,
      ⟨2, "Rooms".toList, some 1, some true, none, 0⟩] 3 (by decide)
    collectifies := .ofRows [⟨1, 1, 1⟩, ⟨2, 2, 1⟩] 3 (by decide)
    activities := .ofRows [⟨1, some .collectify, some 1, "collectify.create".toList, some 2, some 1, none⟩] 2
      (by decide) }
  stepTimestamps := true
  projectTimestamps := true

/-- Bob may take the project out of his own collection only.  He is denied when it is private and gone from there. -/
theorem denied_halfway :
    (ProjectsController.updatePrivacyIn bob 60 1 (some "private".toList) twoCollections).1 = .denied ∧
      (ProjectsController.updatePrivacyIn bob 60 1 (some "private".toList)
        twoCollections).2.db.privacyOf 1 = some (some "private".toList) ∧
      (ProjectsController.updatePrivacyIn bob 60 1 (some "private".toList)
        twoCollections).2.db.collectifies.rows = [⟨2, 2, 1⟩] ∧
      ¬ Undisturbed 1 twoCollections
        (ProjectsController.updatePrivacyIn bob 60 1 (some "private".toList) twoCollections).2 := by
  refine ⟨by decide +kernel, by decide +kernel, by decide +kernel, fun hsame => ?_⟩
  exact absurd hsame.privacy (by decide +kernel)
