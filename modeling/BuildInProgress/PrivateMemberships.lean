import BuildInProgress.CollectionRequests
import BuildInProgress.PublishedRows
import BuildInProgress.RemixImages

/-!
# Private projects and collections

A project that is made private leaves its collections.  A project that is private already may be added to
one: the form for it asks first, and lets private projects into collections that are not public.  So a
membership of a private project is one that was made when the project was private.
-/

open Text

/-- The requests that change which projects are private, or what is in a collection. -/
inductive MembershipRequest where
  | addProject (u : User) (now i : Nat) (p : Option Nat)
  | removeProject (u : User) (now i p : Nat)
  | updateProject (u : User) (now p : Nat) (params : List ProjectAttr)
  | projectPrivacy (u : User) (now p : Nat) (privacy : Option Text)
  | remix (u : User) (now p : Nat)

namespace MembershipRequest

open ProjectsController

def perform (db : Database) : MembershipRequest → Database
  | addProject u now i p => (CollectionsController.addProject u now i p db).2
  | removeProject u now i p => (CollectifiesController.destroy u now i p db).2
  | updateProject u now p params => (ProjectsController.update u now p params db).2
  | projectPrivacy u now p privacy => (ProjectsController.updatePrivacy u now p privacy db).2
  | remix u now p => (db.remix u now p).2

/-- The request came to its end. -/
def Completes (db : Database) : MembershipRequest → Prop
  | addProject u now i p => (CollectionsController.addProject u now i p db).1 = .ok ∨
      (CollectionsController.addProject u now i p db).1 = .refused
  | removeProject u now i p => (CollectifiesController.destroy u now i p db).1 = .ok
  | updateProject u now p params => (ProjectsController.update u now p params db).1 = .ok
  | projectPrivacy u now p privacy => (ProjectsController.updatePrivacy u now p privacy db).1 = .ok
  | remix _ _ _ => True

/-- The update of a project does not make a project of a collection private.  A private record is unlisted
when `set_published` is asked about it and finds it unpublished. -/
def UpdatesOpenly (db : Database) : MembershipRequest → Prop
  | updateProject u now p params => ∀ project, saves u now p params db = some project →
      (ProjectAttr.record now params project).isPrivate = true → project.isPrivate = true ∨
        (asks now params project = true ∧ publishedAfter db now params project = false) ∨
        ∀ c ∈ db.collectifies.rows, c.projectId ≠ p
  | _ => True

end MembershipRequest

namespace Database

/-- The membership is one of a private project. -/
def OfPrivate (db : Database) (c : Collectify) : Prop :=
  ∃ p, db.projects.find? c.projectId = some p ∧ p.isPrivate = true

variable {db db' : Database}

theorem ofPrivate_congr (h : db'.projects = db.projects) (c : Collectify) : db'.OfPrivate c ↔ db.OfPrivate c := by
  rw [OfPrivate, h, OfPrivate]

theorem UniqueMemberships.sublist (h : db.UniqueMemberships)
    (hrows : List.Sublist db'.collectifies.rows db.collectifies.rows) : db'.UniqueMemberships :=
  List.Nodup.sublist (hrows.map _) h

/-- Where one project row is written, a membership comes to be one of a private project only by that row. -/
theorem OfPrivate.of_rows {g : Project → Project} {i : Nat}
    (hrows : db'.projects.rows = db.projects.rows.map fun p => if p.id = i then g p else p)
    (hg : ∀ p, p.id = i → (g p).id = i) {c : Collectify} (h : db'.OfPrivate c)
    (hkept : c.projectId = i → ∀ p, db.projects.find? i = some p → (g p).isPrivate = true → p.isPrivate = true) :
    db.OfPrivate c := by
  obtain ⟨p, hp, hpp⟩ := h
  have hkey : ∀ p : Project, Keyed.key (if p.id = i then g p else p) = Keyed.key p := by
    intro p
    split
    · rename_i hpi
      exact (hg p hpi).trans hpi.symm
    · rfl
  rw [Table.find?_of_rows_map hrows hkey, Option.map_eq_some_iff] at hp
  obtain ⟨q, hq, rfl⟩ := hp
  refine ⟨q, hq, ?_⟩
  by_cases hqi : q.id = i
  · rw [if_pos hqi] at hpp
    have hci : c.projectId = i := (Table.find?_eq_some.mp hq).2.symm.trans hqi
    exact hkept hci q (hci ▸ hq) hpp
  · rw [if_neg hqi] at hpp
    exact hpp

end Database

/-! ## Each request -/

namespace CollectifiesController

open Database

theorem destroy_sublist {db : Database} (hunique : db.UniqueMemberships) (u : User) (now i p : Nat) :
    List.Sublist (destroy u now i p db).2.collectifies.rows db.collectifies.rows ∧
      (destroy u now i p db).2.projects = db.projects := by
  rcases destroy_cases hunique u now i p with ⟨-, hsame, -⟩ | ⟨k, c, db₁, hremoval⟩
  · rw [hsame]
    exact ⟨.refl _, rfl⟩
  · have hrows : List.Sublist db₁.collectifies.rows db.collectifies.rows := by
      rw [hremoval.removed.rows]
      exact List.filter_sublist
    have hprojects : db₁.projects = db.projects := hremoval.removed.touches .projects (by decide)
    rw [hremoval.eq]
    dsimp only
    split
    · exact ⟨hrows, hprojects⟩
    · refine ⟨?_, (touches_updateCollection db₁ _ _ _ .projects (by decide)).trans hprojects⟩
      show List.Sublist (db₁.updateCollection _ _ _).collectifies.rows _
      rw [collectifies_updateCollection]
      exact hrows

end CollectifiesController

namespace CollectionsController

open Database

/-- A completed request to add a project adds its membership, or there was one. -/
theorem addProject_rows {db : Database} {u : User} {now i : Nat} {p : Option Nat}
    (hok : (addProject u now i p db).1 = .ok ∨ (addProject u now i p db).1 = .refused) :
    (addProject u now i p db).2.projects = db.projects ∧
      ((addProject u now i p db).2.collectifies = db.collectifies ∨
        ∃ project, p.bind db.projects.find? = some project ∧ (∀ c ∈ db.memberships i, c.projectId ≠ project.id) ∧
          (addProject u now i p db).2.collectifies.rows =
            db.collectifies.rows ++ [⟨db.collectifies.next, i, project.id⟩]) := by
  rcases addProject_cases u now i p db with ⟨hsame, -⟩ | ⟨k, project, -, hproject, hnot, hadded⟩
  · rw [hsame]
    exact ⟨rfl, Or.inl rfl⟩
  · rw [hadded] at hok ⊢
    have hne : (afterAdd u now k db.collectifies.next project (db.insertCollectify i project.id)).1 ≠ .error := by
      intro herror
      rw [herror] at hok
      simp at hok
    obtain ⟨hcs, hps, -⟩ := face_afterAdd hne
    refine ⟨hps, Or.inr ⟨project, hproject, hnot, ?_⟩⟩
    rw [hcs]
    rfl

end CollectionsController

namespace ProjectsController

open Database

theorem collectifies_update (u : User) (now i : Nat) (params : List ProjectAttr) (db : Database) :
    (update u now i params db).2.collectifies = db.collectifies := by
  rcases update_cases u now i params db with heq | ⟨project, -, -, heq | ⟨-, -, heq⟩⟩
  · rw [heq]
  · rw [heq]
    rfl
  · have hsave : (saveProject (StepsController.touchCollections db now i) now project params).collectifies =
        db.collectifies := Touches.foldl (touches_saveNestedImage project.id) _ _ .collectifies (by decide)
    rw [heq]
    dsimp only
    split
    · exact ((SameRecords.setPublished _ _ _ _ _).touches .collectifies (by decide)).trans hsave
    · exact hsave

theorem isPrivate_rowAfter {db : Database} {now : Nat} {params : List ProjectAttr} {project : Project}
    (hv : (ProjectAttr.record now params project).valid = true)
    (hprivate : (rowAfter db now params project).isPrivate = true) :
    (ProjectAttr.record now params project).isPrivate = true ∧
      ¬ (asks now params project = true ∧ publishedAfter db now params project = false) := by
  unfold rowAfter at hprivate
  by_cases hask : asks now params project = true
  · rw [if_pos hask, Project.isPrivate, Project.privacy_republished, if_pos hv] at hprivate
    cases hpub : publishedAfter db now params project with
    | false =>
      rw [hpub, if_neg Bool.false_ne_true] at hprivate
      cases hprivate
    | true =>
      rw [hpub, if_pos rfl] at hprivate
      refine ⟨?_, fun hc => absurd hc.2.symm Bool.false_ne_true⟩
      by_contra hno
      rw [if_neg hno] at hprivate
      exact absurd hprivate (by decide)
  · rw [if_neg hask] at hprivate
    exact ⟨hprivate, fun hc => hask hc.1⟩

theorem ofPrivate_update {db : Database} {u : User} {now i : Nat} {params : List ProjectAttr}
    (hopen : MembershipRequest.UpdatesOpenly db (.updateProject u now i params)) {c : Collectify}
    (hc : c ∈ db.collectifies.rows) (hprivate : (update u now i params db).2.OfPrivate c) : db.OfPrivate c := by
  rcases update_saves u now i params db with ⟨-, -, hps, -⟩ | ⟨project, hproject, hsaves, hv, hrows, -, -⟩
  · exact (ofPrivate_congr hps c).mp hprivate
  · have hid : project.id = i := (Table.find?_eq_some.mp hproject).2
    refine hprivate.of_rows hrows (fun p _ => (rowAfter_id db now params project).trans hid) ?_
    intro hci p hp hpp
    have hpproject : project = p := Option.some.inj (hproject.symm.trans hp)
    subst hpproject
    obtain ⟨hrecord, hnot⟩ := isPrivate_rowAfter hv hpp
    rcases hopen project hsaves hrecord with hbefore | hunlisted | hnone
    · exact hbefore
    · exact absurd hunlisted hnot
    · exact absurd hci (hnone c hc)

/-- A project that becomes private is in no collection afterwards. -/
theorem ofPrivate_updatePrivacy {db : Database} (hunique : db.UniqueMemberships) {u : User} {now i : Nat}
    {v : Option Text} (hok : (updatePrivacy u now i v db).1 = .ok) :
    List.Sublist (updatePrivacy u now i v db).2.collectifies.rows db.collectifies.rows ∧
      ∀ c ∈ (updatePrivacy u now i v db).2.collectifies.rows,
        (updatePrivacy u now i v db).2.OfPrivate c → db.OfPrivate c := by
  obtain ⟨project, db₁, -, hwritten, hleaving, heq⟩ := updatePrivacy_ok hunique hok
  -- only the row of the project is written
  have hbefore : ∀ c, db₁.OfPrivate c → (c.projectId = i → v ≠ some "private".toList) → db.OfPrivate c := by
    intro c hprivate hne
    refine hprivate.of_rows hwritten.rows (fun p hp => (Project.updated_id none (by intro _; rfl) p).trans hp) ?_
    intro hci p _ hpp
    rw [Project.isPrivate, Project.privacy_updated] at hpp
    split at hpp
    · exact absurd (beq_iff_eq.mp hpp) (hne hci)
    · exact hpp
  rw [heq] at hok ⊢
  by_cases hv : v = some "private".toList
  · rw [if_pos hv] at hok ⊢
    have hleft := collectifies_leaveCollections now hleaving hok
    have hprojects : (leaveCollections u now (db.collectifies.rows.filter (·.projectId = i)) db₁).2.projects =
        db₁.projects := touches_leaveCollections u now _ db₁ .projects (by decide)
    rw [hleft, hwritten.collectifies]
    refine ⟨List.filter_sublist, fun c hc hprivate => ?_⟩
    rw [List.mem_filter, decide_eq_true_eq] at hc
    exact hbefore c ((ofPrivate_congr hprojects c).mp hprivate) fun hci => absurd hci hc.2
  · rw [if_neg hv, hwritten.collectifies]
    exact ⟨.refl _, fun c _ hprivate => hbefore c hprivate fun _ => hv⟩

end ProjectsController

namespace MembershipRequest

open Database

/-- What one request does: a membership of a private project was one of a private project. -/
theorem ofPrivate_perform {db : Database} (hunique : db.UniqueMemberships) {r : MembershipRequest}
    (hok : r.Completes db) (hopen : r.UpdatesOpenly db) :
    (perform db r).UniqueMemberships ∧
      ∀ c ∈ (perform db r).collectifies.rows, (perform db r).OfPrivate c → db.OfPrivate c := by
  -- adding and removing leave the projects, the other requests add no membership
  cases r with
  | addProject u now i p =>
    obtain ⟨hps, hcs⟩ := CollectionsController.addProject_rows hok
    refine ⟨?_, fun c _ hprivate => (ofPrivate_congr hps c).mp hprivate⟩
    rcases hcs with hsame | ⟨project, hproject, hnot, hadded⟩
    · exact hunique.sublist (hsame ▸ .refl _)
    · show ((CollectionsController.addProject u now i p db).2.collectifies.rows.map _).Nodup
      rw [hadded, List.map_append, List.map_singleton, List.nodup_append]
      refine ⟨hunique, List.nodup_singleton _, fun x hx y hy hxy => ?_⟩
      obtain ⟨c, hc, rfl⟩ := List.mem_map.mp hx
      rw [List.mem_singleton] at hy
      have hpair := hxy.trans hy
      rw [Prod.mk.injEq] at hpair
      exact hnot c (List.mem_filter.mpr ⟨hc, decide_eq_true hpair.1⟩) hpair.2
  | removeProject u now i p =>
    obtain ⟨hsub, hps⟩ := CollectifiesController.destroy_sublist hunique u now i p
    exact ⟨hunique.sublist hsub, fun c _ hprivate => (ofPrivate_congr hps c).mp hprivate⟩
  | updateProject u now p params =>
    have hcs := ProjectsController.collectifies_update u now p params db
    refine ⟨hunique.sublist (hcs ▸ .refl _), fun c hc hprivate => ?_⟩
    rw [perform, hcs] at hc
    exact ProjectsController.ofPrivate_update hopen hc hprivate
  | projectPrivacy u now p privacy =>
    obtain ⟨hsub, hall⟩ := ProjectsController.ofPrivate_updatePrivacy hunique hok
    exact ⟨hunique.sublist hsub, hall⟩
  | remix u now p =>
    rcases db.remix_project u now p with heq | ⟨project, description, -, -, hrows, -, -, htouch⟩
    · rw [perform, heq]
      exact ⟨hunique, fun _ _ hprivate => hprivate⟩
    · have hcs : (db.remix u now p).2.collectifies = db.collectifies := htouch .collectifies (by decide)
      refine ⟨hunique.sublist (hcs ▸ .refl _), ?_⟩
      rintro c - ⟨q, hq, hqq⟩
      obtain ⟨hmem, hqid⟩ := Table.find?_eq_some.mp hq
      rw [perform, hrows] at hmem
      rcases List.mem_append.mp hmem with hold | hnew
      · exact ⟨q, Table.find?_eq_some.mpr ⟨hold, hqid⟩, hqq⟩
      · -- a remix has no privacy yet
        rw [List.mem_singleton.mp hnew] at hqq
        cases hqq

/-- Only an explicit add makes a membership. -/
theorem added_by {db : Database} (hunique : db.UniqueMemberships) {r : MembershipRequest} (hok : r.Completes db)
    {c : Collectify} (hnew : c ∉ db.collectifies.rows) (hc : c ∈ (perform db r).collectifies.rows) :
    ∃ u now, r = .addProject u now c.collectionId (some c.projectId) := by
  cases r with
  | addProject u now i p =>
    obtain ⟨-, hsame | ⟨project, hproject, -, hadded⟩⟩ := CollectionsController.addProject_rows hok
    · rw [perform, hsame] at hc
      exact absurd hc hnew
    · rw [perform, hadded] at hc
      obtain rfl := List.mem_singleton.mp ((List.mem_append.mp hc).resolve_left hnew)
      obtain ⟨q, rfl, hq⟩ := Option.bind_eq_some_iff.mp hproject
      have hid : project.id = q := (Table.find?_eq_some.mp hq).2
      exact ⟨u, now, by rw [hid]⟩
  | removeProject u now i p =>
    exact absurd ((CollectifiesController.destroy_sublist hunique u now i p).1.subset hc) hnew
  | updateProject u now p params =>
    rw [perform, ProjectsController.collectifies_update] at hc
    exact absurd hc hnew
  | projectPrivacy u now p privacy =>
    exact absurd ((ProjectsController.ofPrivate_updatePrivacy hunique hok).1.subset hc) hnew
  | remix u now p =>
    rcases db.remix_project u now p with heq | ⟨project, description, -, -, -, -, -, htouch⟩
    · rw [perform, heq] at hc
      exact absurd hc hnew
    · have hcs : (db.remix u now p).2.collectifies = db.collectifies := htouch .collectifies (by decide)
      rw [perform, hcs] at hc
      exact absurd hc hnew

/-- The request is `add_project`; it puts the membership into its collection while the project is private. -/
def AddsPrivate (db : Database) (c : Collectify) (r : MembershipRequest) : Prop :=
  (∃ u now, r = .addProject u now c.collectionId (some c.projectId)) ∧
    c ∉ db.collectifies.rows ∧ c ∈ (perform db r).collectifies.rows ∧ db.OfPrivate c

end MembershipRequest

/-! ## Runs -/

/-- After a run of completed requests that update no project of a collection to be private, a membership of a
private project was there at the beginning, when the project was private too, or was made by an `add_project` of
the run that found the project private. -/
theorem private_memberships_made_private {db : Database} (hunique : db.UniqueMemberships)
    {rs : List MembershipRequest}
    (hrs : Run.Along MembershipRequest.perform
      (fun db (r : MembershipRequest) => r.Completes db ∧ r.UpdatesOpenly db) db rs)
    {c : Collectify} (hc : c ∈ (Run.after MembershipRequest.perform db rs).collectifies.rows)
    (hprivate : (Run.after MembershipRequest.perform db rs).OfPrivate c) :
    (c ∈ db.collectifies.rows ∧ db.OfPrivate c) ∨ ∃ rs₁ r rs₂, rs = rs₁ ++ r :: rs₂ ∧
      MembershipRequest.AddsPrivate (Run.after MembershipRequest.perform db rs₁) c r := by
  induction rs generalizing db with
  | nil => exact Or.inl ⟨hc, hprivate⟩
  | cons r rs ih =>
    obtain ⟨hunique', hone⟩ := MembershipRequest.ofPrivate_perform hunique hrs.1.1 hrs.1.2
    rcases ih hunique' hrs.2 hc hprivate with ⟨hmem, hbefore⟩ | ⟨rs₁, r', rs₂, hsplit, hadds⟩
    · have hprivate₀ := hone c hmem hbefore
      by_cases hc₀ : c ∈ db.collectifies.rows
      · exact Or.inl ⟨hc₀, hprivate₀⟩
      · exact Or.inr ⟨[], r, rs, rfl, MembershipRequest.added_by hunique hrs.1.1 hc₀ hmem, hc₀, hmem, hprivate₀⟩
    · exact Or.inr ⟨r :: rs₁, r', rs₂, congrArg (r :: ·) hsplit, hadds⟩

namespace Database

instance (db : Database) (c : Collectify) : Decidable (db.OfPrivate c) :=
  decidable_of_iff ((db.projects.find? c.projectId).any Project.isPrivate = true) <| by
    rw [Option.any_eq_true]
    rfl

/-- A private lamp, and a private collection without it. -/
def privateLamp : Database :=
  { oneProject "Lamp".toList (some "private".toList) with
    collections := .ofRows [⟨1, "Robots".toList, some 1, some false, some "private".toList, 0⟩] 2
      (by decide) }

end Database

theorem private_memberships_lamp :
    ∃ rs₁ r rs₂, [MembershipRequest.addProject ada 3 1 (some 1)] = rs₁ ++ r :: rs₂ ∧
      MembershipRequest.AddsPrivate (Run.after MembershipRequest.perform .privateLamp rs₁) ⟨1, 1, 1⟩ r := by
  have hok : (MembershipRequest.addProject ada 3 1 (some 1)).Completes .privateLamp :=
    Or.inl (by decide +kernel)
  have hrun : Run.Along MembershipRequest.perform
      (fun db (r : MembershipRequest) => r.Completes db ∧ r.UpdatesOpenly db) .privateLamp
      [.addProject ada 3 1 (some 1)] := ⟨⟨hok, trivial⟩, trivial⟩
  have hmem : (⟨1, 1, 1⟩ : Collectify) ∈
      (Run.after MembershipRequest.perform .privateLamp [.addProject ada 3 1 (some 1)]).collectifies.rows := by
    decide +kernel
  rcases private_memberships_made_private (by decide +kernel) hrun hmem (by decide +kernel) with h | h
  · exact absurd h.1 (by decide +kernel)
  · exact h

/-- The owner of a private project adds it to a private collection, as the form offers. -/
theorem private_project_added :
    (∀ c ∈ Database.privateLamp.collectifies.rows, ¬ Database.privateLamp.OfPrivate c) ∧
      (MembershipRequest.addProject ada 3 1 (some 1)).Completes .privateLamp ∧
      ∃ c ∈ (MembershipRequest.perform .privateLamp (.addProject ada 3 1 (some 1))).collectifies.rows,
        (MembershipRequest.perform .privateLamp (.addProject ada 3 1 (some 1))).OfPrivate c :=
  ⟨by decide +kernel, Or.inl (by decide +kernel), by decide +kernel⟩
