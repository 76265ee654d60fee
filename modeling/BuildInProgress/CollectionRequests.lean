import BuildInProgress.CollectionFlags

/-!
# Requests that change a collection

Six requests of three controllers change the name, the projects or the flag of a collection, or whether one
of its projects is public.  For each of them: when it leaves every flag as `published?` says.
-/

open Text

inductive CollectionRequest where
  | create (u : User) (now : Nat) (params : List CollectionAttr)
  | update (u : User) (now i : Nat) (params : List CollectionAttr)
  | addProject (u : User) (now i : Nat) (p : Option Nat)
  | removeProject (u : User) (now i p : Nat)
  | projectPrivacy (u : User) (now p : Nat) (privacy : Option Text)
  | destroyProject (u : User) (now p : Nat)

namespace CollectionRequest

def handle (db : Database) : CollectionRequest → Outcome × Database
  | create u now params => CollectionsController.create u now params db
  | update u now i params => CollectionsController.update u now i params db
  | addProject u now i p => CollectionsController.addProject u now i p db
  | removeProject u now i p => CollectifiesController.destroy u now i p db
  | projectPrivacy u now p privacy => ProjectsController.updatePrivacy u now p privacy db
  | destroyProject u now p => ProjectsController.destroy u now p db

/-- The request came to its end.  Adding a project may end with a message that nothing was added. -/
def Completes (db : Database) : CollectionRequest → Prop
  | addProject u now i p =>
    (handle db (.addProject u now i p)).1 = .ok ∨ (handle db (.addProject u now i p)).1 = .refused
  | r => (r.handle db).1 = .ok

end CollectionRequest

namespace Database

variable {db db' : Database}

/-- The collection is still published without project `p`, if it is published at all. -/
def KeepsFlag (db : Database) (p : Nat) (k : Collection) : Prop :=
  db.collectionPublished k = true → (db.withoutProject p).collectionPublished k = true

theorem hasPublic_withoutProject {p i : Nat} : (db.withoutProject p).HasPublic i ↔
    ∃ c ∈ db.collectifies.rows, c.projectId ≠ p ∧ c.collectionId = i ∧
      ∃ q, db.projects.find? c.projectId = some q ∧ q.isPublic = true := by
  unfold HasPublic withoutProject
  constructor
  · rintro ⟨c, hc, hrest⟩
    rw [Table.rows_filter, List.mem_filter, decide_eq_true_eq] at hc
    exact ⟨c, hc.1, hc.2, hrest⟩
  · rintro ⟨c, hc, hp, hrest⟩
    refine ⟨c, ?_, hrest⟩
    rw [Table.rows_filter, List.mem_filter, decide_eq_true_eq]
    exact ⟨hc, hp⟩

/-- Besides its other projects, the project `p` may make a collection public. -/
theorem hasPublic_iff {p i : Nat} : db.HasPublic i ↔ (db.withoutProject p).HasPublic i ∨
    ((∃ c ∈ db.collectifies.rows, c.projectId = p ∧ c.collectionId = i) ∧
      ∃ q, db.projects.find? p = some q ∧ q.isPublic = true) := by
  rw [hasPublic_withoutProject]
  constructor
  · rintro ⟨c, hc, hi, q, hfind, hpublic⟩
    by_cases hp : c.projectId = p
    · exact Or.inr ⟨⟨c, hc, hp, hi⟩, q, hp ▸ hfind, hpublic⟩
    · exact Or.inl ⟨c, hc, hp, hi, q, hfind, hpublic⟩
  · rintro (⟨c, hc, -, hrest⟩ | ⟨⟨c, hc, hp, hi⟩, q, hfind, hpublic⟩)
    · exact ⟨c, hc, hrest⟩
    · exact ⟨c, hc, hi, q, hp.symm ▸ hfind, hpublic⟩

theorem published_iff_withoutProject {p : Nat} {k : Collection} : db.collectionPublished k = true ↔
    (db.withoutProject p).collectionPublished k = true ∨ ((startsWith k.name "Untitled".toList = false ∧
      ∃ c ∈ db.collectifies.rows, c.projectId = p ∧ c.collectionId = k.id) ∧
        ∃ q, db.projects.find? p = some q ∧ q.isPublic = true) := by
  rw [collectionPublished_iff, collectionPublished_iff, @hasPublic_iff db p k.id, and_or_left, and_assoc]

theorem published_iff_of_find {p : Nat} {q : Project} (hq : db.projects.find? p = some q) (k : Collection) :
    db.collectionPublished k = true ↔
      (db.withoutProject p).collectionPublished k = true ∨ ((startsWith k.name "Untitled".toList = false ∧
        ∃ c ∈ db.collectifies.rows, c.projectId = p ∧ c.collectionId = k.id) ∧ q.isPublic = true) := by
  rw [@published_iff_withoutProject db p, hq]
  simp only [Option.some.injEq, exists_eq_left']

theorem published_of_withoutProject {p : Nat} {k : Collection}
    (h : (db.withoutProject p).collectionPublished k = true) : db.collectionPublished k = true := by
  exact published_iff_withoutProject.mpr (Or.inl h)

-- a collection without the project is not concerned
theorem published_withoutProject_of_notMem {p : Nat} {k : Collection}
    (h : ∀ c ∈ db.collectifies.rows, c.projectId = p → c.collectionId ≠ k.id) :
    (db.withoutProject p).collectionPublished k = db.collectionPublished k := by
  rw [Bool.eq_iff_iff, collectionPublished_iff, collectionPublished_iff, @hasPublic_iff db p k.id]
  apply and_congr_right
  intro _
  constructor
  · exact Or.inl
  · rintro (hrest | ⟨⟨c, hc, hp, hk⟩, -⟩)
    · exact hrest
    · exact absurd hk (h c hc hp)

theorem published_eq_withoutProject_iff {p : Nat} {k : Collection} :
    some (db.collectionPublished k) = some ((db.withoutProject p).collectionPublished k) ↔ db.KeepsFlag p k := by
  rw [Option.some.injEq, Bool.eq_iff_iff]
  exact ⟨fun h => h.mp, fun h => ⟨h, published_of_withoutProject⟩⟩

theorem flagsCurrent_congr
    (hface : db'.collections.rows.map Collection.face = db.collections.rows.map Collection.face)
    (hcollectifies : db'.collectifies = db.collectifies) (hprojects : db'.projects = db.projects) :
    db'.FlagsCurrent ↔ db.FlagsCurrent := by
  rw [flagsCurrent_iff hface, FlagsCurrent]
  simp only [collectionPublished_congr_face hprojects hcollectifies rfl rfl]

theorem flagWithout_iff {p : Nat} {k : Collection} (h : k.published = some (db.collectionPublished k)) :
    db.flagWithout p k = some ((db.withoutProject p).collectionPublished k) ↔
      (db.collectionValid k = false → db.KeepsFlag p k) := by
  rw [flagWithout]
  cases db.collectionValid k with
  | true =>
    rw [if_pos rfl]
    exact iff_of_true rfl fun h => absurd h.symm Bool.false_ne_true
  | false =>
    rw [if_neg Bool.false_ne_true, h, published_eq_withoutProject_iff]
    exact ⟨fun hkeeps _ => hkeeps, fun hkeeps => hkeeps rfl⟩

end Database

/-! ## The loss of a project -/

namespace CollectifiesController

open Database

theorem flagsCurrent_destroy {db : Database} (hunique : db.UniqueMemberships) (h : db.FlagsCurrent) {u : User}
    {now i p : Nat} (hok : (destroy u now i p db).1 = .ok) :
    (destroy u now i p db).2.FlagsCurrent ↔
      ∀ k, db.collections.find? i = some k → db.collectionValid k = false → db.KeepsFlag p k := by
  obtain ⟨k, c, db₂, hremoval⟩ := (destroy_cases hunique u now i p).resolve_left fun hno => hno.1 hok
  obtain ⟨hkmem, hki⟩ := Table.find?_eq_some.mp hremoval.collection
  change k.id = i at hki
  have hc := hremoval.mem
  have hpair := hremoval.pair
  have hkc : k.id = c.collectionId := hki.trans hpair.1.symm
  have hremove := hremoval.remove
  have hremoved := hremoval.removed
  rw [hremoval.eq, hremoval.collection]
  dsimp only
  -- nothing depends on the activities
  have hunique₁ : (db.destroyActivities (some c.id)).UniqueMemberships := hunique
  have hc₁ : c ∈ (db.destroyActivities (some c.id)).collectifies.rows := hc
  have hsame : Touches [.activities] db (db.destroyActivities (some c.id)) := touches_activities db _
  have hflag : ∀ r, (db.destroyActivities (some c.id)).flagWithout p r = db.flagWithout p r := fun _ => rfl
  have hpub₁ : ∀ r, ((db.destroyActivities (some c.id)).withoutProject p).collectionPublished r =
      (db.withoutProject p).collectionPublished r := fun _ => rfl
  generalize db.destroyActivities (some c.id) = db₁ at hremove hremoved hunique₁ hc₁ hsame hflag hpub₁ ⊢
  rw [← hpair.2] at hremove
  have hface := face_removeFromCollection hunique₁ hc₁ hkc hremove
  have hpublished : ∀ r : Collection, r.id = k.id → db₂.collectionPublished r =
      (db.withoutProject p).collectionPublished r := by
    intro r hr
    rw [collectionPublished_removed hunique₁ hc₁ (hr.trans hkc) rfl rfl (hremoved.touches .projects (by decide))
      hremoved.rows, hpair.2, hpub₁]
  rw [hpair.2] at hface
  -- the second write changes no flag
  have hthen : (if db₂.collectionPublished k then db₂ else (db₂.updateCollection (some now) i
      fun k => { k with published := some false }).destroyActivities (some i)).FlagsCurrent ↔ db₂.FlagsCurrent := by
    cases hoff : db₂.collectionPublished k with
    | true => rfl
    | false =>
      have hmem₁ : k ∈ db₁.collections.rows := (hsame .collections (by decide) : _ = _) ▸ hkmem
      have hunlist := face_unlist hunique₁ hc₁ hmem₁ hkc hremove hoff
      rw [hki] at hunlist
      exact flagsCurrent_congr hunlist (collectifies_updateCollection _ _ _ _)
        (touches_updateCollection _ _ _ _ .projects (by decide))
  rw [hthen, flagsCurrent_iff hface, (hsame .collections (by decide) : _ = _)]
  constructor
  · intro hall k' hk' hinvalid
    cases hk'
    have hone := hall k hkmem
    rw [if_pos rfl, hflag, hpublished k rfl, flagWithout_iff (h k hkmem)] at hone
    exact hone hinvalid
  · intro hkeeps r hr
    by_cases hid : r.id = k.id
    · have hrk : r = k := Table.eq_of_key hr hkmem hid
      rw [if_pos hid, hflag, hpublished r hid, flagWithout_iff (h r hr), hrk]
      exact hkeeps k rfl
    · rw [if_neg hid, h r hr]
      have hother : db₂.collectionPublished r = db.collectionPublished r := by
        refine collectionPublished_congr ((hremoved.touches .projects (by decide)).trans
          (hsame .projects (by decide))) ?_ rfl
        rw [hremoved.rows, (hsame .collectifies (by decide) : _ = _), List.filter_filter]
        apply List.filter_congr
        intro x hx
        by_cases hxr : x.collectionId = r.id
        · have hne : x.id ≠ c.id := by
            intro hxc
            rw [Table.eq_of_key hx hc hxc] at hxr
            exact hid (hxr.symm.trans hkc.symm)
          simp [hxr, hne]
        · simp [hxr]
      rw [hother]

end CollectifiesController

namespace ProjectsController

open Database

/-- `db₁` is `db` with the privacy `v` written to the project `i`, if that is valid. -/
structure PrivacyWritten (db db₁ : Database) (i : Nat) (v : Option Text) : Prop where
  rows : db₁.projects.rows =
    db.projects.rows.map fun p => if p.id = i then p.updated none fun p => { p with privacy := v } else p
  collections : db₁.collections = db.collections
  collectifies : db₁.collectifies = db.collectifies

theorem PrivacyWritten.find? {db db₁ : Database} {i : Nat} {v : Option Text} (h : PrivacyWritten db db₁ i v)
    {project : Project} (hproject : db.projects.find? i = some project) :
    db₁.projects.find? i = some (project.updated none fun p => { p with privacy := v }) := by
  have hkey : ∀ p : Project, Keyed.key (if p.id = i then p.updated none fun p => { p with privacy := v } else p) =
      Keyed.key p := by
    intro p
    split
    · exact Project.updated_id none (by intro _; rfl) p
    · rfl
  rw [Table.find?_of_rows_map h.rows hkey, hproject]
  exact congrArg some (if_pos (Table.find?_eq_some.mp hproject).2)

/-- A completed `update_privacy` has found the project, written its row and, for `private`, left the
collections. -/
theorem updatePrivacy_ok {db : Database} (hunique : db.UniqueMemberships) {u : User} {now i : Nat} {v : Option Text}
    (hok : (updatePrivacy u now i v db).1 = .ok) :
    ∃ project db₁, db.projects.find? i = some project ∧ PrivacyWritten db db₁ i v ∧
      Leaving db u i (db.collectifies.rows.filter (·.projectId = i)) db₁ ∧
      updatePrivacy u now i v db = if v = some "private".toList then
        leaveCollections u now (db.collectifies.rows.filter (·.projectId = i)) db₁ else (.ok, db₁) := by
  unfold updatePrivacy at hok ⊢
  cases hproject : db.projects.find? i with
  | none =>
    rw [hproject] at hok
    cases hok
  | some project =>
    have htouch := touches_updateProject db none i fun p => { p with privacy := v }
    have hwritten : PrivacyWritten db (db.updateProject none i fun p => { p with privacy := v }) i v :=
      ⟨rows_updateProject db none i (by intro _; rfl), htouch .collections (by decide),
        htouch .collectifies (by decide)⟩
    refine ⟨project, _, rfl, hwritten, leaving_updateProject hunique u i v, ?_⟩
    dsimp only
    rw [hwritten.collectifies]

theorem flagsCurrent_updatePrivacy_private {db : Database} (hunique : db.UniqueMemberships) (h : db.FlagsCurrent)
    {u : User} {now i : Nat} (hok : (updatePrivacy u now i (some "private".toList) db).1 = .ok) :
    (updatePrivacy u now i (some "private".toList) db).2.FlagsCurrent ↔
      ∀ k ∈ db.collections.rows, db.collectionValid k = false → db.KeepsFlag i k := by
  obtain ⟨project, db₁, -, hwritten, hleaving, heq⟩ := updatePrivacy_ok hunique hok
  rw [if_pos rfl] at heq
  rw [heq] at hok ⊢
  have hrows := collectifies_leaveCollections now hleaving hok
  have hface := face_leaveCollections now hleaving hok
  have hprojects : (leaveCollections u now (db.collectifies.rows.filter (·.projectId = i)) db₁).2.projects =
      db₁.projects := touches_leaveCollections u now _ db₁ .projects (by decide)
  generalize (leaveCollections u now (db.collectifies.rows.filter (·.projectId = i)) db₁).2 = db₂
    at hrows hface hprojects ⊢
  -- the project is in no collection any more
  have hpublished : ∀ k, db₂.collectionPublished k = (db.withoutProject i).collectionPublished k := by
    intro k
    rw [← hleaving.published]
    have hkept : (db₁.withoutProject i).projects = db₁.projects := rfl
    refine collectionPublished_congr (hprojects.trans hkept.symm) ?_ rfl
    rw [hrows]
    rfl
  have hflag : ∀ k, db₁.flagWithout i k = db.flagWithout i k := by
    intro k
    have hvalid : db₁.collectionValid k = db.collectionValid k :=
      collectionValid_congr (by rw [hwritten.collections]) rfl rfl rfl
    rw [flagWithout, flagWithout, hleaving.published, hvalid]
  rw [flagsCurrent_iff hface, hwritten.collections]
  apply forall₂_congr
  intro k hk
  rw [hpublished, hflag]
  by_cases hin : ∃ c ∈ db.collectifies.rows.filter (·.projectId = i), c.collectionId = k.id
  · rw [if_pos hin, flagWithout_iff (h k hk)]
  · have hnot : ∀ c ∈ db.collectifies.rows, c.projectId = i → c.collectionId ≠ k.id := fun c hc hp hid =>
      hin ⟨c, List.mem_filter.mpr ⟨hc, decide_eq_true hp⟩, hid⟩
    have hsame := published_withoutProject_of_notMem hnot
    rw [if_neg hin, h k hk, hsame]
    refine iff_of_true rfl fun _ hpub => ?_
    rw [hsame]
    exact hpub

/-- Another privacy is written to the project, and no flag. -/
theorem flagsCurrent_updatePrivacy {db : Database} (hunique : db.UniqueMemberships) (h : db.FlagsCurrent)
    {u : User} {now i : Nat} {v : Option Text} (hv : v ≠ some "private".toList)
    (hok : (updatePrivacy u now i v db).1 = .ok) :
    (updatePrivacy u now i v db).2.FlagsCurrent ↔
      ∀ project, db.projects.find? i = some project → project.valid = true → ∀ k ∈ db.collections.rows,
        startsWith k.name "Untitled".toList = false →
        (∃ c ∈ db.collectifies.rows, c.projectId = i ∧ c.collectionId = k.id) →
        (db.withoutProject i).collectionPublished k = false →
        (v = some "public".toList ↔ project.isPublic = true) := by
  obtain ⟨project, db₁, hproject, hwritten, hleaving, heq⟩ := updatePrivacy_ok hunique hok
  rw [heq, if_neg hv, hproject]
  have hpublic : (project.updated none fun p => { p with privacy := v }).isPublic =
      if project.valid then v == some "public".toList else project.isPublic := by
    rw [Project.isPublic, Project.privacy_updated]
    split
    · rfl
    · rfl
  have hface : db₁.collections.rows.map Collection.face =
      db.collections.rows.map fun k => (k.id, k.name, k.userId, k.published) := by
    rw [hwritten.collections]
    rfl
  -- before and after, the collections differ in what the project adds to them
  have hafter := fun k => published_iff_of_find (hwritten.find? hproject) k
  simp only [hleaving.published, hwritten.collectifies, hpublic] at hafter
  have hbefore := fun k => published_iff_of_find hproject k
  rw [flagsCurrent_iff hface]
  constructor
  · intro hall project' hp' hvalid k hk hname hin hout
    cases hp'
    have hone := hall k hk
    rw [h k hk, Option.some.injEq, Bool.eq_iff_iff, hbefore, hafter, if_pos hvalid, hout] at hone
    rw [or_iff_right Bool.false_ne_true, or_iff_right Bool.false_ne_true, and_iff_right ⟨hname, hin⟩,
      and_iff_right ⟨hname, hin⟩, beq_iff_eq] at hone
    exact hone.symm
  · intro hkeeps k hk
    rw [h k hk, Option.some.injEq, Bool.eq_iff_iff, hbefore, hafter]
    by_cases hout : (db.withoutProject i).collectionPublished k = true
    · exact iff_of_true (Or.inl hout) (Or.inl hout)
    · apply or_congr_right
      apply and_congr_right
      rintro ⟨hname, hin⟩
      by_cases hvalid : project.valid = true
      · rw [if_pos hvalid, beq_iff_eq]
        exact (hkeeps project rfl hvalid k hk hname hin (Bool.eq_false_of_not_eq_true hout)).symm
      · rw [if_neg hvalid]

theorem flagsCurrent_destroy {db : Database} (h : db.FlagsCurrent) {u : User} {now i : Nat}
    (hok : (destroy u now i db).1 = .ok) :
    (destroy u now i db).2.FlagsCurrent ↔ ∀ k ∈ db.collections.rows, db.KeepsFlag i k := by
  obtain ⟨project, -, -, heq⟩ := destroy_ok hok
  have hforget := touches_forgetProject db u.id i
  generalize hdb₁ : adoptRemixes { forgetProject db u.id i with
    collectifies := db.collectifies.filter (·.projectId ≠ i) } project = db₁ at heq
  obtain ⟨hprojects, -, hcollectifies, htouch⟩ := destroyProject_tables db₁ now i
  rw [← heq] at hprojects hcollectifies htouch
  generalize (destroy u now i db).2 = db₂ at hprojects hcollectifies htouch ⊢
  have hcollections : db₂.collections = db.collections := by
    rw [(htouch .collections (by decide) : _ = _), ← hdb₁]
    exact hforget .collections (by decide)
  have hmembers : db₂.collectifies.rows = db.collectifies.rows.filter (·.projectId ≠ i) := by
    rw [hcollectifies, ← hdb₁, adoptRemixes, Table.rows_filter, Table.rows_filter, List.filter_filter]
    simp only [Bool.and_self]
  -- the remixes are moved, and keep their privacy
  have hmoved : ∀ j, (db₁.projects.find? j).map Project.isPublic = (db.projects.find? j).map Project.isPublic := by
    intro j
    rw [← hdb₁, ← (hforget .projects (by decide) : _ = _), adoptRemixes, Table.find?_map, Option.map_map]
    congr 1
    funext r
    rw [Function.comp]
    split
    · rfl
    · rfl
  have hpublic : ∀ j, j ≠ i → ((∃ q, db₂.projects.find? j = some q ∧ q.isPublic = true) ↔
      ∃ q, db.projects.find? j = some q ∧ q.isPublic = true) := by
    intro j hj
    have hfind : db₂.projects.find? j = db₁.projects.find? j := by
      rw [hprojects, Table.find?, Table.rows_filter, Table.find?]
      refine List.find?_filter_unseen fun r _ hr => ?_
      have hrj : Keyed.key r = j := by simpa using hr
      rw [decide_eq_true_eq]
      exact fun hri => hj (hrj.symm.trans hri)
    rw [← Option.map_eq_some_iff, ← Option.map_eq_some_iff, hfind, hmoved]
  have hpublished : ∀ k : Collection, db₂.collectionPublished k = (db.withoutProject i).collectionPublished k := by
    intro k
    rw [Bool.eq_iff_iff, collectionPublished_iff, collectionPublished_iff, hasPublic_withoutProject]
    apply and_congr_right
    intro _
    unfold HasPublic
    rw [hmembers]
    simp only [List.mem_filter, decide_eq_true_eq]
    constructor
    · rintro ⟨c, ⟨hc, hne⟩, hk, hq⟩
      exact ⟨c, hc, hne, hk, (hpublic c.projectId hne).mp hq⟩
    · rintro ⟨c, hc, hne, hk, hq⟩
      exact ⟨c, ⟨hc, hne⟩, hk, (hpublic c.projectId hne).mpr hq⟩
  have hface : db₂.collections.rows.map Collection.face =
      db.collections.rows.map fun k => (k.id, k.name, k.userId, k.published) := by
    rw [hcollections]
    rfl
  rw [flagsCurrent_iff hface]
  apply forall₂_congr
  intro k hk
  rw [h k hk, hpublished, published_eq_withoutProject_iff]

end ProjectsController

/-! ## Adding a project, and writing a collection -/

namespace CollectionsController

open Database

theorem touches_announceMembership (u : User) (owner : Option User) (c : Collectify) (project : Project)
    (db : Database) : Touches [.activities] db (announceMembership u owner c project db) := by
  refine .foldl (fun db r => ?_) _ db
  dsimp only
  split
  · exact (touches_activities db _).trans (touches_activities _ _)
  · exact touches_activities db _

theorem touches_announceMemberships (u : User) (owner : Option User) (cs : List Collectify) (db : Database) :
    Touches [.activities] db (announceMemberships u owner cs db).2 := by
  induction cs generalizing db with
  | nil => exact .refl _ db
  | cons c cs ih =>
    unfold announceMemberships
    split
    · exact ih db
    · split
      · exact .refl _ db
      · exact .trans (touches_announceMembership u owner c _ db) (ih _)

theorem touches_forgetCollection (db : Database) (i : Nat) : Touches [.activities] db (forgetCollection db i) :=
  (Touches.foldl (fun db _ => touches_activities db _) _ db).trans (touches_activities _ _)

theorem touches_announceProject (u : User) (k : Collection) (c : Nat) (project : Project) (db : Database) :
    Touches [.activities] db (announceProject u k c project db).2 := by
  have hall : Touches [.activities] db (((db.projectUsers project.id).filter (·.id ≠ u.id)).foldl
      (fun (db : Database) (r : User) =>
        db.createActivity .collectify c "collectify.create".toList (some u.id) (some r.id)) db) :=
    .foldl (fun db _ => touches_activities db _) _ db
  unfold announceProject
  dsimp only
  split
  · exact hall.trans (touches_activities _ _)
  · exact hall

theorem face_touchCollection (db : Database) (now i : Nat) :
    (db.touchCollection now i).collections.rows.map Collection.face = db.collections.rows.map Collection.face := by
  rw [touchCollection, Table.rows_modify, List.map_map]
  apply List.map_congr_left
  intro k _
  rw [Function.comp]
  split
  · rfl
  · rfl

/-- The only collection that the new membership may list is its own. -/
theorem published_insertCollectify {db : Database} {i p : Nat} (k : Collection) :
    (db.insertCollectify i p).collectionPublished k = true ↔ db.collectionPublished k = true ∨
      ((startsWith k.name "Untitled".toList = false ∧ k.id = i) ∧
        ∃ q, db.projects.find? p = some q ∧ q.isPublic = true) := by
  rw [collectionPublished_iff, collectionPublished_iff, and_assoc, ← and_or_left]
  apply and_congr_right
  intro _
  unfold HasPublic insertCollectify
  simp only [Table.rows_insert, List.mem_append, List.mem_singleton, or_and_right, exists_or, exists_eq_left]
  apply or_congr_right
  rw [eq_comm]

/-- What a new membership writes to the collections. -/
theorem face_afterAdd {u : User} {now : Nat} {k : Collection} {c : Nat} {project : Project} {db : Database}
    (hok : (afterAdd u now k c project db).1 ≠ .error) :
    (afterAdd u now k c project db).2.collectifies = db.collectifies ∧
      (afterAdd u now k c project db).2.projects = db.projects ∧
      (afterAdd u now k c project db).2.collections.rows.map Collection.face =
        db.collections.rows.map fun r => (r.id, r.name, r.userId,
          if db.collectionPublished k = true ∧ r.id = k.id ∧ db.collectionValid r = true then some true
          else r.published) := by
  unfold afterAdd at hok ⊢
  by_cases hpub : db.collectionPublished k = true
  · rw [if_pos hpub] at hok ⊢
    dsimp only at hok ⊢
    -- the first publication writes the privacy
    have hfirst : ∀ db₂, db₂ = (if k.published = some false then
        (db.createActivity .collection k.id "collection.create".toList (some u.id) none).updateCollection (some now)
          k.id fun k => { k with privacy := some "public".toList } else db) →
        db₂.collectifies = db.collectifies ∧ db₂.projects = db.projects ∧
          db₂.collections.rows.map Collection.face = db.collections.rows.map Collection.face := by
      rintro db₂ rfl
      split
      · refine ⟨collectifies_updateCollection _ _ _ _, ?_, face_updateCollection _ _ _ (by intro _; rfl)⟩
        exact touches_updateCollection _ _ _ _ .projects (by decide)
      · exact ⟨rfl, rfl, rfl⟩
    obtain ⟨hcollectifies, hprojects, hface⟩ := hfirst _ rfl
    generalize (if k.published = some false then
        (db.createActivity .collection k.id "collection.create".toList (some u.id) none).updateCollection (some now)
          k.id fun k => { k with privacy := some "public".toList } else db) = db₂ at hok hcollectifies hprojects hface ⊢
    have hannounce := touches_announceProject u k c project db₂
    generalize announceProject u k c project db₂ = r at hok hannounce ⊢
    cases hdone : r.1 with
    | false =>
      rw [hdone] at hok
      exact absurd rfl hok
    | true =>
      rw [if_pos rfl]
      dsimp only
      have hcs : (r.2.updateCollection (some now) k.id fun k => { k with published := some true }).collectifies =
          r.2.collectifies := collectifies_updateCollection _ _ _ _
      have hps : (r.2.updateCollection (some now) k.id fun k => { k with published := some true }).projects =
          r.2.projects := touches_updateCollection _ _ _ _ .projects (by decide)
      refine ⟨?_, ?_, ?_⟩
      · exact hcs.trans ((hannounce .collectifies (by decide)).trans hcollectifies)
      · exact hps.trans ((hannounce .projects (by decide)).trans hprojects)
      · have hr : r.2.collections.rows.map Collection.face =
            db.collections.rows.map fun k => (k.id, k.name, k.userId, k.published) := by
          rw [(hannounce .collections (by decide) : _ = _), hface]
          rfl
        have hvalid : ∀ q : Collection, r.2.collectionValid q = db.collectionValid q := fun q =>
          collectionValid_congr (names_of_face hr) rfl rfl rfl
        rw [face_touchCollection, face_map_updateFlag hr (some now) k.id (some true)]
        simp only [hvalid, hpub, true_and]
  · rw [if_neg hpub]
    refine ⟨rfl, rfl, ?_⟩
    rw [face_touchCollection]
    apply List.map_congr_left
    intro r _
    rw [if_neg fun hc => hpub hc.1]
    rfl

theorem flagsCurrent_addProject {db : Database} (h : db.FlagsCurrent) {u : User} {now i : Nat} {p : Option Nat}
    (hok : (addProject u now i p db).1 = .ok ∨ (addProject u now i p db).1 = .refused) :
    (addProject u now i p db).2.FlagsCurrent ↔
      ∀ k project, db.collections.find? i = some k → p.bind db.projects.find? = some project →
        (∀ c ∈ db.memberships i, c.projectId ≠ project.id) → startsWith k.name "Untitled".toList = false →
        project.isPublic = true → db.collectionPublished k = true ∨ db.collectionValid k = true := by
  rcases addProject_cases u now i p db with ⟨hsame, hthere⟩ | ⟨k, project, hk, hproject, hnot, hadded⟩
  · rw [hsame]
    refine iff_of_true h fun k project hk hp hnot => ?_
    obtain ⟨c, hc, hcp⟩ := hthere k project hk hp
    exact absurd hcp (hnot c hc)
  · obtain ⟨hkmem, hki⟩ := Table.find?_eq_some.mp hk
    change k.id = i at hki
    have hfind : db.projects.find? project.id = some project := by
      obtain ⟨q, -, hq⟩ := Option.bind_eq_some_iff.mp hproject
      exact Table.find?_of_mem (Table.find?_eq_some.mp hq).1
    rw [hadded] at hok ⊢
    have hpublished := fun r : Collection => @published_insertCollectify db i project.id r
    simp only [hfind, Option.some.injEq, exists_eq_left'] at hpublished
    have hcollections : (db.insertCollectify i project.id).collections = db.collections := rfl
    have hvalid : ∀ r, (db.insertCollectify i project.id).collectionValid r = db.collectionValid r := fun _ => rfl
    generalize db.insertCollectify i project.id = db₁ at hok hpublished hcollections hvalid ⊢
    have hne : (afterAdd u now k db.collectifies.next project db₁).1 ≠ .error := by
      rintro herror
      rw [herror] at hok
      simp at hok
    obtain ⟨hcs, hps, hface⟩ := face_afterAdd hne
    -- only the flag of `k` is written, and only when `k` is published and valid
    generalize afterAdd u now k db.collectifies.next project db₁ = r at hcs hps hface ⊢
    rw [hcollections] at hface
    have hafter : ∀ q : Collection, r.2.collectionPublished q = db₁.collectionPublished q := fun q =>
      collectionPublished_congr_face hps hcs rfl rfl
    rw [flagsCurrent_iff hface]
    simp only [hafter, hvalid]
    constructor
    · intro hall k' project' hk' hp' _ hname hpublic
      have hkk : k = k' := Option.some.inj (hk.symm.trans hk')
      have hpp : project = project' := Option.some.inj (hproject.symm.trans hp')
      rw [← hkk] at hname ⊢
      rw [← hpp] at hpublic
      have hshown : db₁.collectionPublished k = true := (hpublished k).mpr (Or.inr ⟨⟨hname, hki⟩, hpublic⟩)
      by_cases hv : db.collectionValid k = true
      · exact Or.inr hv
      · have hone := hall k hkmem
        rw [if_neg fun hc => hv hc.2.2, h k hkmem, Option.some.injEq, hshown] at hone
        exact Or.inl hone
    · intro hkeeps q hq
      by_cases hqk : q.id = k.id
      · have hqeq : q = k := Table.eq_of_key hq hkmem hqk
        rw [hqeq, h k hkmem]
        by_cases hshown : db₁.collectionPublished k = true
        · rw [hshown]
          by_cases hv : db.collectionValid k = true
          · rw [if_pos ⟨rfl, rfl, hv⟩]
          · rw [if_neg fun hc => hv hc.2.2]
            rcases (hpublished k).mp hshown with hbefore | ⟨⟨hname, -⟩, hpublic⟩
            · rw [hbefore]
            · rw [(hkeeps k project hk hproject hnot hname hpublic).resolve_right hv]
        · have hbefore : db.collectionPublished k = false :=
            Bool.eq_false_of_not_eq_true fun hb => hshown ((hpublished k).mpr (Or.inl hb))
          rw [if_neg fun hc => hshown hc.1, hbefore, Bool.eq_false_of_not_eq_true hshown]
      · rw [if_neg fun hc => hqk hc.2.1, h q hq, Option.some.injEq, Bool.eq_iff_iff, hpublished]
        exact ⟨Or.inl, fun hor => hor.resolve_right fun hc => hqk (hc.1.2.trans hki.symm)⟩

theorem record_id (params : List CollectionAttr) (k : Collection) :
    (CollectionAttr.record params k).id = k.id ∧ (CollectionAttr.record params k).userId = k.userId := by
  unfold CollectionAttr.record
  induction params generalizing k with
  | nil => exact ⟨rfl, rfl⟩
  | cons a params ih =>
    rw [List.foldl_cons, (ih _).1, (ih _).2]
    cases a with
    | name v => exact ⟨rfl, rfl⟩
    | published v => exact ⟨rfl, rfl⟩
    | privacy v => exact ⟨rfl, rfl⟩

/-- A valid record is written, and is valid in what it was written to. -/
theorem rows_updateRecord {db : Database} (now : Nat) {i : Nat} {params : List CollectionAttr} {k : Collection}
    (hk : db.collections.find? i = some k) (hvalid : db.collectionValid (CollectionAttr.record params k) = true) :
    (db.updateCollection (some now) i (CollectionAttr.record params)).collections.rows.map Collection.face =
        db.collections.rows.map (fun r =>
          (if r.id = i then CollectionAttr.record params k else r).face) ∧
      ∀ db' : Database, db'.collections.rows.map Collection.face =
          (db.updateCollection (some now) i (CollectionAttr.record params)).collections.rows.map Collection.face →
        db'.collectionValid (CollectionAttr.record params k) = true := by
  obtain ⟨hkmem, hkid⟩ := Table.find?_eq_some.mp hk
  have hki : k.id = i := hkid
  have hid : (CollectionAttr.record params k).id = i := (record_id params k).1.trans hki
  have hface : (db.updateCollection (some now) i (CollectionAttr.record params)).collections.rows.map Collection.face =
      db.collections.rows.map (fun r => (if r.id = i then CollectionAttr.record params k else r).face) := by
    rw [rows_updateCollection db (some now) i fun k => (record_id params k).1, List.map_map]
    apply List.map_congr_left
    intro r hr
    rw [Function.comp]
    by_cases hri : r.id = i
    · have hrk : r = k := Table.eq_of_key hr hkmem (hri.trans hki.symm)
      rw [if_pos hri, if_pos hri, hrk, hvalid, Bool.not_true, Bool.false_or]
      by_cases hsame : CollectionAttr.record params k = k
      · rw [if_pos (decide_eq_true hsame), hsame]
      · rw [if_neg (by rw [decide_eq_true_eq]; exact hsame)]
        rfl
    · rw [if_neg hri, if_neg hri]
  -- the other names are those the record has been checked against
  refine ⟨hface, fun db' hdb' => ?_⟩
  rw [hface] at hdb'
  unfold collectionValid at hvalid ⊢
  rw [Bool.and_eq_true, List.all_eq_true] at hvalid ⊢
  refine ⟨hvalid.1, fun r' hr' => ?_⟩
  have hmem : r'.face ∈ db'.collections.rows.map Collection.face := List.mem_map_of_mem hr'
  rw [hdb'] at hmem
  obtain ⟨r, hr, heq⟩ := List.mem_map.mp hmem
  by_cases hri : r.id = i
  · rw [if_pos hri] at heq
    have hrid : r'.id = (CollectionAttr.record params k).id := (congrArg Prod.fst heq).symm
    rw [hrid, beq_self_eq_true, Bool.true_or]
  · rw [if_neg hri] at heq
    have hrid : r'.id = r.id := (congrArg Prod.fst heq).symm
    have hname : r'.name = r.name := (congrArg (fun x => x.2.1) heq).symm
    rw [hrid, hname]
    exact hvalid.2 r hr

theorem face_publishFirst (u : User) (now : Nat) (k : Collection) (db : Database) :
    (publishFirst u now k db).2.collectifies = db.collectifies ∧ (publishFirst u now k db).2.projects = db.projects ∧
      (publishFirst u now k db).2.collections.rows.map Collection.face =
        db.collections.rows.map Collection.face := by
  have hprivacy : ∀ db₁, db₁ = (if k.privacy = some "unlisted".toList then
      db.updateCollection (some now) k.id fun k => { k with privacy := some "public".toList } else db) →
      db₁.collectifies = db.collectifies ∧ db₁.projects = db.projects ∧
        db₁.collections.rows.map Collection.face = db.collections.rows.map Collection.face := by
    rintro db₁ rfl
    split
    · refine ⟨collectifies_updateCollection _ _ _ _, ?_, face_updateCollection _ _ _ (by intro _; rfl)⟩
      exact touches_updateCollection _ _ _ _ .projects (by decide)
    · exact ⟨rfl, rfl, rfl⟩
  obtain ⟨hcs, hps, hface⟩ := hprivacy _ rfl
  unfold publishFirst
  dsimp only
  generalize (if k.privacy = some "unlisted".toList then
      db.updateCollection (some now) k.id fun k => { k with privacy := some "public".toList } else db) = db₁ at *
  have hannounce := touches_announceMemberships u
    ((db₁.createActivity .collection k.id "collection.create".toList (some u.id) none).collectionUser k)
    ((db₁.createActivity .collection k.id "collection.create".toList (some u.id) none).memberships k.id)
    (db₁.createActivity .collection k.id "collection.create".toList (some u.id) none)
  refine ⟨(hannounce .collectifies (by decide)).trans hcs, (hannounce .projects (by decide)).trans hps, ?_⟩
  rw [(hannounce .collections (by decide) : _ = _)]
  exact hface

/-- When only the row of one collection is written, its flag decides. -/
theorem flagsCurrent_written {db db' : Database} (h : db.FlagsCurrent) {i : Nat} {k : Collection}
    (hk : db.collections.find? i = some k) (saved : Collection) (v : Option Bool)
    (hcollectifies : db'.collectifies = db.collectifies) (hprojects : db'.projects = db.projects)
    (hface : db'.collections.rows.map Collection.face =
      db.collections.rows.map fun r => (if r.id = i then { saved with published := v } else r).face) :
    db'.FlagsCurrent ↔ v = some (db.collectionPublished saved) := by
  obtain ⟨hkmem, hkid⟩ := Table.find?_eq_some.mp hk
  have hpub : ∀ r : Collection, db'.collectionPublished r = db.collectionPublished r := fun r =>
    collectionPublished_congr_face hprojects hcollectifies rfl rfl
  rw [flagsCurrent_iff_map hface]
  simp only [hpub]
  constructor
  · intro hall
    have hone := hall k hkmem
    rw [if_pos (by exact hkid)] at hone
    exact hone
  · intro hv r hr
    by_cases hri : r.id = i
    · rw [if_pos hri]
      exact hv
    · rw [if_neg hri]
      exact h r hr

theorem flagsCurrent_update {db : Database} (h : db.FlagsCurrent) {u : User} {now i : Nat}
    {params : List CollectionAttr}
    (hok : (update u now i params db).1 = .ok ∨ (update u now i params db).1 = .refused) :
    (update u now i params db).2.FlagsCurrent ↔ ∀ k, db.collections.find? i = some k →
      db.collectionPublished (CollectionAttr.record params k) = true ∨
        (CollectionAttr.record params k).published = some false := by
  unfold update at hok ⊢
  cases hk : db.collections.find? i with
  | none =>
    rw [hk] at hok
    simp at hok
  | some k =>
    rw [hk] at hok
    dsimp only at hok ⊢
    cases hauth : Ability.updateCollection u k with
    | false =>
      rw [hauth] at hok
      simp [authorize] at hok
    | true =>
      rw [hauth, authorize] at hok
      rw [authorize]
      cases hvalid : db.collectionValid (CollectionAttr.record params k) with
      | false =>
        rw [hvalid] at hok
        simp at hok
      | true =>
        rw [hvalid, Bool.not_true, if_neg Bool.false_ne_true] at hok
        rw [Bool.not_true, if_neg Bool.false_ne_true]
        simp only [Option.some.injEq, forall_eq']
        obtain ⟨hkmem, hkid⟩ := Table.find?_eq_some.mp hk
        have hki : k.id = i := hkid
        have hsid : (CollectionAttr.record params k).id = i := (record_id params k).1.trans hki
        obtain ⟨hface, hvalid'⟩ := rows_updateRecord now hk hvalid
        have hcs := collectifies_updateCollection db (some now) i (CollectionAttr.record params)
        have hps : (db.updateCollection (some now) i (CollectionAttr.record params)).projects = db.projects :=
          touches_updateCollection _ _ _ _ .projects (by decide)
        generalize db.updateCollection (some now) i (CollectionAttr.record params) = db₁ at *
        generalize CollectionAttr.record params k = saved at *
        have hshown : db₁.collectionPublished saved = db.collectionPublished saved :=
          collectionPublished_congr_face hps hcs rfl rfl
        cases hpub : db.collectionPublished saved with
        | true =>
          rw [hshown, hpub, if_pos rfl] at hok
          rw [hshown, hpub, if_pos rfl]
          -- the activities of a first publication come before the flag
          have hfirst : ∀ r, r = (if saved.published = some false then publishFirst u now saved db₁ else (true, db₁)) →
              r.2.collectifies = db.collectifies ∧ r.2.projects = db.projects ∧
                r.2.collections.rows.map Collection.face = db₁.collections.rows.map Collection.face := by
            rintro r rfl
            split
            · obtain ⟨hcs', hps', hface'⟩ := face_publishFirst u now saved db₁
              exact ⟨hcs'.trans hcs, hps'.trans hps, hface'⟩
            · exact ⟨hcs, hps, rfl⟩
          obtain ⟨hcs', hps', hface'⟩ := hfirst _ rfl
          generalize (if saved.published = some false then publishFirst u now saved db₁ else (true, db₁)) = r
            at hok hcs' hps' hface' ⊢
          cases hdone : r.1 with
          | false =>
            rw [hdone] at hok
            simp at hok
          | true =>
            rw [if_pos rfl]
            refine (flagsCurrent_written h hk saved (some true)
              ((collectifies_updateCollection _ _ _ _).trans hcs')
              ((touches_updateCollection _ _ _ _ .projects (by decide) : _ = _).trans hps') ?_).trans ?_
            · rw [face_map_updateFlag (hface'.trans hface) (some now) i (some true)]
              apply List.map_congr_left
              intro q _
              by_cases hqi : q.id = i
              · rw [if_pos hqi, if_pos hqi, if_pos ⟨hsid, hvalid' r.2 hface'⟩]
                rfl
              · rw [if_neg hqi, if_neg hqi, if_neg fun hc => hqi hc.1]
                rfl
            · rw [hpub]
              exact iff_of_true rfl (Or.inl rfl)
        | false =>
          rw [hshown, hpub, if_neg Bool.false_ne_true]
          have hforget := touches_forgetCollection db₁ i
          refine (flagsCurrent_written h hk saved saved.published
            ((hforget .collectifies (by decide)).trans hcs) ((hforget .projects (by decide)).trans hps) ?_).trans ?_
          · rw [(hforget .collections (by decide) : _ = _), hface]
          · rw [hpub]
            exact ⟨Or.inr, fun hor => hor.resolve_left Bool.false_ne_true⟩

theorem flagsCurrent_create {db : Database} (h : db.FlagsCurrent) {u : User} {now : Nat}
    {params : List CollectionAttr}
    (hok : (create u now params db).1 = .ok ∨ (create u now params db).1 = .refused) :
    (create u now params db).2.FlagsCurrent ↔
      (CollectionAttr.record params blankCollection).published = some false := by
  unfold create at hok ⊢
  dsimp only at hok ⊢
  cases hvalid : db.collectionValid (newCollection u now params db) with
  | false =>
    rw [hvalid] at hok
    simp at hok
  | true =>
    rw [Bool.not_true, if_neg Bool.false_ne_true]
    have hcs : (db.insertCollection (newCollection u now params db)).collectifies = db.collectifies := rfl
    have hps : (db.insertCollection (newCollection u now params db)).projects = db.projects := rfl
    have hrows : (db.insertCollection (newCollection u now params db)).collections.rows =
        db.collections.rows ++ [newCollection u now params db] := rfl
    have hnew : (newCollection u now params db).id = db.collections.next := rfl
    have hflag : (newCollection u now params db).published =
        (CollectionAttr.record params blankCollection).published := rfl
    have hname : startsWith (newCollection u now params db).name "Untitled".toList = true := rfl
    generalize newCollection u now params db = k at *
    generalize db.insertCollection k = db₁ at hcs hps hrows ⊢
    have hold : ∀ q ∈ db.collections.rows, q.id ≠ k.id := by
      intro q hq
      have hbound : q.id < db.collections.next := (db.collections.bound q hq).2
      omega
    have hpub : ∀ q : Collection, (db₁.updateCollection (some now) k.id fun k =>
        { k with name := untitledName (toS k.id) }).collectionPublished q = db.collectionPublished q := fun q =>
      collectionPublished_congr_face ((touches_updateCollection _ _ _ _ .projects (by decide) : _ = _).trans hps)
        ((collectifies_updateCollection _ _ _ _).trans hcs) rfl rfl
    rw [FlagsCurrent]
    simp only [hpub]
    rw [rows_updateCollection db₁ (some now) k.id (by intro _; rfl), hrows, List.map_append, List.forall_mem_append,
      List.map_singleton, List.forall_mem_singleton, if_pos rfl]
    have hkept : ∀ f : Collection → Collection, (db.collections.rows.map fun q => if q.id = k.id then f q else q) =
        db.collections.rows := fun f =>
      List.map_eq_self_of_forall fun q hq => if_neg (hold q hq)
    rw [hkept]
    refine (and_iff_right h).trans ?_
    -- the new collection has a name that is never published
    have hhidden : ∀ q : Collection, startsWith q.name "Untitled".toList = true → db.collectionPublished q = false := by
      intro q hq
      rw [collectionPublished, hq, Bool.not_true, Bool.false_and]
    split
    · rw [hhidden k hname, hflag]
    · rw [hhidden _ (by rfl)]
      exact iff_of_eq (congrArg (· = some false) hflag)

end CollectionsController

/-! ## Every request -/

namespace CollectionRequest

open Database

/-- What keeps the flags as `published?` says. -/
def KeepsFlags (db : Database) : CollectionRequest → Prop
  | create _ _ params => (CollectionAttr.record params CollectionsController.blankCollection).published = some false
  | update _ _ i params => ∀ k, db.collections.find? i = some k →
      db.collectionPublished (CollectionAttr.record params k) = true ∨
        (CollectionAttr.record params k).published = some false
  | addProject _ _ i p => ∀ k project, db.collections.find? i = some k → p.bind db.projects.find? = some project →
      (∀ c ∈ db.memberships i, c.projectId ≠ project.id) → startsWith k.name "Untitled".toList = false →
      project.isPublic = true → db.collectionPublished k = true ∨ db.collectionValid k = true
  | removeProject _ _ i p => ∀ k, db.collections.find? i = some k → db.collectionValid k = false → db.KeepsFlag p k
  | projectPrivacy _ _ p privacy =>
    if privacy = some "private".toList then
      ∀ k ∈ db.collections.rows, db.collectionValid k = false → db.KeepsFlag p k
    else ∀ project, db.projects.find? p = some project → project.valid = true → ∀ k ∈ db.collections.rows,
      startsWith k.name "Untitled".toList = false →
      (∃ c ∈ db.collectifies.rows, c.projectId = p ∧ c.collectionId = k.id) →
      (db.withoutProject p).collectionPublished k = false →
      (privacy = some "public".toList ↔ project.isPublic = true)
  | destroyProject _ _ p => ∀ k ∈ db.collections.rows, db.KeepsFlag p k

end CollectionRequest

/-- When every stored flag is what `published?` answers, a completed request leaves it so exactly when it does
not submit another flag, can write the flags it computes, and changes no publication that it does not write. -/
theorem collection_flags_current_iff {db : Database} (hunique : db.UniqueMemberships) (h : db.FlagsCurrent)
    {r : CollectionRequest} (hok : r.Completes db) : (r.handle db).2.FlagsCurrent ↔ r.KeepsFlags db := by
  cases r with
  | create u now params => exact CollectionsController.flagsCurrent_create h (Or.inl hok)
  | update u now i params => exact CollectionsController.flagsCurrent_update h (Or.inl hok)
  | addProject u now i p => exact CollectionsController.flagsCurrent_addProject h hok
  | removeProject u now i p => exact CollectifiesController.flagsCurrent_destroy hunique h hok
  | projectPrivacy u now p privacy =>
    rw [CollectionRequest.KeepsFlags]
    by_cases hprivate : privacy = some "private".toList
    · rw [if_pos hprivate]
      rw [hprivate] at hok ⊢
      exact ProjectsController.flagsCurrent_updatePrivacy_private hunique h hok
    · rw [if_neg hprivate]
      exact ProjectsController.flagsCurrent_updatePrivacy hunique h hprivate hok
  | destroyProject u now p => exact ProjectsController.flagsCurrent_destroy h hok

namespace Database

instance (db : Database) : Decidable db.FlagsCurrent :=
  inferInstanceAs (Decidable (∀ k ∈ db.collections.rows, k.published = some (db.collectionPublished k)))

instance (db : Database) : Decidable db.UniqueMemberships :=
  inferInstanceAs (Decidable (db.collectifies.rows.map fun c => (c.collectionId, c.projectId)).Nodup)

/-- A public lamp and a collection that it is in or not. -/
def oneCollection (name : Text) (published : Option Bool) (collectifies : Table Collectify) : Database :=
  { oneProject "Lamp".toList (some "public".toList) with
    collections := .ofRows [⟨1, name, some 1, published, some "public".toList, 0⟩] 2
      (by simp [Table.WellKeyed, Keyed.key])
    collectifies := collectifies }

/-- The lamp in a collection that shows it. -/
def shownLamp : Database :=
  oneCollection "Robots".toList (some true) (.ofRows [⟨1, 1, 1⟩] 2 (by decide))

end Database

theorem collection_flags_current_added :
    ((CollectionRequest.addProject bob 3 1 (some 1)).handle
      (.oneCollection "Robots".toList (some false) Table.empty)).2.FlagsCurrent := by
  have hok : (CollectionRequest.addProject bob 3 1 (some 1)).Completes
      (.oneCollection "Robots".toList (some false) Table.empty) := Or.inl (by decide +kernel)
  refine (collection_flags_current_iff (by decide +kernel) (by decide +kernel) hok).mpr
    fun k project hk _ _ _ _ => Or.inr ?_
  obtain ⟨hmem, -⟩ := Table.find?_eq_some.mp hk
  revert k
  decide +kernel

/-- The owner takes the name of a shown collection away, and its flag stays set. -/
theorem renamed_collection_keeps_flag :
    let r : CollectionRequest := .update ada 3 1 [.name "Untitled".toList]
    Database.shownLamp.UniqueMemberships ∧ Database.shownLamp.FlagsCurrent ∧ r.Completes .shownLamp ∧
      ¬ (r.handle .shownLamp).2.FlagsCurrent := by
  refine ⟨by decide +kernel, by decide +kernel, ?_, by decide +kernel⟩
  show ((CollectionRequest.update ada 3 1 [.name "Untitled".toList]).handle .shownLamp).1 = .ok
  decide +kernel
