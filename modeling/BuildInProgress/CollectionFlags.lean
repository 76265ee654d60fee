import BuildInProgress.ActivityDeletion
import BuildInProgress.Collections

/-!
# The published flag of a collection

Whether a collection is listed is stored with it.  The flag repeats what `published?` says of its name and
of its projects, so every request that changes one of these has to write it again.
-/

open Text

namespace Collection

/-- What the flag and `published?` read of a row. -/
def face (k : Collection) : Nat × Text × Option Nat × Option Bool := (k.id, k.name, k.userId, k.published)

end Collection

namespace Database

variable {db db' : Database}

/-- A project of the collection is public. -/
def HasPublic (db : Database) (i : Nat) : Prop :=
  ∃ c ∈ db.collectifies.rows, c.collectionId = i ∧
    ∃ q, db.projects.find? c.projectId = some q ∧ q.isPublic = true

theorem collectionPublished_iff {k : Collection} : db.collectionPublished k = true ↔
    startsWith k.name "Untitled".toList = false ∧ db.HasPublic k.id := by
  rw [collectionPublished, Bool.and_eq_true, Bool.not_eq_true', List.any_eq_true]
  apply and_congr_right
  intro _
  unfold collectionProjects HasPublic
  constructor
  · rintro ⟨q, hq, hpublic⟩
    obtain ⟨c, hc, hfind⟩ := List.mem_filterMap.mp hq
    rw [List.mem_filter, decide_eq_true_eq] at hc
    exact ⟨c, hc.1, hc.2, q, hfind, hpublic⟩
  · rintro ⟨c, hc, hk, q, hfind, hpublic⟩
    refine ⟨q, List.mem_filterMap.mpr ⟨c, ?_, hfind⟩, hpublic⟩
    rw [List.mem_filter, decide_eq_true_eq]
    exact ⟨hc, hk⟩

theorem collectionPublished_congr_face {k k' : Collection} (hprojects : db'.projects = db.projects)
    (hcollectifies : db'.collectifies = db.collectifies) (hid : k'.id = k.id) (hname : k'.name = k.name) :
    db'.collectionPublished k' = db.collectionPublished k :=
  collectionPublished_congr hprojects (by rw [hcollectifies, hid]) hname

/-- Every stored flag is what `published?` answers. -/
def FlagsCurrent (db : Database) : Prop :=
  ∀ k ∈ db.collections.rows, k.published = some (db.collectionPublished k)

/-- The flags after a request that wrote the rows `g`. -/
theorem flagsCurrent_iff_map {g : Collection → Collection}
    (hrows : db'.collections.rows.map Collection.face = db.collections.rows.map fun k => (g k).face) :
    FlagsCurrent db' ↔ ∀ k ∈ db.collections.rows, (g k).published = some (db'.collectionPublished (g k)) := by
  have hface : ∀ ks : List Collection, (∀ k ∈ ks, k.published = some (db'.collectionPublished k)) ↔
      ∀ x ∈ ks.map Collection.face, x.2.2.2 = some (db'.collectionPublished ⟨x.1, x.2.1, none, none, none, 0⟩) := by
    intro ks
    rw [List.forall_mem_map]
    rfl
  rw [FlagsCurrent, hface, hrows, List.forall_mem_map]
  rfl

/-- The flags after a request that kept the names and wrote the flags `v`. -/
theorem flagsCurrent_iff {v : Collection → Option Bool}
    (hrows : db'.collections.rows.map Collection.face =
      db.collections.rows.map fun k => (k.id, k.name, k.userId, v k)) :
    FlagsCurrent db' ↔ ∀ k ∈ db.collections.rows, v k = some (db'.collectionPublished k) :=
  flagsCurrent_iff_map (g := fun k => { k with published := v k }) hrows

/-! ## What an update writes -/

theorem rows_updateCollection (db : Database) (stamp : Option Nat) (i : Nat) {f : Collection → Collection}
    (hf : ∀ k, (f k).id = k.id) :
    (db.updateCollection stamp i f).collections.rows = db.collections.rows.map fun k =>
      if k.id = i then
        if !db.collectionValid (f k) || f k = k then k
        else { f k with updatedAt := stamp.getD (f k).updatedAt }
      else k := by
  rw [updateCollection]
  cases hfind : db.collections.find? i with
  | none => exact (Table.map_not_found hfind _).symm
  | some k =>
    dsimp only
    by_cases hsame : (!db.collectionValid (f k) || decide (f k = k)) = true
    · rw [if_pos hsame]
      refine (Table.map_found_self hfind ?_).symm
      exact if_pos hsame
    · rw [if_neg hsame, Table.rows_modify]
      refine Table.map_congr_found hfind ?_
      rw [if_neg hsame, ← hf k]

/-- Whether a collection is valid depends on its name, its owner and the other names. -/
theorem collectionValid_congr {k k' : Collection}
    (hrows : db'.collections.rows.map (fun r => (r.id, r.name)) = db.collections.rows.map fun r => (r.id, r.name))
    (hid : k'.id = k.id) (hname : k'.name = k.name) (huser : k'.userId = k.userId) :
    db'.collectionValid k' = db.collectionValid k := by
  have hall : ∀ rs : List Collection, (rs.all fun r => r.id == k.id || r.name != k.name) =
      (rs.map fun r => (r.id, r.name)).all fun x => x.1 == k.id || x.2 != k.name := by
    intro rs
    rw [List.all_map]
    rfl
  rw [collectionValid, collectionValid, hid, hname, huser, hall, hall, hrows]

theorem names_of_face {ks ks' : List Collection} {v : Collection → Option Bool}
    (h : ks'.map Collection.face = ks.map fun k => (k.id, k.name, k.userId, v k)) :
    ks'.map (fun r => (r.id, r.name)) = ks.map fun r => (r.id, r.name) := by
  have hproj := congrArg (List.map fun x : Nat × Text × Option Nat × Option Bool => (x.1, x.2.1)) h
  rw [List.map_map, List.map_map] at hproj
  exact hproj

/-- A write of the flag reaches the row if its collection is valid. -/
theorem face_updateFlag (db : Database) (stamp : Option Nat) (i : Nat) (v : Collection → Option Bool) :
    (db.updateCollection stamp i fun k => { k with published := v k }).collections.rows.map Collection.face =
      db.collections.rows.map fun k => (k.id, k.name, k.userId,
        if k.id = i ∧ db.collectionValid k = true then v k else k.published) := by
  rw [rows_updateCollection db stamp i (by intro _; rfl), List.map_map]
  apply List.map_congr_left
  intro k _
  rw [Function.comp]
  by_cases hid : k.id = i
  · have hvalid : db.collectionValid { k with published := v k } = db.collectionValid k := rfl
    rw [if_pos hid, hvalid]
    by_cases hv : db.collectionValid k = true
    · have hright : (if k.id = i ∧ db.collectionValid k = true then v k else k.published) = v k := if_pos ⟨hid, hv⟩
      rw [hright, hv, Bool.not_true, Bool.false_or]
      by_cases hsame : ({ k with published := v k } : Collection) = k
      · rw [if_pos (decide_eq_true hsame), Collection.face, ← congrArg Collection.published hsame]
      · rw [if_neg (by rw [decide_eq_true_eq]; exact hsame)]
        rfl
    · have hright : (if k.id = i ∧ db.collectionValid k = true then v k else k.published) = k.published :=
        if_neg fun hc => hv hc.2
      rw [hright, Bool.eq_false_of_not_eq_true hv, Bool.not_false, Bool.true_or, if_pos rfl]
      rfl
  · rw [if_neg hid, if_neg fun hc => hid hc.1]
    rfl

/-- An update that leaves name, owner and flag alone. -/
theorem face_updateCollection (db : Database) (stamp : Option Nat) (i : Nat) {f : Collection → Collection}
    (hf : ∀ k, (f k).face = k.face) :
    (db.updateCollection stamp i f).collections.rows.map Collection.face =
      db.collections.rows.map Collection.face := by
  rw [rows_updateCollection db stamp i (fun k => congrArg Prod.fst (hf k)), List.map_map]
  apply List.map_congr_left
  intro k _
  rw [Function.comp]
  split
  · split
    · rfl
    · exact hf k
  · rfl

/-- A write of flags after another write. -/
theorem face_trans_map {ks ks' ks'' : List Collection} {g : Collection → Collection} {w : Collection → Option Bool}
    (hg : ks'.map Collection.face = ks.map fun k => (g k).face)
    (hw : ks''.map Collection.face = ks'.map fun k => (k.id, k.name, k.userId, w k))
    (hface : ∀ k k', k.face = k'.face → w k = w k') :
    ks''.map Collection.face = ks.map fun k => ((g k).id, (g k).name, (g k).userId, w (g k)) := by
  have hread : ∀ ks : List Collection, (ks.map fun k => (k.id, k.name, k.userId, w k)) =
      (ks.map Collection.face).map fun x => (x.1, x.2.1, x.2.2.1, w ⟨x.1, x.2.1, x.2.2.1, x.2.2.2, none, 0⟩) := by
    intro ks
    rw [List.map_map]
    apply List.map_congr_left
    intro k _
    rw [Function.comp, hface k ⟨k.face.1, k.face.2.1, k.face.2.2.1, k.face.2.2.2, none, 0⟩ rfl]
    rfl
  rw [hw, hread, hg, List.map_map]
  apply List.map_congr_left
  intro k _
  rw [Function.comp, hface (g k) ⟨(g k).id, (g k).name, (g k).userId, (g k).published, none, 0⟩ rfl]
  rfl

/-- Two writes of flags, one after the other. -/
theorem face_trans {ks ks' ks'' : List Collection} {v w : Collection → Option Bool}
    (hv : ks'.map Collection.face = ks.map fun k => (k.id, k.name, k.userId, v k))
    (hw : ks''.map Collection.face = ks'.map fun k => (k.id, k.name, k.userId, w k))
    (hface : ∀ k k', k.face = k'.face → w k = w k') :
    ks''.map Collection.face = ks.map fun k => (k.id, k.name, k.userId, w { k with published := v k }) :=
  face_trans_map (g := fun k => { k with published := v k }) hv hw hface

/-- The flag of a collection is written after what was written before. -/
theorem face_map_updateFlag {ks : List Collection} {g : Collection → Collection}
    (hg : db.collections.rows.map Collection.face = ks.map fun k => (g k).face) (stamp : Option Nat) (i : Nat)
    (flag : Option Bool) :
    (db.updateCollection stamp i fun k => { k with published := flag }).collections.rows.map Collection.face =
      ks.map fun k => ((g k).id, (g k).name, (g k).userId,
        if (g k).id = i ∧ db.collectionValid (g k) = true then flag else (g k).published) := by
  refine face_trans_map hg (face_updateFlag db stamp i fun _ => flag) fun q q' hqq => ?_
  rw [Collection.face, Collection.face, Prod.mk.injEq, Prod.mk.injEq, Prod.mk.injEq] at hqq
  obtain ⟨hid, hname, huser, hpublished⟩ := hqq
  have hv : db.collectionValid q = db.collectionValid q' := collectionValid_congr rfl hid hname huser
  rw [hid, hv, hpublished]

/-- The flag of a collection that lost the project `p`, if it could be written. -/
def flagWithout (db : Database) (p : Nat) (k : Collection) : Option Bool :=
  if db.collectionValid k = true then some ((db.withoutProject p).collectionPublished k) else k.published

theorem face_removeFromCollection (hunique : UniqueMemberships db) {c : Collectify} (hc : c ∈ db.collectifies.rows)
    {k : Collection} (hk : k.id = c.collectionId) {now : Nat}
    (hremove : db.removeFromCollection now k c.projectId = some db') :
    db'.collections.rows.map Collection.face = db.collections.rows.map fun r => (r.id, r.name, r.userId,
      if r.id = k.id then db.flagWithout c.projectId r else r.published) := by
  have hfind := find?_membership hunique hc
  rw [← hk] at hfind
  unfold removeFromCollection at hremove
  rw [hfind] at hremove
  cases hremove
  rw [face_updateFlag]
  apply List.map_congr_left
  intro r _
  by_cases hid : r.id = k.id
  · have hpub : Database.collectionPublished { db with collectifies := db.collectifies.filter (·.id ≠ c.id) } r =
        (db.withoutProject c.projectId).collectionPublished r :=
      collectionPublished_removed hunique hc (hid.trans hk) rfl rfl rfl rfl
    have hvalid : Database.collectionValid { db with collectifies := db.collectifies.filter (·.id ≠ c.id) } r =
        db.collectionValid r := rfl
    rw [if_pos hid, flagWithout, hpub, hvalid]
    by_cases hv : db.collectionValid r = true
    · rw [if_pos ⟨hid, hv⟩, if_pos hv]
    · rw [if_neg fun hcond => hv hcond.2, if_neg hv]
  · rw [if_neg hid, if_neg fun hcond => hid hcond.1]

/-- The second write after a removal, of a flag that is off already. -/
theorem face_unlist (hunique : UniqueMemberships db) {c : Collectify} (hc : c ∈ db.collectifies.rows)
    {k : Collection} (hmem : k ∈ db.collections.rows) (hk : k.id = c.collectionId) {now : Nat}
    (hremove : db.removeFromCollection now k c.projectId = some db')
    (hoff : db'.collectionPublished k = false) :
    (db'.updateCollection (some now) k.id fun k => { k with published := some false }).collections.rows.map
      Collection.face = db'.collections.rows.map Collection.face := by
  have hface := face_removeFromCollection hunique hc hk hremove
  obtain ⟨db₁, hdb₁, hremoved⟩ := removeFromCollection_eq hunique hc hk now
  rw [hremove, Option.some.injEq] at hdb₁
  subst hdb₁
  have hpub : db'.collectionPublished k = (db.withoutProject c.projectId).collectionPublished k :=
    collectionPublished_removed hunique hc hk rfl rfl (hremoved.touches .projects (by decide)) hremoved.rows
  rw [face_updateFlag]
  apply List.map_congr_left
  intro r hr
  by_cases hcond : r.id = k.id ∧ db'.collectionValid r = true
  · have hmemface : r.face ∈ db'.collections.rows.map Collection.face := List.mem_map_of_mem hr
    rw [hface] at hmemface
    obtain ⟨q, hq, heq⟩ := List.mem_map.mp hmemface
    rw [Collection.face, Prod.mk.injEq, Prod.mk.injEq, Prod.mk.injEq] at heq
    have hqk : q = k := Table.eq_of_key hq hmem (heq.1.trans hcond.1)
    have hvalid : db.collectionValid q = true := by
      rw [← hcond.2]
      exact (collectionValid_congr (names_of_face hface) heq.1.symm heq.2.1.symm heq.2.2.1.symm).symm
    have hflag := heq.2.2.2
    rw [if_pos (congrArg Collection.id hqk), flagWithout, if_pos hvalid, hqk, ← hpub, hoff] at hflag
    rw [if_pos hcond, Collection.face, hflag]
  · rw [if_neg hcond]
    rfl

end Database

namespace ProjectsController

open Database

/-- One turn of the loop takes one membership, and the collection writes its flag; a second write that unlists the
collection changes no flag. -/
theorem leaveCollections_cons {db₀ db : Database} {u : User} {p : Nat} {now : Nat} {c : Collectify} {cs : List Collectify}
    (h : Leaving db₀ u p (c :: cs) db) (hok : (leaveCollections u now (c :: cs) db).1 = .ok) :
    ∃ db₃, leaveCollections u now (c :: cs) db = leaveCollections u now cs db₃ ∧ Leaving db₀ u p cs db₃ ∧
      db₃.collectifies.rows = db.collectifies.rows.filter (·.id ≠ c.id) ∧
      db₃.collections.rows.map Collection.face = db.collections.rows.map fun r => (r.id, r.name, r.userId,
        if r.id = c.collectionId then db.flagWithout p r else r.published) := by
  rw [leaveCollections] at hok ⊢
  obtain ⟨-, heq⟩ := authorize_ok hok
  rw [heq] at hok ⊢
  dsimp only at hok ⊢
  have hleaving := h.activities (db.activities.filter (·.trackableId ≠ some c.id))
  rw [← destroyActivities] at hleaving
  have hkept : (db.destroyActivities (some c.id)).collections = db.collections ∧
      (db.destroyActivities (some c.id)).collectifies = db.collectifies ∧
      ∀ k, (db.destroyActivities (some c.id)).flagWithout p k = db.flagWithout p k := ⟨rfl, rfl, fun _ => rfl⟩
  generalize db.destroyActivities (some c.id) = db₁ at hok hleaving hkept ⊢
  obtain ⟨hcollections, hcollectifies, hflags⟩ := hkept
  cases hk : db₁.collections.find? c.collectionId with
  | none =>
    rw [hk] at hok
    cases hok
  | some k =>
    obtain ⟨hkmem, hkid⟩ := Table.find?_eq_some.mp hk
    have hkid : k.id = c.collectionId := hkid
    obtain ⟨hc, hp⟩ := hleaving.mem
    obtain ⟨db₂, hremove, hremoved⟩ := removeFromCollection_eq hleaving.unique hc hkid now
    have hface₂ := face_removeFromCollection hleaving.unique hc hkid hremove
    rw [hp, hkid] at hface₂
    simp only [hflags, hcollections] at hface₂
    dsimp only
    rw [hremove]
    refine ⟨_, rfl, ?_⟩
    -- the collection is unlisted when the project was its last public one
    cases hpub : db₂.collectionPublished k with
    | true =>
      rw [if_pos rfl]
      exact ⟨hleaving.next hremoved, hcollectifies ▸ hremoved.rows, hface₂⟩
    | false =>
      rw [if_neg Bool.false_ne_true]
      refine ⟨(hleaving.next (hremoved.updateCollection (some now) k.id)).activities _, ?_, ?_⟩
      · exact (congrArg Table.rows (collectifies_updateCollection _ _ _ _)).trans (hcollectifies ▸ hremoved.rows)
      · exact (face_unlist hleaving.unique hc hkmem hkid hremove hpub).trans hface₂

/-- A project that leaves its collections leaves all of them. -/
theorem collectifies_leaveCollections {db₀ db : Database} {u : User} {p : Nat} (now : Nat) {cs : List Collectify}
    (h : Leaving db₀ u p cs db) (hok : (leaveCollections u now cs db).1 = .ok) :
    (leaveCollections u now cs db).2.collectifies.rows = db.collectifies.rows.filter (·.projectId ≠ p) := by
  induction cs generalizing db with
  | nil =>
    symm
    apply List.filter_eq_self.mpr
    intro c hc
    rw [decide_eq_true_eq]
    intro hp
    have hleft : c ∈ db.collectifies.rows.filter (·.projectId = p) := List.mem_filter.mpr ⟨hc, decide_eq_true hp⟩
    rw [h.left] at hleft
    cases hleft
  | cons c cs ih =>
    obtain ⟨db₃, heq, hnext, hrows, -⟩ := leaveCollections_cons h hok
    obtain ⟨hc, hp⟩ := h.mem
    rw [heq] at hok ⊢
    rw [ih hnext hok, hrows, List.filter_filter]
    apply List.filter_congr
    intro r hr
    by_cases hrp : r.projectId = p
    · simp [hrp]
    · have hne : r.id ≠ c.id := by
        intro hid
        rw [Table.eq_of_key hr hc hid] at hrp
        exact hrp hp
      simp [hrp, hne]

/-- Each of these collections writes its flag. -/
theorem face_leaveCollections {db₀ db : Database} {u : User} {p : Nat} (now : Nat) {cs : List Collectify}
    (h : Leaving db₀ u p cs db) (hok : (leaveCollections u now cs db).1 = .ok) :
    (leaveCollections u now cs db).2.collections.rows.map Collection.face =
      db.collections.rows.map fun k => (k.id, k.name, k.userId,
        if ∃ c ∈ cs, c.collectionId = k.id then db.flagWithout p k else k.published) := by
  induction cs generalizing db with
  | nil =>
    apply List.map_congr_left
    intro k _
    rw [if_neg (by rintro ⟨c, hc, -⟩; cases hc)]
    rfl
  | cons c cs ih =>
    obtain ⟨db₃, heq, hnext, -, hface⟩ := leaveCollections_cons h hok
    rw [heq] at hok ⊢
    have hwrite : ∀ r r' : Collection, r.face = r'.face →
        (if ∃ c ∈ cs, c.collectionId = r.id then db₃.flagWithout p r else r.published) =
          if ∃ c ∈ cs, c.collectionId = r'.id then db₃.flagWithout p r' else r'.published := by
      intro r r' hrr
      rw [Collection.face, Collection.face, Prod.mk.injEq, Prod.mk.injEq, Prod.mk.injEq] at hrr
      obtain ⟨hid, hname, huser, hpublished⟩ := hrr
      have hv : db₃.collectionValid r = db₃.collectionValid r' := collectionValid_congr rfl hid hname huser
      have hpub : (db₃.withoutProject p).collectionPublished r = (db₃.withoutProject p).collectionPublished r' :=
        collectionPublished_congr_face rfl rfl hid hname
      rw [flagWithout, flagWithout, hid, hpublished, hv, hpub]
    rw [face_trans hface (ih hnext hok) hwrite]
    apply List.map_congr_left
    intro r _
    congr 3
    -- what the later turns write does not depend on the flag
    have hflag : ∀ v, db₃.flagWithout p { r with published := v } =
        if db.collectionValid r = true then some ((db.withoutProject p).collectionPublished r) else v := by
      intro v
      have hv : db₃.collectionValid { r with published := v } = db.collectionValid r :=
        collectionValid_congr (names_of_face hface) rfl rfl rfl
      have hpub : (db₃.withoutProject p).collectionPublished { r with published := v } =
          (db.withoutProject p).collectionPublished r := by
        rw [hnext.published, ← h.published]
        rfl
      rw [flagWithout, hv, hpub]
    have hcons : (∃ x ∈ c :: cs, x.collectionId = r.id) ↔ r.id = c.collectionId ∨ ∃ x ∈ cs, x.collectionId = r.id := by
      simp only [List.mem_cons, exists_eq_or_imp]
      rw [eq_comm]
    simp only [hflag, hcons]
    by_cases hin : ∃ x ∈ cs, x.collectionId = r.id
    · rw [if_pos hin, if_pos (Or.inr hin), flagWithout]
      by_cases hv : db.collectionValid r = true
      · rw [if_pos hv, if_pos hv]
      · rw [if_neg hv, if_neg hv, ite_self]
    · rw [if_neg hin]
      by_cases hid : r.id = c.collectionId
      · rw [if_pos hid, if_pos (Or.inl hid)]
      · rw [if_neg hid, if_neg (by rintro (hc | hc); exacts [hid hc, hin hc])]

end ProjectsController
