import BuildInProgress.CollectionRequests
import BuildInProgress.Lib.First

/-!
# The names of new collections

`create` saves a collection under a provisional name before it can be named after its id.  The number in the
provisional name follows the one in the name of the untitled collection that was updated last, whichever that
is.  The module says which requests leave the provisional name free.
-/

open Keyed Text

namespace Ability

/-- `can :destroy, Collection` -/
def destroyCollection (u : User) (k : Collection) : Bool := k.userId == some u.id

end Ability

namespace CollectionsController

/-- `DELETE /collections/:id`; the memberships go with the collection. -/
def destroy (u : User) (i : Nat) (db : Database) : Outcome × Database :=
  match db.collections.find? i with
  | none => (.notFound, db)
  | some k =>
    authorize (some (Ability.destroyCollection u k)) db <|
      let db := forgetCollection db i
      (.ok, { db with
        collections := db.collections.filter (·.id ≠ i)
        collectifies := db.collectifies.filter (·.collectionId ≠ i) })

end CollectionsController

/-- The requests that write a name or the time of an update. -/
inductive NameRequest where
  | create (u : User) (now : Nat) (params : List CollectionAttr)
  | update (u : User) (now i : Nat) (params : List CollectionAttr)
  | addProject (u : User) (now i : Nat) (p : Option Nat)
  | destroy (u : User) (i : Nat)

namespace NameRequest

def handle (db : Database) : NameRequest → Outcome × Database
  | create u now params => CollectionsController.create u now params db
  | update u now i params => CollectionsController.update u now i params db
  | addProject u now i p => CollectionsController.addProject u now i p db
  | destroy u i => CollectionsController.destroy u i db

def perform (db : Database) (r : NameRequest) : Database := (r.handle db).2

end NameRequest

/-! ## Labels -/

/-- What the provisional name depends on. -/
structure Label where
  id : Nat
  name : Text
  updatedAt : Nat
  deriving DecidableEq, Repr

def Collection.label (k : Collection) : Label := ⟨k.id, k.name, k.updatedAt⟩

namespace Label

variable {l t : Label} {ls : List Label}

/-- `name like '%Untitled%'` -/
def untitled (l : Label) : Bool := includes l.name "Untitled".toList

/-- The number that `create` reads from a name. -/
def number (name : Text) : Int := toI (sub "Untitled-Collection-".toList [] name)

/-- The name with the next number. -/
def follower (name : Text) : Text := CollectionsController.untitledName (intToS (number name + 1))

/-- `t` comes before `l` in the order of the query, or is `l`.  Times of update that are equal are told apart by
`created_at`, in whose order the ids are given. -/
def UpTo (t l : Label) : Prop := l.updatedAt < t.updatedAt ∨ l.updatedAt = t.updatedAt ∧ l.id ≤ t.id

instance (t l : Label) : Decidable (t.UpTo l) := inferInstanceAs (Decidable (_ ∨ _))

/-- No untitled collection comes before `t`, which is untitled too. -/
def Last (ls : List Label) (t : Label) : Prop := t.untitled = true ∧ ∀ l ∈ ls, l.untitled = true → t.UpTo l

instance (ls : List Label) (t : Label) : Decidable (Last ls t) := inferInstanceAs (Decidable (_ ∧ _))

def Unused (ls : List Label) (name : Text) : Prop := ∀ l ∈ ls, l.name ≠ name

instance (ls : List Label) (name : Text) : Decidable (Unused ls name) :=
  inferInstanceAs (Decidable (∀ l ∈ ls, l.name ≠ name))

/-- The name that follows the last untitled one is unused. -/
def FollowerUnused (ls : List Label) : Prop := ∀ t ∈ ls, Last ls t → Unused ls (follower t.name)

/-- What it takes that the name stays unused when the collection `x` joins the others: the last of them all
is `x`, or it is the last of the others. -/
def Joins (others : List Label) (x : Label) : Prop :=
  (Last others x → Unused others (follower x.name)) ∧
    ∀ t ∈ others, Last others t → (x.untitled = true → t.UpTo x) →
      Unused others (follower t.name) ∧ x.name ≠ follower t.name

instance (others : List Label) (x : Label) : Decidable (Joins others x) := inferInstanceAs (Decidable (_ ∧ _))

theorem UpTo.refl (l : Label) : l.UpTo l := Or.inr ⟨rfl, Nat.le_refl _⟩

theorem UpTo.trans {s : Label} (h : s.UpTo t) (h' : t.UpTo l) : s.UpTo l := by
  unfold UpTo at *
  omega

theorem upTo_total (l t : Label) : t.UpTo l ∨ l.UpTo t := by
  unfold UpTo
  omega

theorem UpTo.id_eq (h : l.UpTo t) (h' : t.UpTo l) : l.id = t.id := by
  unfold UpTo at *
  omega

end Label

namespace Text

theorem sub_prefix {pat : Text} (hpat : pat ≠ []) (t : Text) : sub pat [] (pat ++ t) = t := by
  cases pat with
  | nil => exact absurd rfl hpat
  | cons c cs =>
    have hpre : (c :: cs).isPrefixOf (c :: (cs ++ t)) = true := List.isPrefixOf_iff_prefix.mpr ⟨t, rfl⟩
    rw [List.cons_append, sub, if_pos hpre, List.nil_append, ← List.cons_append, List.drop_left]

@[simp] theorem toI_intToS (n : Int) : toI (intToS n) = n := by
  rw [intToS]
  split
  · rename_i hneg
    have hminus : isSpace '-' = false := by decide
    rw [toI, List.dropWhile_cons_of_neg (by simp [hminus])]
    simp only [toNat_toS]
    omega
  · rw [toI_toS]
    omega

end Text

namespace Label

variable {l t x : Label} {ls others : List Label}

theorem untitled_untitledName (i time : Nat) (n : Text) :
    (⟨i, CollectionsController.untitledName n, time⟩ : Label).untitled = true := by
  rw [untitled, includes, List.any_eq_true]
  refine ⟨_, (List.mem_tails _ _).mpr List.suffix_rfl, ?_⟩
  rw [List.isPrefixOf_iff_prefix]
  exact ⟨"-Collection-".toList ++ n, rfl⟩

theorem number_untitledName (m : Int) : number (CollectionsController.untitledName (intToS m)) = m := by
  have hpat : "Untitled-Collection-".toList ≠ [] := by simp
  have hsub := sub_prefix hpat (intToS m)
  generalize hp : "Untitled-Collection-".toList = pat at *
  unfold number CollectionsController.untitledName
  rw [hp, hsub, toI_intToS]

theorem untitled_follower (l : Label) {name : Text} (h : l.name = follower name) : l.untitled = true := by
  obtain ⟨i, n, time⟩ := l
  obtain rfl : n = follower name := h
  exact untitled_untitledName _ _ _

/-- A name does not follow itself. -/
theorem ne_follower (name : Text) : name ≠ follower name := by
  intro h
  have hnumber : number name = number name + 1 := by
    conv_lhs => rw [h, follower, number_untitledName]
  omega

/-- A collection joins the others. -/
theorem followerUnused_iff (hls : ∀ l, l ∈ ls ↔ l = x ∨ l ∈ others) : FollowerUnused ls ↔ Joins others x := by
  constructor
  · intro h
    constructor
    · intro hlast l hl
      refine h x ((hls x).mpr (Or.inl rfl)) ⟨hlast.1, ?_⟩ l ((hls l).mpr (Or.inr hl))
      intro l hl huntitled
      rcases (hls l).mp hl with rfl | hl
      · exact UpTo.refl l
      · exact hlast.2 l hl huntitled
    · intro t ht hlast hx
      have hunused := h t ((hls t).mpr (Or.inr ht)) ⟨hlast.1, by
        intro l hl huntitled
        rcases (hls l).mp hl with rfl | hl
        · exact hx huntitled
        · exact hlast.2 l hl huntitled⟩
      exact ⟨fun l hl => hunused l ((hls l).mpr (Or.inr hl)), hunused x ((hls x).mpr (Or.inl rfl))⟩
  · rintro ⟨hx, hothers⟩ t ht hlast l hl
    have hrest : ∀ l ∈ others, l.untitled = true → t.UpTo l := fun l hl => hlast.2 l ((hls l).mpr (Or.inr hl))
    rcases (hls t).mp ht with rfl | ht
    · rcases (hls l).mp hl with rfl | hl
      · exact ne_follower l.name
      · exact hx ⟨hlast.1, hrest⟩ l hl
    · obtain ⟨hunused, hname⟩ := hothers t ht ⟨hlast.1, hrest⟩ (hlast.2 x ((hls x).mpr (Or.inl rfl)))
      rcases (hls l).mp hl with rfl | hl
      · exact hname
      · exact hunused l hl

/-- A collection that keeps the provisional name has to become the last one. -/
theorem joins_follower {i now : Nat} (ht : t ∈ others) (hlast : Last others t)
    (honly : ∀ t' ∈ others, Last others t' → t' = t) (hid : ∀ l ∈ others, l.id < i) :
    Joins others ⟨i, follower t.name, now⟩ ↔
      t.updatedAt ≤ now ∧ Unused others (follower (follower t.name)) := by
  have huntitled : (⟨i, follower t.name, now⟩ : Label).untitled = true := untitled_follower _ rfl
  constructor
  · rintro ⟨hx, hothers⟩
    -- an older `t` would stay the last one, and its follower is the name itself
    by_cases htime : t.updatedAt ≤ now
    · refine ⟨htime, hx ⟨huntitled, fun l hl hu => UpTo.trans ?_ (hlast.2 l hl hu)⟩⟩
      have hlt := hid t ht
      show t.updatedAt < now ∨ t.updatedAt = now ∧ t.id ≤ i
      omega
    · have hbefore := hothers t ht hlast fun _ => Or.inl (Nat.lt_of_not_le htime)
      exact absurd rfl hbefore.2
  · rintro ⟨htime, hunused⟩
    refine ⟨fun _ => hunused, ?_⟩
    intro t' ht' hlast' hbefore
    obtain rfl := honly t' ht' hlast'
    have hlt := hid t' ht'
    have hup : now < t'.updatedAt ∨ now = t'.updatedAt ∧ i ≤ t'.id := hbefore huntitled
    omega

end Label

/-! ## The provisional name -/

namespace CollectionsController

theorem latest_eq_none {ks : List Collection} : latest ks = none ↔ ks = [] := First.head_eq_none

theorem latest_eq_some {ks : List Collection} {t : Collection} (h : latest ks = some t) :
    t ∈ ks ∧ ∀ k ∈ ks, t.label.UpTo k.label := by
  have htotal : Std.Total fun a b : Collection => a.label.UpTo b.label := ⟨fun _ _ => Label.upTo_total _ _⟩
  have htrans : IsTrans Collection fun a b => a.label.UpTo b.label := ⟨fun _ _ _ => Label.UpTo.trans⟩
  change (ks.insertionSort fun a b => a.label.UpTo b.label).head? = some t at h
  exact First.of_head h

end CollectionsController

namespace Database

def labels (db : Database) : List Label := db.collections.rows.map Collection.label

/-- `create` would not be stopped by its provisional name. -/
def NameFree (db : Database) : Prop :=
  ∀ k ∈ db.collections.rows,
    k.name ≠ CollectionsController.untitledName (intToS (CollectionsController.untitledCount db))

variable {db : Database}

/-- Either no collection is untitled, or the provisional name follows that of the last one. -/
theorem provisional_cases (db : Database) :
    (∀ l ∈ db.labels, l.untitled = false) ∨ ∃ t ∈ db.labels, Label.Last db.labels t ∧
      (∀ t' ∈ db.labels, Label.Last db.labels t' → t' = t) ∧
      CollectionsController.untitledName (intToS (CollectionsController.untitledCount db)) =
        Label.follower t.name := by
  cases ht : CollectionsController.latest (db.collections.rows.filter fun k =>
      includes k.name "Untitled".toList) with
  | none =>
    apply Or.inl
    intro l hl
    obtain ⟨k, hk, rfl⟩ := List.mem_map.mp hl
    have hempty := CollectionsController.latest_eq_none.mp ht
    exact Bool.eq_false_of_not_eq_true (List.filter_eq_nil_iff.mp hempty k hk)
  | some t =>
    obtain ⟨htmem, hlatest⟩ := CollectionsController.latest_eq_some ht
    obtain ⟨htrow, huntitled⟩ := List.mem_filter.mp htmem
    have hlast : Label.Last db.labels t.label := by
      refine ⟨huntitled, ?_⟩
      intro l hl hu
      obtain ⟨k, hk, rfl⟩ := List.mem_map.mp hl
      exact hlatest k (List.mem_filter.mpr ⟨hk, hu⟩)
    refine Or.inr ⟨t.label, List.mem_map_of_mem htrow, hlast, ?_, ?_⟩
    · intro t' ht' hlast'
      obtain ⟨k', hk', rfl⟩ := List.mem_map.mp ht'
      -- two collections that are both last are one
      have hid : k'.id = t.id :=
        (hlast'.2 t.label (List.mem_map_of_mem htrow) huntitled).id_eq (hlast.2 _ ht' hlast'.1)
      rw [Table.eq_of_key hk' htrow hid]
    · rw [CollectionsController.untitledCount, ht]
      rfl

theorem nameFree_iff : db.NameFree ↔ Label.FollowerUnused db.labels := by
  rcases db.provisional_cases with hnone | ⟨t, ht, hlast, hunique, hname⟩
  · refine iff_of_true ?_ ?_
    · intro k hk hname
      have huntitled := hnone k.label (List.mem_map_of_mem hk)
      rw [show k.label = ⟨k.id, k.name, k.updatedAt⟩ from rfl, hname, Label.untitled_untitledName] at huntitled
      cases huntitled
    · intro t ht hlast
      have huntitled := hlast.1
      rw [hnone t ht] at huntitled
      cases huntitled
  · rw [NameFree, hname]
    constructor
    · intro h t' ht' hlast' l hl
      obtain ⟨k, hk, rfl⟩ := List.mem_map.mp hl
      rw [hunique t' ht' hlast']
      exact h k hk
    · intro h k hk
      exact h t ht hlast k.label (List.mem_map_of_mem hk)

end Database

/-! ## Rows that are written -/

namespace Database

/-- The row `i` is now `k`; the other collections are as they were. -/
structure Rewrites (i : Nat) (k : Collection) (db db' : Database) : Prop where
  id : k.id = i
  rows : db'.collections.rows = db.collections.rows.map fun r => if r.id = i then k else r

/-- What `update_attributes` makes of the row. -/
def updatedRow (db : Database) (now : Nat) (f : Collection → Collection) (k : Collection) : Collection :=
  if !db.collectionValid (f k) || f k = k then k else { f k with updatedAt := now }

/-- The time after two writes, each of which may be no write at all. -/
theorem ite_or_time {P Q : Prop} [Decidable P] [Decidable Q] {now old : Nat} :
    (if Q then now else if P then now else old) = if P ∨ Q then now else old := by
  by_cases hQ : Q
  · rw [if_pos hQ, if_pos (Or.inr hQ)]
  · rw [if_neg hQ]
    exact if_congr (or_iff_left hQ).symm rfl rfl

namespace Rewrites

variable {db db' db'' : Database} {i : Nat} {k k' : Collection}

theorem refl (hk : db.collections.find? i = some k) : Rewrites i k db db := by
  obtain ⟨hmem, hid⟩ := Table.find?_eq_some.mp hk
  refine ⟨hid, (List.map_eq_self_of_forall ?_).symm⟩
  intro r hr
  split
  · rename_i h
    exact Table.eq_of_key hmem hr (hid.trans h.symm)
  · rfl

theorem trans (h : Rewrites i k db db') (h' : Rewrites i k' db' db'') : Rewrites i k' db db'' := by
  refine ⟨h'.id, ?_⟩
  rw [h'.rows, h.rows, List.map_map]
  apply List.map_congr_left
  intro r _
  rw [Function.comp]
  by_cases hr : r.id = i
  · rw [if_pos hr, if_pos hr, if_pos h.id]
  · rw [if_neg hr, if_neg hr]

theorem of_collections (h : Rewrites i k db db') (hrows : db''.collections = db'.collections) :
    Rewrites i k db db'' := ⟨h.id, by rw [hrows, h.rows]⟩

/-- The other names decide whether the row is valid. -/
theorem collectionValid (h : Rewrites i k db db') {x : Collection} (hx : x.id = i) :
    db'.collectionValid x = db.collectionValid x := by
  have hall : (db'.collections.rows.all fun r => r.id == x.id || r.name != x.name) =
      db.collections.rows.all fun r => r.id == x.id || r.name != x.name := by
    rw [h.rows, List.all_map]
    apply List.all_congr rfl
    intro r
    rw [Function.comp]
    by_cases hr : r.id = i
    · rw [if_pos hr, h.id, hx, hr, beq_self_eq_true, Bool.true_or, Bool.true_or]
    · rw [if_neg hr]
  rw [Database.collectionValid, Database.collectionValid, hall]

theorem find? (h : Rewrites i k db db') (hi : ∃ r ∈ db.collections.rows, r.id = i) :
    db'.collections.find? i = some k := by
  obtain ⟨r, hr, hri⟩ := hi
  refine Table.find?_eq_some.mpr ⟨?_, h.id⟩
  rw [h.rows]
  exact List.mem_map.mpr ⟨r, hr, if_pos hri⟩

theorem update (now : Nat) {f : Collection → Collection} (hf : ∀ k, (f k).id = k.id) (h : Rewrites i k db db')
    (hi : ∃ r ∈ db.collections.rows, r.id = i) :
    Rewrites i (db'.updatedRow now f k) db (db'.updateCollection (some now) i f) := by
  have hk := h.find? hi
  have hid : (db'.updatedRow now f k).id = i := by
    rw [updatedRow]
    split
    · exact h.id
    · exact (hf k).trans h.id
  refine h.trans ⟨hid, ?_⟩
  rw [rows_updateCollection db' (some now) i hf]
  apply List.map_congr_left
  intro r hr
  by_cases hri : r.id = i
  · obtain ⟨hmem, -⟩ := Table.find?_eq_some.mp hk
    obtain rfl : r = k := Table.eq_of_key hr hmem (hri.trans h.id.symm)
    rw [if_pos hri, if_pos hri]
    rfl
  · rw [if_neg hri, if_neg hri]

/-- A valid update goes through; it writes the time unless nothing changes. -/
theorem write (now : Nat) {f : Collection → Collection} (hf : ∀ k, (f k).id = k.id) (h : Rewrites i k db db')
    (hi : ∃ r ∈ db.collections.rows, r.id = i) (hvalid : db.collectionValid (f k) = true) :
    ∃ k', Rewrites i k' db (db'.updateCollection (some now) i f) ∧ db.collectionValid k' = true ∧
      k'.name = (f k).name ∧ k'.published = (f k).published ∧ k'.privacy = (f k).privacy ∧
      k'.updatedAt = if f k ≠ k then now else k.updatedAt := by
  refine ⟨_, h.update now hf hi, ?_⟩
  have hwritten : db'.collectionValid (f k) = true := by
    rw [h.collectionValid ((hf k).trans h.id)]
    exact hvalid
  rw [updatedRow, hwritten, Bool.not_true, Bool.false_or]
  by_cases hsame : f k = k
  · rw [hsame] at hvalid ⊢
    rw [if_pos (decide_eq_true rfl), if_neg (not_not.mpr rfl)]
    exact ⟨hvalid, rfl, rfl, rfl, rfl⟩
  · rw [if_neg (by rwa [decide_eq_true_eq]), if_pos hsame]
    exact ⟨hvalid, rfl, rfl, rfl, rfl⟩

/-- The flag is written last. -/
theorem publish (now : Nat) (h : Rewrites i k db db') (hi : ∃ r ∈ db.collections.rows, r.id = i)
    (hvalid : db.collectionValid k = true) :
    ∃ k', Rewrites i k' db (db'.updateCollection (some now) i fun k => { k with published := some true }) ∧
      k'.name = k.name ∧ k'.updatedAt = if k.published ≠ some true then now else k.updatedAt := by
  obtain ⟨k', hk', -, hname, -, -, htime⟩ := h.write now
    (f := fun k => { k with published := some true }) (by intro _; rfl) hi hvalid
  refine ⟨k', hk', hname, htime.trans (if_congr (not_congr ?_) rfl rfl)⟩
  exact ⟨fun h => (congrArg Collection.published h).symm, fun h => by rw [← h]⟩

theorem touch (now : Nat) (h : Rewrites i k db db') : Rewrites i { k with updatedAt := now } db (db'.touchCollection now i) := by
  refine h.trans ⟨h.id, ?_⟩
  rw [touchCollection, Table.rows_modify]
  apply List.map_congr_left
  intro r hr
  rw [h.rows] at hr
  obtain ⟨q, hq, rfl⟩ := List.mem_map.mp hr
  by_cases hqi : q.id = i
  · rw [if_pos hqi]
    exact (if_pos h.id).trans (if_pos h.id).symm
  · rw [if_neg hqi]
    exact (if_neg hqi).trans (if_neg hqi).symm

end Rewrites

/-- The labels of the other collections. -/
def otherLabels (db : Database) (i : Nat) : List Label := db.labels.filter (·.id ≠ i)

theorem mem_otherLabels {db : Database} {i : Nat} {l : Label} : l ∈ db.otherLabels i ↔ l ∈ db.labels ∧ l.id ≠ i := by
  rw [otherLabels, List.mem_filter, decide_eq_true_eq]

theorem nameFree_rewrites {db db' : Database} {i : Nat} {k : Collection} (h : Rewrites i k db db')
    (hi : ∃ r ∈ db.collections.rows, r.id = i) : db'.NameFree ↔ Label.Joins (db.otherLabels i) k.label := by
  rw [nameFree_iff]
  apply Label.followerUnused_iff
  intro l
  rw [mem_otherLabels, labels, labels, h.rows, List.map_map, List.mem_map, List.mem_map]
  constructor
  · rintro ⟨r, hr, rfl⟩
    rw [Function.comp]
    by_cases hri : r.id = i
    · rw [if_pos hri]
      exact Or.inl rfl
    · rw [if_neg hri]
      exact Or.inr ⟨⟨r, hr, rfl⟩, hri⟩
  · rintro (rfl | ⟨⟨r, hr, rfl⟩, hri⟩)
    · obtain ⟨r, hr, hri⟩ := hi
      exact ⟨r, hr, congrArg Collection.label (if_pos hri)⟩
    · exact ⟨r, hr, congrArg Collection.label (if_neg hri)⟩

end Database

/-! ## When the name stays free -/

namespace Database

/-- `where("trackable_type = ? AND trackable_id = ?", "Collectify", i)` finds something. -/
def Announced (db : Database) (i : Nat) : Prop :=
  (db.activities.rows.any fun a => a.trackableType == some .collectify && a.trackableId == some i) = true

instance (db : Database) (i : Nat) : Decidable (db.Announced i) := inferInstanceAs (Decidable (_ = true))

/-- The activities about the memberships of the collection can be made. -/
def Announceable (db : Database) (i : Nat) : Prop :=
  ∀ c ∈ db.memberships i, db.Announced c.id ∨ db.projects.find? c.projectId ≠ none

instance (db : Database) (i : Nat) : Decidable (db.Announceable i) :=
  inferInstanceAs (Decidable (∀ c ∈ db.memberships i, _))

/-- An update of the collection `k` to `saved` writes the time. -/
def UpdateStamps (db : Database) (k saved : Collection) : Prop :=
  saved ≠ k ∨ db.collectionPublished saved = true ∧ (saved.published = none ∨
    saved.published = some false ∧ (saved.privacy = some "unlisted".toList ∨ db.Announceable k.id))

instance (db : Database) (k saved : Collection) : Decidable (db.UpdateStamps k saved) :=
  inferInstanceAs (Decidable (_ ∨ _))

/-- A project that is added to the collection `k` makes it write the time; `db` has the membership. -/
def AddStamps (db : Database) (k : Collection) : Prop :=
  db.collectionPublished k = true → db.collectionUser k = none →
    k.published = some false ∧ k.privacy ≠ some "public".toList ∧ db.collectionValid k = true

instance (db : Database) (k : Collection) : Decidable (db.AddStamps k) := inferInstanceAs (Decidable (_ → _))

end Database

namespace NameRequest

open Label

/-- In this state the request leaves the next provisional name free. -/
def LeavesFree (db : Database) : NameRequest → Prop
  | create _ now _ =>
    let name := CollectionsController.untitledName (toS db.collections.next)
    if Unused db.labels name then Joins db.labels ⟨db.collections.next, name, now⟩
    else ∀ t ∈ db.labels, Last db.labels t → t.updatedAt ≤ now ∧ Unused db.labels (follower (follower t.name))
  | update u now i params => ∀ k ∈ db.collections.find? i, k.userId = some u.id →
    db.collectionValid (CollectionAttr.record params k) = true →
      Joins (db.otherLabels i) ⟨i, (CollectionAttr.record params k).name,
        if db.UpdateStamps k (CollectionAttr.record params k) then now else k.updatedAt⟩
  | addProject _ now i p => ∀ k ∈ db.collections.find? i, ∀ project ∈ p.bind db.projects.find?,
    ((db.memberships i).any fun c => c.projectId == project.id) = false →
      Joins (db.otherLabels i) ⟨i, k.name,
        if (db.insertCollectify i project.id).AddStamps k then now else k.updatedAt⟩
  | destroy u i => ∀ k ∈ db.collections.find? i, k.userId = some u.id → FollowerUnused (db.otherLabels i)

instance (ls : List Label) : Decidable (FollowerUnused ls) :=
  inferInstanceAs (Decidable (∀ t ∈ ls, Last ls t → Unused ls (follower t.name)))

instance (db : Database) (r : NameRequest) : Decidable (LeavesFree db r) := by
  cases r with
  | create => exact inferInstanceAs (Decidable (ite _ _ _))
  | update => exact inferInstanceAs (Decidable (∀ k ∈ _, _))
  | addProject => exact inferInstanceAs (Decidable (∀ k ∈ _, _))
  | destroy => exact inferInstanceAs (Decidable (∀ k ∈ _, _))

end NameRequest

namespace CollectionsController

open Database Label

variable {db : Database}

/-- A free name passes the validation. -/
theorem create_ok (h : db.NameFree) (u : User) (now : Nat) (params : List CollectionAttr) :
    db.collectionValid (newCollection u now params db) = true ∧ (create u now params db).1 = .ok := by
  have hvalid : db.collectionValid (newCollection u now params db) = true := by
    have hall : (db.collections.rows.all fun r => r.id == (newCollection u now params db).id ||
        r.name != (newCollection u now params db).name) = true := by
      rw [List.all_eq_true]
      intro r hr
      rw [Bool.or_eq_true]
      exact Or.inr (bne_iff_ne.mpr (h r hr))
    rw [collectionValid, hall, Bool.and_true]
    rfl
  refine ⟨hvalid, ?_⟩
  unfold create
  dsimp only
  rw [hvalid, Bool.not_true, if_neg Bool.false_ne_true]

/-- After the insertion the other collections are the old ones. -/
theorem otherLabels_append {db₁ : Database} {k : Collection}
    (hrows : db₁.collections.rows = db.collections.rows ++ [k]) (hold : ∀ q ∈ db.collections.rows, q.id ≠ k.id) :
    db₁.otherLabels k.id = db.labels := by
  rw [otherLabels, labels, labels, hrows, List.map_append, List.filter_append, List.filter_eq_self.mpr, List.map_singleton,
    List.filter_eq_nil_iff.mpr, List.append_nil]
  · intro l hl
    rw [List.mem_singleton.mp hl, decide_eq_true_eq, not_not]
    rfl
  · intro l hl
    obtain ⟨q, hq, rfl⟩ := List.mem_map.mp hl
    exact decide_eq_true (hold q hq)

/-- The name after the id is refused when another collection has it. -/
theorem valid_named {db₁ : Database} {k : Collection} (hrows : db₁.collections.rows = db.collections.rows ++ [k])
    (hold : ∀ q ∈ db.collections.rows, q.id ≠ k.id) {u : User} (huser : k.userId = some u.id) :
    db₁.collectionValid { k with name := untitledName (toS k.id) } = true ↔
      Unused db.labels (untitledName (toS k.id)) := by
  have hblank : blank (untitledName (toS k.id)) = false := rfl
  rw [collectionValid, huser, hblank, hrows, List.all_append, Unused, labels, List.forall_mem_map]
  simp only [Option.isSome_some, Bool.not_false, Bool.true_and, List.all_cons, beq_self_eq_true, Bool.true_or,
    List.all_nil, Bool.and_true, List.all_eq_true, Bool.or_eq_true, beq_iff_eq, bne_iff_ne]
  exact forall₂_congr fun q hq => or_iff_right (hold q hq)

/-- The collection that keeps its provisional name joins the others. -/
theorem joins_provisional {name : Text} (hname : ¬ Unused db.labels (untitledName name)) (now : Nat) :
    Joins db.labels ⟨db.collections.next, untitledName (intToS (untitledCount db)), now⟩ ↔
      ∀ t ∈ db.labels, Last db.labels t → t.updatedAt ≤ now ∧ Unused db.labels (follower (follower t.name)) := by
  obtain ⟨l, hl, hlname⟩ : ∃ l ∈ db.labels, l.name = untitledName name := by
    simpa [Unused] using hname
  rcases db.provisional_cases with hnone | ⟨t, ht, hlast, honly, hcount⟩
  · have huntitled := hnone l hl
    rw [show l = ⟨l.id, l.name, l.updatedAt⟩ from rfl, hlname, untitled_untitledName] at huntitled
    cases huntitled
  · have hbound : ∀ l ∈ db.labels, l.id < db.collections.next := by
      intro l hl
      obtain ⟨q, hq, rfl⟩ := List.mem_map.mp hl
      exact (db.collections.bound q hq).2
    rw [hcount, joins_follower ht hlast honly hbound]
    constructor
    · intro h t' ht' hlast'
      rw [honly t' ht' hlast']
      exact h
    · intro h
      exact h t ht hlast

theorem nameFree_create (h : db.NameFree) (u : User) (now : Nat) (params : List CollectionAttr) :
    (create u now params db).2.NameFree ↔ (NameRequest.create u now params).LeavesFree db := by
  obtain ⟨hvalid, -⟩ := create_ok h u now params
  have hid : (newCollection u now params db).id = db.collections.next := rfl
  have hname : (newCollection u now params db).name = untitledName (intToS (untitledCount db)) := rfl
  have htime : (newCollection u now params db).updatedAt = now := rfl
  have huser : (newCollection u now params db).userId = some u.id := rfl
  unfold create
  dsimp only
  rw [hvalid, Bool.not_true, if_neg Bool.false_ne_true]
  have hrows : (db.insertCollection (newCollection u now params db)).collections.rows =
      db.collections.rows ++ [newCollection u now params db] := rfl
  generalize newCollection u now params db = k at *
  generalize db.insertCollection k = db₁ at hrows ⊢
  have hold : ∀ q ∈ db.collections.rows, q.id ≠ k.id := by
    intro q hq
    have hbound : q.id < db.collections.next := (db.collections.bound q hq).2
    omega
  have hmem : k ∈ db₁.collections.rows := by
    rw [hrows]
    exact List.mem_append_right _ List.mem_cons_self
  have hfound : db₁.collections.find? k.id = some k := Table.find?_of_mem hmem
  -- the row is saved under the counted name, then renamed to its id
  have hrewrites := (Rewrites.refl hfound).update now
    (f := fun k => { k with name := untitledName (toS k.id) }) (by intro _; rfl) ⟨k, hmem, rfl⟩
  rw [nameFree_rewrites hrewrites ⟨k, hmem, rfl⟩, otherLabels_append hrows hold]
  have hunused := valid_named hrows hold huser
  unfold NameRequest.LeavesFree
  dsimp only
  rw [hid] at hunused
  by_cases hfree : Unused db.labels (untitledName (toS db.collections.next))
  · have hlabel : (db₁.updatedRow now (fun k => { k with name := untitledName (toS k.id) }) k).label =
        ⟨db.collections.next, untitledName (toS db.collections.next), now⟩ := by
      rw [updatedRow, hid, hunused.mpr hfree, Bool.not_true, Bool.false_or, ← hid]
      split
      · rename_i hsame
        have hname' := congrArg Collection.name (of_decide_eq_true hsame)
        rw [Collection.label, htime, ← hname']
      · rfl
    rw [if_pos hfree, hlabel]
  · have hlabel : (db₁.updatedRow now (fun k => { k with name := untitledName (toS k.id) }) k).label =
        ⟨db.collections.next, untitledName (intToS (untitledCount db)), now⟩ := by
      rw [updatedRow, hid, Bool.eq_false_of_not_eq_true fun hv => hfree (hunused.mp hv), Bool.not_false,
        Bool.true_or, if_pos rfl, Collection.label, hid, hname, htime]
    -- the rename is refused, and the counted name stays
    rw [if_neg hfree, hlabel]
    exact joins_provisional hfree now

theorem announced_createActivity {c i : Nat} (hc : c ≠ i) {key : Text} {owner recipient : Option Nat} :
    Announced (db.createActivity .collectify c key owner recipient) i ↔ Announced db i := by
  have hnew : (some c == some i) = false := beq_eq_false_iff_ne.mpr fun h => hc (Option.some.inj h)
  unfold Announced Database.createActivity
  rw [Table.rows_insert, List.any_append, List.any_cons, hnew, Bool.and_false, List.any_nil, Bool.or_false,
    Bool.or_false]

/-- Only the membership itself is announced. -/
theorem announced_announceMembership {u : User} {owner : Option User} {c : Collectify} {project : Project} {i : Nat}
    (hc : c.id ≠ i) : Announced (announceMembership u owner c project db) i ↔ Announced db i := by
  unfold announceMembership
  generalize db.projectUsers project.id = rs
  induction rs generalizing db with
  | nil => exact Iff.rfl
  | cons r rs ih =>
    rw [List.foldl_cons, ih]
    split
    · exact (announced_createActivity hc).trans (announced_createActivity hc)
    · exact announced_createActivity hc

theorem announceMemberships_done {u : User} {owner : Option User} {cs : List Collectify} (hcs : (cs.map Collectify.id).Nodup) :
    (announceMemberships u owner cs db).1 = true ↔ ∀ c ∈ cs, Announced db c.id ∨ db.projects.find? c.projectId ≠ none := by
  induction cs generalizing db with
  | nil => exact iff_of_true rfl fun _ hc => absurd hc List.not_mem_nil
  | cons c cs ih =>
    rw [List.map_cons, List.nodup_cons] at hcs
    rw [announceMemberships, List.forall_mem_cons]
    by_cases hannounced : Announced db c.id
    · rw [if_pos (by exact hannounced), ih hcs.2]
      exact (and_iff_right (Or.inl hannounced)).symm
    · rw [if_neg (by exact hannounced)]
      cases hproject : db.projects.find? c.projectId with
      | none =>
        refine iff_of_false Bool.false_ne_true ?_
        rintro ⟨h | h, -⟩
        · exact hannounced h
        · exact h rfl
      | some project =>
        dsimp only
        rw [ih hcs.2]
        have hprojects : (announceMembership u owner c project db).projects = db.projects :=
          touches_announceMembership u owner c project db .projects (by decide)
        refine Iff.trans ?_ (and_iff_right (Or.inr (Option.some_ne_none project))).symm
        apply forall₂_congr
        intro c' hc'
        have hne : c.id ≠ c'.id := fun h => hcs.1 (h ▸ List.mem_map_of_mem hc')
        rw [hprojects, announced_announceMembership hne]

theorem announceable_congr {db' : Database} {i : Nat} (hcollectifies : db'.collectifies = db.collectifies)
    (hprojects : db'.projects = db.projects) (hannounced : ∀ c, Announced db' c ↔ Announced db c) :
    Announceable db' i ↔ Announceable db i := by
  unfold Announceable memberships
  simp only [hcollectifies, hprojects, hannounced]

/-- The first publication comes to its end if the activities can be made; it writes the privacy. -/
theorem publishFirst_rewrites {db₁ : Database} (u : User) (now : Nat) {i : Nat} {k₁ saved : Collection}
    (h₁ : Rewrites i k₁ db db₁) (hi : ∃ r ∈ db.collections.rows, r.id = i) (hvalid₁ : db.collectionValid k₁ = true)
    (hid : saved.id = i) (hprivacy : k₁.privacy = saved.privacy) :
    ((publishFirst u now saved db₁).1 = true ↔ db₁.Announceable i) ∧
      ∃ k₂, Rewrites i k₂ db (publishFirst u now saved db₁).2 ∧ db.collectionValid k₂ = true ∧
        k₂.name = k₁.name ∧ k₂.published = k₁.published ∧
        k₂.updatedAt = if saved.privacy = some "unlisted".toList then now else k₁.updatedAt := by
  -- an unlisted collection is made public first
  obtain ⟨db₂, hdb₂⟩ : ∃ db₂, db₂ = if saved.privacy = some "unlisted".toList then
      db₁.updateCollection (some now) i fun k => { k with privacy := some "public".toList } else db₁ := ⟨_, rfl⟩
  have hsame : db₂.collectifies = db₁.collectifies ∧ db₂.projects = db₁.projects ∧ db₂.activities = db₁.activities := by
    rw [hdb₂]
    split
    · have htouches := touches_updateCollection db₁ (some now) i
        fun k => { k with privacy := some "public".toList }
      exact ⟨collectifies_updateCollection _ _ _ _, htouches .projects (by decide), htouches .activities (by decide)⟩
    · exact ⟨rfl, rfl, rfl⟩
  have hwritten : ∃ k₂, Rewrites i k₂ db db₂ ∧ db.collectionValid k₂ = true ∧ k₂.name = k₁.name ∧
      k₂.published = k₁.published ∧
      k₂.updatedAt = if saved.privacy = some "unlisted".toList then now else k₁.updatedAt := by
    rw [hdb₂]
    by_cases hunlisted : saved.privacy = some "unlisted".toList
    · rw [if_pos hunlisted, if_pos hunlisted]
      obtain ⟨k₂, h₂, hvalid₂, hname₂, hpublished₂, -, htime₂⟩ := h₁.write now
        (f := fun k => { k with privacy := some "public".toList }) (by intro _; rfl) hi hvalid₁
      refine ⟨k₂, h₂, hvalid₂, hname₂, hpublished₂, htime₂.trans (if_pos ?_)⟩
      intro h
      have hpublic : some "public".toList = k₁.privacy := congrArg Collection.privacy h
      rw [hprivacy, hunlisted] at hpublic
      exact absurd hpublic (by decide)
    · rw [if_neg hunlisted, if_neg hunlisted]
      exact ⟨k₁, h₁, hvalid₁, rfl, rfl, rfl⟩
  obtain ⟨k₂, h₂, hrest⟩ := hwritten
  unfold publishFirst
  dsimp only
  rw [hid, ← hdb₂]
  -- the activity about the collection itself is none about a membership
  generalize hdb₃ : db₂.createActivity .collection i "collection.create".toList (some u.id) none = db₃
  have hactivity : ∀ c, Announced db₃ c ↔ Announced db₁ c := by
    intro c
    have hother : (some Trackable.collection == some Trackable.collectify) = false := by decide
    rw [← hdb₃, Announced, Announced, createActivity, Table.rows_insert, List.any_append, List.any_cons, hother,
      Bool.false_and, List.any_nil, Bool.or_false, Bool.or_false, hsame.2.2]
  have hcollectifies : db₃.collectifies = db₁.collectifies := by rw [← hdb₃, ← hsame.1]; rfl
  have hprojects : db₃.projects = db₁.projects := by rw [← hdb₃, ← hsame.2.1]; rfl
  have hcollections : db₃.collections = db₂.collections := by rw [← hdb₃]; rfl
  have hannounce := touches_announceMemberships u (db₃.collectionUser saved) (db₃.memberships i) db₃
  constructor
  · have hids : ((db₃.memberships i).map Collectify.id).Nodup :=
      db₃.collectifies.nodup.sublist (List.filter_sublist.map key)
    rw [announceMemberships_done hids]
    exact announceable_congr hcollectifies hprojects hactivity
  · exact ⟨k₂, h₂.of_collections ((hannounce .collections (by decide) : _ = _).trans hcollections), hrest⟩

/-- What follows the update of a collection that has a public project: the first publication, and the flag. -/
theorem published_rewrites {db₁ : Database} (u : User) (now : Nat) {i : Nat} {k₁ saved : Collection}
    (h₁ : Rewrites i k₁ db db₁) (hi : ∃ r ∈ db.collections.rows, r.id = i) (hvalid₁ : db.collectionValid k₁ = true)
    (hid : saved.id = i) (hpublished : k₁.published = saved.published) (hprivacy : k₁.privacy = saved.privacy) :
    let r := if saved.published = some false then publishFirst u now saved db₁ else (true, db₁)
    ∃ k', Rewrites i k' db (if r.1 = true then
        r.2.updateCollection (some now) i fun k => { k with published := some true } else r.2) ∧
      k'.name = k₁.name ∧ k'.updatedAt = if saved.published = none ∨ saved.published = some false ∧
        (saved.privacy = some "unlisted".toList ∨ db₁.Announceable i) then now else k₁.updatedAt := by
  dsimp only
  by_cases hfirst : saved.published = some false
  · rw [if_pos hfirst]
    obtain ⟨hdone, k₂, h₂, hvalid₂, hname₂, hpublished₂, htime₂⟩ :=
      publishFirst_rewrites u now h₁ hi hvalid₁ hid hprivacy
    generalize publishFirst u now saved db₁ = r at hdone h₂ ⊢
    by_cases hdone' : r.1 = true
    · rw [if_pos hdone']
      obtain ⟨k₃, h₃, hname₃, htime₃⟩ := h₂.publish now hi hvalid₂
      refine ⟨k₃, h₃, hname₃.trans hname₂, ?_⟩
      rw [htime₃, if_pos (by rw [hpublished₂, hpublished, hfirst]; decide)]
      exact (if_pos (Or.inr ⟨hfirst, Or.inr (hdone.mp hdone')⟩)).symm
    · -- the loop over the memberships has raised
      rw [if_neg hdone']
      refine ⟨k₂, h₂, hname₂, htime₂.trans (if_congr ?_ rfl rfl)⟩
      rw [hfirst, or_iff_left fun h => hdone' (hdone.mpr h)]
      simp
  · rw [if_neg hfirst, if_pos rfl]
    obtain ⟨k₃, h₃, hname₃, htime₃⟩ := h₁.publish now hi hvalid₁
    refine ⟨k₃, h₃, hname₃, htime₃.trans (if_congr ?_ rfl rfl)⟩
    rw [hpublished]
    rcases hval : saved.published with _ | b
    · simp
    · cases b with
      | true => simp
      | false => exact absurd hval hfirst

/-- The row of an update that is allowed and valid. -/
theorem update_rewrites {u : User} (now : Nat) {i : Nat} {params : List CollectionAttr} {k : Collection}
    (hk : db.collections.find? i = some k) (huser : k.userId = some u.id)
    (hvalid : db.collectionValid (CollectionAttr.record params k) = true) :
    ∃ k', Rewrites i k' db (update u now i params db).2 ∧ k'.name = (CollectionAttr.record params k).name ∧
      k'.updatedAt = if db.UpdateStamps k (CollectionAttr.record params k) then now else k.updatedAt := by
  obtain ⟨hkmem, hki⟩ := Table.find?_eq_some.mp hk
  have hki : k.id = i := hki
  have hi : ∃ r ∈ db.collections.rows, r.id = i := ⟨k, hkmem, hki⟩
  have hallowed : Ability.updateCollection u k = true := by rw [Ability.updateCollection, huser, beq_self_eq_true]
  unfold update
  rw [hk]
  dsimp only
  rw [hallowed, authorize, hvalid, Bool.not_true, if_neg Bool.false_ne_true]
  -- the submitted values
  obtain ⟨k₁, h₁, hvalid₁, hname₁, hpublished₁, hprivacy₁, htime₁⟩ := (Rewrites.refl hk).write now
    (fun k => (record_id params k).1) hi hvalid
  have hcs := collectifies_updateCollection db (some now) i (CollectionAttr.record params)
  have htouches := touches_updateCollection db (some now) i (CollectionAttr.record params)
  have hid : (CollectionAttr.record params k).id = i := (record_id params k).1.trans hki
  generalize db.updateCollection (some now) i (CollectionAttr.record params) = db₁ at *
  generalize CollectionAttr.record params k = saved at *
  have hps : db₁.projects = db.projects := htouches .projects (by decide)
  have has : db₁.activities = db.activities := htouches .activities (by decide)
  have hshown : db₁.collectionPublished saved = db.collectionPublished saved :=
    collectionPublished_congr_face hps hcs rfl rfl
  rw [hshown]
  by_cases hpub : db.collectionPublished saved = true
  · obtain ⟨k₂, h₂, hname₂, htime₂⟩ := published_rewrites u now h₁ hi hvalid₁ hid hpublished₁ hprivacy₁
    have hannounceable : db₁.Announceable i ↔ db.Announceable i :=
      announceable_congr hcs hps fun c => by rw [Announced, Announced, has]
    rw [if_pos hpub, apply_ite Prod.snd]
    refine ⟨k₂, h₂, hname₂.trans hname₁, ?_⟩
    rw [htime₂, htime₁, ite_or_time]
    refine if_congr ?_ rfl rfl
    rw [UpdateStamps, and_iff_right hpub, hannounceable, hki]
  · have hforget := touches_forgetCollection db₁ i
    rw [if_neg hpub]
    refine ⟨k₁, h₁.of_collections (hforget .collections (by decide)), hname₁, ?_⟩
    rw [htime₁]
    refine if_congr ?_ rfl rfl
    rw [UpdateStamps, or_iff_left fun h => hpub h.1]

theorem nameFree_update (h : db.NameFree) (u : User) (now i : Nat) (params : List CollectionAttr) :
    (update u now i params db).2.NameFree ↔ (NameRequest.update u now i params).LeavesFree db := by
  unfold NameRequest.LeavesFree
  dsimp only
  cases hk : db.collections.find? i with
  | none =>
    refine iff_of_true ?_ fun _ hk => by cases hk
    unfold update
    rw [hk]
    exact h
  | some k =>
    obtain ⟨hkmem, hki⟩ := Table.find?_eq_some.mp hk
    simp only [Option.mem_def, Option.some.injEq, forall_eq']
    by_cases huser : k.userId = some u.id
    · by_cases hvalid : db.collectionValid (CollectionAttr.record params k) = true
      · obtain ⟨k', hrewrites, hname, htime⟩ := update_rewrites now hk huser hvalid
        rw [nameFree_rewrites hrewrites ⟨k, hkmem, hki⟩, Collection.label, hrewrites.id, hname, htime]
        exact ⟨fun hjoins _ _ => hjoins, fun hjoins => hjoins huser hvalid⟩
      · refine iff_of_true ?_ fun _ hv => absurd hv hvalid
        have hallowed : Ability.updateCollection u k = true := by
          rw [Ability.updateCollection, huser, beq_self_eq_true]
        unfold update
        rw [hk]
        dsimp only
        rw [hallowed, authorize, Bool.eq_false_of_not_eq_true hvalid, Bool.not_false, if_pos rfl]
        exact h
    · refine iff_of_true ?_ fun hu => absurd hu huser
      have hdenied : Ability.updateCollection u k = false := by
        rw [Ability.updateCollection, beq_eq_false_iff_ne]
        exact huser
      unfold update
      rw [hk]
      dsimp only
      rw [hdenied]
      exact h

theorem announceProject_done (db : Database) (u : User) (k : Collection) (c : Nat) (project : Project) :
    (announceProject u k c project db).1 = true ↔ db.collectionUser k ≠ none := by
  unfold announceProject
  cases howner : db.collectionUser k with
  | none => simp
  | some owner =>
    dsimp only
    split <;> simp

theorem showFirst_user (db : Database) (u : User) (now i : Nat) (k : Collection) :
    (if k.published = some false then
      (db.createActivity .collection i "collection.create".toList (some u.id) none).updateCollection (some now) i
        fun k => { k with privacy := some "public".toList } else db).collectionUser k = db.collectionUser k := by
  split
  · rw [collectionUser, (touches_updateCollection _ (some now) i _ .users (by decide) : _ = _)]
    rfl
  · rfl

/-- A collection that gets its first public project is made public, if it is valid. -/
theorem showFirst_rewrites (u : User) (now : Nat) {i : Nat} {k : Collection} (hk : db.collections.find? i = some k) :
    ∃ k', Rewrites i k' db (if k.published = some false then
        (db.createActivity .collection i "collection.create".toList (some u.id) none).updateCollection (some now) i
          fun k => { k with privacy := some "public".toList } else db) ∧
      k'.name = k.name ∧ k'.updatedAt =
        if k.published = some false ∧ k.privacy ≠ some "public".toList ∧ db.collectionValid k = true then now
        else k.updatedAt := by
  have hrefl := Rewrites.refl hk
  by_cases hfirst : k.published = some false
  · obtain ⟨hkmem, hki⟩ := Table.find?_eq_some.mp hk
    have hactivity : Rewrites i k db
        (db.createActivity .collection i "collection.create".toList (some u.id) none) := ⟨hki, hrefl.rows⟩
    have hupdate := hactivity.update now (f := fun k => { k with privacy := some "public".toList })
      (by intro _; rfl) ⟨k, hkmem, hki⟩
    rw [if_pos hfirst]
    refine ⟨_, hupdate, ?_⟩
    have hvalid : (db.createActivity .collection i "collection.create".toList (some u.id) none).collectionValid
        { k with privacy := some "public".toList } = db.collectionValid k := rfl
    have hsame : ({ k with privacy := some "public".toList } : Collection) = k ↔
        k.privacy = some "public".toList :=
      ⟨fun h => (congrArg Collection.privacy h).symm, fun h => by rw [← h]⟩
    have hskip : (!db.collectionValid k || decide ({ k with privacy := some "public".toList } = k)) = true ↔
        ¬ (k.privacy ≠ some "public".toList ∧ db.collectionValid k = true) := by
      rw [Bool.or_eq_true, Bool.not_eq_true', decide_eq_true_eq, hsame, not_and_or, not_not, or_comm,
        Bool.not_eq_true]
    rw [updatedRow, hvalid]
    by_cases hwrite : k.privacy ≠ some "public".toList ∧ db.collectionValid k = true
    · rw [if_neg fun h => hskip.mp h hwrite, if_pos ⟨hfirst, hwrite⟩]
      exact ⟨rfl, rfl⟩
    · rw [if_pos (hskip.mpr hwrite), if_neg fun h => hwrite h.2]
      exact ⟨rfl, rfl⟩
  · rw [if_neg hfirst, if_neg fun h => hfirst h.1]
    exact ⟨k, hrefl, rfl, rfl⟩

/-- The row of the collection after a project was added, or half added. -/
theorem afterAdd_rewrites (u : User) (now c : Nat) (project : Project) {i : Nat} {k : Collection}
    (hk : db.collections.find? i = some k) :
    ∃ k', Rewrites i k' db (afterAdd u now k c project db).2 ∧ k'.name = k.name ∧
      k'.updatedAt = if db.AddStamps k then now else k.updatedAt := by
  obtain ⟨hkmem, hki⟩ := Table.find?_eq_some.mp hk
  have hid : k.id = i := hki
  have hi : ∃ r ∈ db.collections.rows, r.id = i := ⟨k, hkmem, hki⟩
  have hrefl := Rewrites.refl hk
  unfold afterAdd
  by_cases hpub : db.collectionPublished k = true
  · rw [if_pos hpub]
    dsimp only
    rw [hid]
    obtain ⟨k₂, h₂, hname₂, htime₂⟩ := showFirst_rewrites u now hk
    have husers := showFirst_user db u now i k
    generalize (if k.published = some false then
      (db.createActivity .collection i "collection.create".toList (some u.id) none).updateCollection (some now) i
        fun k => { k with privacy := some "public".toList } else db) = db₂ at *
    have hdone := announceProject_done db₂ u k c project
    have hannounce := touches_announceProject u k c project db₂
    rw [husers] at hdone
    generalize announceProject u k c project db₂ = r at hdone hannounce ⊢
    have h₃ := h₂.of_collections (hannounce .collections (by decide) : r.2.collections = _)
    -- without an owner the news cannot be told, and the request ends before the stamp
    by_cases howner : db.collectionUser k = none
    · rw [if_neg fun hr => hdone.mp hr howner]
      refine ⟨k₂, h₃, hname₂, htime₂.trans (if_congr ?_ rfl rfl)⟩
      exact ⟨fun h _ _ => h, fun h => h hpub howner⟩
    · rw [if_pos (hdone.mpr howner)]
      have h₄ := (h₃.update now (f := fun k => { k with published := some true }) (by intro _; rfl)
        hi).touch now
      refine ⟨_, h₄, ?_, (if_pos fun _ hnone => absurd hnone howner).symm⟩
      show (r.2.updatedRow now _ k₂).name = k.name
      rw [updatedRow, ← hname₂]
      split <;> rfl
  · rw [if_neg hpub, hid]
    refine ⟨_, hrefl.touch now, rfl, ?_⟩
    exact (if_pos fun h => absurd h hpub).symm

theorem nameFree_addProject (h : db.NameFree) (u : User) (now i : Nat) (p : Option Nat) :
    (addProject u now i p db).2.NameFree ↔ (NameRequest.addProject u now i p).LeavesFree db := by
  unfold NameRequest.LeavesFree
  dsimp only
  rcases addProject_cases u now i p db with ⟨hsame, hthere⟩ | ⟨k, project, hk, hproject, hnot, hadded⟩
  · rw [hsame]
    refine iff_of_true h fun k hk project hp hc => ?_
    obtain ⟨c, hmem, hcp⟩ := hthere k project hk hp
    exact absurd (beq_iff_eq.mpr hcp) (List.any_eq_false.mp hc c hmem)
  · have hnone : ((db.memberships i).any fun c => c.projectId == project.id) = false := by
      rw [List.any_eq_false]
      exact fun c hc => by simpa using hnot c hc
    obtain ⟨hkmem, hki⟩ := Table.find?_eq_some.mp hk
    have hk' : (db.insertCollectify i project.id).collections.find? i = some k := hk
    obtain ⟨k', hrewrites, hname, htime⟩ := afterAdd_rewrites u now db.collectifies.next project hk'
    have hrewrites' : Rewrites i k' db
        (afterAdd u now k db.collectifies.next project (db.insertCollectify i project.id)).2 :=
      ⟨hrewrites.id, hrewrites.rows⟩
    rw [hadded, nameFree_rewrites hrewrites' ⟨k, hkmem, hki⟩, Collection.label, hrewrites.id, hname, htime, hk,
      hproject]
    simp only [Option.mem_def, Option.some.injEq, forall_eq', hnone, true_implies]

theorem nameFree_destroy (h : db.NameFree) (u : User) (i : Nat) :
    (destroy u i db).2.NameFree ↔ (NameRequest.destroy u i).LeavesFree db := by
  unfold NameRequest.LeavesFree destroy
  dsimp only
  cases hk : db.collections.find? i with
  | none => exact iff_of_true h fun _ hk => by cases hk
  | some k =>
    simp only [Option.mem_def, Option.some.injEq, forall_eq']
    by_cases huser : k.userId = some u.id
    · have hallowed : Ability.destroyCollection u k = true := by
        rw [Ability.destroyCollection, huser, beq_self_eq_true]
      rw [hallowed, authorize, nameFree_iff]
      have hlabels : Database.labels { forgetCollection db i with
          collections := (forgetCollection db i).collections.filter (·.id ≠ i)
          collectifies := (forgetCollection db i).collectifies.filter (·.collectionId ≠ i) } = db.otherLabels i := by
        have hforget := touches_forgetCollection db i
        rw [labels, otherLabels, labels, Table.rows_filter, (hforget .collections (by decide) : _ = _), List.filter_map]
        rfl
      rw [hlabels]
      exact ⟨fun hfree _ => hfree, fun hfree => hfree huser⟩
    · have hdenied : Ability.destroyCollection u k = false := by
        rw [Ability.destroyCollection, beq_eq_false_iff_ne]
        exact huser
      rw [hdenied]
      exact iff_of_true h fun hu => absurd hu huser

end CollectionsController

/-- In every state of a run a collection can be made exactly if every request leaves the name free. -/
theorem collection_creatable_iff {db : Database} (h : db.NameFree) (rs : List NameRequest) :
    (∀ n, (Run.after NameRequest.perform db (rs.take n)).NameFree ∧ ∀ u now params,
      (CollectionsController.create u now params (Run.after NameRequest.perform db (rs.take n))).1 = .ok) ↔
      Run.Along NameRequest.perform (fun db r => r.LeavesFree db) db rs := by
  have hstep : ∀ (db : Database) (r : NameRequest), True → db.NameFree → True →
      (r.LeavesFree db ↔ (r.perform db).NameFree) := by
    intro db r _ h _
    cases r with
    | create u now params => exact (CollectionsController.nameFree_create h u now params).symm
    | update u now i params => exact (CollectionsController.nameFree_update h u now i params).symm
    | addProject u now i p => exact (CollectionsController.nameFree_addProject h u now i p).symm
    | destroy u i => exact (CollectionsController.nameFree_destroy h u i).symm
  rw [← Run.along_iff_forall_take (fun _ _ _ _ => trivial) hstep trivial h (Run.Along.of_forall fun _ _ => trivial)]
  apply forall_congr'
  intro n
  exact and_iff_left_of_imp fun hfree u now params => (CollectionsController.create_ok hfree u now params).2

instance (db : Database) : Decidable db.NameFree :=
  inferInstanceAs (Decidable (∀ k ∈ db.collections.rows, k.name ≠ _))

/-- A collection is made and named, the next is made and gets a project. -/
theorem collection_creatable_named : (Database.oneProject "Lamp".toList none).NameFree ∧
    ∀ n, (Run.after NameRequest.perform (Database.oneProject "Lamp".toList none) (List.take n [
      .create ada 1 [], .update ada 2 1 [.name "Robots".toList], .create ada 3 [], .addProject ada 4 2 (some 1)])).NameFree :=
  ⟨by decide +kernel, fun n => ((collection_creatable_iff (by decide +kernel) _).mpr (by decide +kernel) n).1⟩

/-- Two collections keep their first names, and the older one gets a project. -/
theorem collection_not_creatable :
    let db := Run.after NameRequest.perform (Database.oneProject "Lamp".toList none)
      [.create ada 1 [], .create ada 2 [], .addProject ada 3 1 (some 1)]
    (Database.oneProject "Lamp".toList none).collections.rows = [] ∧ ¬ db.NameFree ∧
      (CollectionsController.create ada 4 [] db).1 = .invalid := by
  decide +kernel
