import BuildInProgress.Lib.Chain
import BuildInProgress.MediaRows

/-!
# The cascade of a deleted image

`:dependent => :destroy` on the remixes of an image reaches everything that was remixed from it, at any
remove.  Whatever the references between the rows are, a deletion takes exactly these images, and a
sequence of deletions takes what the single ones would have taken.
-/

open Text Ancestry

namespace Database

/-- Image `j` is image `i`, or was remixed from it, directly or through other remixes. -/
inductive RemixedFrom (db : Database) (i : Nat) : Nat → Prop where
  | self : RemixedFrom db i i
  | copy {j : Nat} {x : Image} (hx : x ∈ db.images.rows) (ho : x.originalId = some j)
      (h : RemixedFrom db i j) : RemixedFrom db i x.id

theorem RemixedFrom.trans {db : Database} {i j k : Nat} (h : db.RemixedFrom i j) (h' : db.RemixedFrom j k) :
    db.RemixedFrom i k := by
  induction h' with
  | self => exact h
  | copy hx ho _ ih => exact .copy hx ho ih

-- the first step away from the original
theorem remixedFrom_cases {db : Database} {i j : Nat} (h : db.RemixedFrom i j) :
    j = i ∨ ∃ x ∈ db.images.rows, x.originalId = some i ∧ db.RemixedFrom x.id j := by
  induction h with
  | self => exact Or.inl rfl
  | copy hx ho _ ih =>
    rcases ih with rfl | ⟨y, hy, hoy, hrest⟩
    · exact Or.inr ⟨_, hx, ho, .self⟩
    · exact Or.inr ⟨y, hy, hoy, .copy hx ho hrest⟩

theorem remixedFrom_of_mem {db : Database} {n i j : Nat} (h : j ∈ db.remixImages n i) :
    db.RemixedFrom i j := by
  induction n generalizing i with
  | zero =>
    rw [List.mem_singleton.mp h]
    exact .self
  | succ n ih =>
    rcases List.mem_cons.mp h with rfl | h
    · exact .self
    · obtain ⟨k, hk, hj⟩ := List.mem_flatMap.mp h
      obtain ⟨x, hx, rfl⟩ := List.mem_map.mp hk
      rw [List.mem_filter, decide_eq_true_eq] at hx
      exact (RemixedFrom.copy hx.1 hx.2 .self).trans (ih hj)

/-- Every image and video of `db'` is one of `db`, up to places within a step. -/
def MediaOf (db db' : Database) : Prop :=
  (∀ x' ∈ db'.images.rows, ∃ x ∈ db.images.rows,
    x.id = x'.id ∧ x.projectId = x'.projectId ∧ x.originalId = x'.originalId ∧ x.stepId = x'.stepId) ∧
    ∀ v ∈ db'.videos.rows, v ∈ db.videos.rows

namespace MediaOf

variable {db db' db'' : Database}

theorem refl (db : Database) : MediaOf db db := ⟨fun x hx => ⟨x, hx, rfl, rfl, rfl, rfl⟩, fun _ hv => hv⟩

theorem trans (h : MediaOf db db') (h' : MediaOf db' db'') : MediaOf db db'' := by
  refine ⟨fun x'' hx'' => ?_, fun v hv => h.2 v (h'.2 v hv)⟩
  obtain ⟨x', hx', hid', hp', ho', hs'⟩ := h'.1 x'' hx''
  obtain ⟨x, hx, hid, hp, ho, hs⟩ := h.1 x' hx'
  exact ⟨x, hx, hid.trans hid', hp.trans hp', ho.trans ho', hs.trans hs'⟩

theorem of_sublist (himages : ∀ x ∈ db'.images.rows, x ∈ db.images.rows)
    (hvideos : ∀ v ∈ db'.videos.rows, v ∈ db.videos.rows) : MediaOf db db' :=
  ⟨fun x hx => ⟨x, himages x hx, rfl, rfl, rfl, rfl⟩, hvideos⟩

theorem remixedFrom (h : MediaOf db db') {i j : Nat} (hr : db'.RemixedFrom i j) : db.RemixedFrom i j := by
  induction hr with
  | self => exact .self
  | copy hx ho _ ih =>
    obtain ⟨x, hx, hid, -, ho', -⟩ := h.1 _ hx
    rw [← hid]
    exact .copy hx (ho'.trans ho) ih

theorem filterVideos (db : Database) (p : Video → Bool) :
    MediaOf db { db with videos := db.videos.filter p } :=
  of_sublist (fun _ hx => hx) fun _ hv => List.mem_of_mem_filter hv

theorem destroyImageVideo (db : Database) (i : Nat) : MediaOf db (db.destroyImageVideo i) := by
  unfold Database.destroyImageVideo
  split
  · exact refl db
  · exact filterVideos db _

theorem foldl {α : Type} {f : Database → α → Database} (hf : ∀ db a, MediaOf db (f db a)) (l : List α)
    (db : Database) : MediaOf db (l.foldl f db) := by
  induction l generalizing db with
  | nil => exact refl db
  | cons a l ih => exact (hf db a).trans (ih (f db a))

theorem destroyImage (db : Database) (i : Nat) : MediaOf db (db.destroyImage i) :=
  (foldl destroyImageVideo _ db).trans
    (of_sublist (fun _ hx => List.mem_of_mem_filter hx) fun _ hv => hv)

end MediaOf

/-! ## Which images go -/

/-- The image an image was remixed from. -/
def originalIdOf (db : Database) (j : Nat) : Option Nat := (db.images.find? j).bind Image.originalId

theorem climb_of_remixedFrom {db : Database} {i j : Nat} (h : db.RemixedFrom i j) :
    ∃ n, Chain.climb db.originalIdOf n j = some i := by
  induction h with
  | self => exact ⟨0, rfl⟩
  | copy hx ho _ ih =>
    rename_i k x _
    obtain ⟨n, hn⟩ := ih
    refine ⟨1 + n, ?_⟩
    have hfind : db.images.find? x.id = some x := Table.find?_of_mem hx
    have hone : Chain.climb db.originalIdOf 1 x.id = some k := by
      show db.originalIdOf x.id = some k
      rw [originalIdOf, hfind]
      exact ho
    rw [Chain.climb_add, hone]
    exact hn

-- a chain of length at most `n` is found at depth `n`
theorem mem_remixImages_of_climb {db : Database} {k n i j : Nat} (hk : k ≤ n)
    (h : Chain.climb db.originalIdOf k j = some i) : j ∈ db.remixImages n i := by
  induction k generalizing n i with
  | zero =>
    cases h
    cases n with
    | zero => exact List.mem_singleton_self _
    | succ n => exact List.mem_cons_self
  | succ k ih =>
    obtain ⟨c, hc, hup⟩ := Option.bind_eq_some_iff.mp h
    obtain ⟨x, hx, ho⟩ := Option.bind_eq_some_iff.mp hup
    obtain ⟨hmem, hid⟩ := Table.find?_eq_some.mp hx
    have hxc : x.id = c := hid
    obtain ⟨n, rfl⟩ := Nat.exists_eq_add_of_lt (Nat.lt_of_lt_of_le (Nat.succ_pos k) hk)
    rw [Nat.zero_add, remixImages]
    apply List.mem_cons_of_mem
    rw [List.mem_flatMap]
    refine ⟨c, ?_, ih (by omega) hc⟩
    rw [← hxc]
    exact List.mem_map_of_mem (List.mem_filter.mpr ⟨hmem, decide_eq_true ho⟩)

/-- The depth of the search is enough. -/
theorem mem_remixImages_iff {db : Database} {i j : Nat} :
    j ∈ db.remixImages db.images.rows.length i ↔ db.RemixedFrom i j := by
  constructor
  · exact remixedFrom_of_mem
  · intro h
    obtain ⟨n, hn⟩ := climb_of_remixedFrom h
    have hrows : ∀ k, (db.originalIdOf k).isSome = true → k ∈ db.images.rows.map Image.id := by
      intro k hk
      obtain ⟨o, ho⟩ := Option.isSome_iff_exists.mp hk
      obtain ⟨x, hx, -⟩ := Option.bind_eq_some_iff.mp ho
      obtain ⟨hmem, hid⟩ := Table.find?_eq_some.mp hx
      exact List.mem_map.mpr ⟨x, hmem, hid⟩
    obtain ⟨k, hk, hclimb⟩ := Chain.exists_climb_le hrows hn
    rw [List.length_map] at hk
    exact mem_remixImages_of_climb hk hclimb

/-- Rows that keep their references were remixed from each other as before. -/
theorem remixedFrom_map {db db' : Database} {f : Image → Image} (hrows : db'.images.rows = db.images.rows.map f)
    (hf : ∀ x, (f x).id = x.id ∧ (f x).originalId = x.originalId) {i j : Nat} :
    db'.RemixedFrom i j ↔ db.RemixedFrom i j := by
  constructor
  · intro h
    induction h with
    | self => exact .self
    | copy hx ho _ ih =>
      rw [hrows] at hx
      obtain ⟨x, hmem, rfl⟩ := List.mem_map.mp hx
      rw [(hf x).2] at ho
      rw [(hf x).1]
      exact .copy hmem ho ih
  · intro h
    induction h with
    | self => exact .self
    | copy hx ho _ ih =>
      rename_i k x _
      have hx' : f x ∈ db'.images.rows := by
        rw [hrows]
        exact List.mem_map_of_mem hx
      rw [← (hf x).1]
      exact .copy hx' ((hf x).2.trans ho) ih

theorem remixedFrom_congr {db db' : Database} (h : db'.images = db.images) {i j : Nat} :
    db'.RemixedFrom i j ↔ db.RemixedFrom i j :=
  remixedFrom_map (f := id) (by rw [h, List.map_id]) fun _ => ⟨rfl, rfl⟩

theorem remixImages_congr {db db' : Database} (h : db'.images = db.images) (n i : Nat) :
    db'.remixImages n i = db.remixImages n i := by
  induction n generalizing i with
  | zero => rfl
  | succ n ih =>
    rw [remixImages, remixImages, h]
    congr 2
    exact funext ih

/-- The images that are left depend on the images alone. -/
theorem images_destroyImage_congr {db db' : Database} (h : db'.images = db.images) (i : Nat) :
    (db'.destroyImage i).images = (db.destroyImage i).images := by
  rw [destroyImage, destroyImage]
  dsimp only
  rw [images_destroyImageVideo, images_destroyImageVideo, h, remixImages_congr h]

theorem images_destroyImages_congr {db db' : Database} (h : db'.images = db.images) (is : List Nat) :
    (is.foldl destroyImage db').images = (is.foldl destroyImage db).images := by
  induction is generalizing db db' with
  | nil => exact h
  | cons i is ih => exact ih (images_destroyImage_congr h i)

theorem mem_images_destroyImage {db : Database} {i : Nat} {x : Image} :
    x ∈ (db.destroyImage i).images.rows ↔ x ∈ db.images.rows ∧ ¬ db.RemixedFrom i x.id := by
  rw [rows_destroyImage, List.mem_filter, Bool.not_eq_true', List.contains_eq_mem, decide_eq_false_iff_not,
    mem_remixImages_iff]

-- the originals of an image that stays have stayed
theorem remixedFrom_destroyImage {db : Database} {i k : Nat} {x : Image} (hx : ¬ db.RemixedFrom i x.id) :
    (db.destroyImage i).RemixedFrom k x.id ↔ db.RemixedFrom k x.id := by
  constructor
  · exact (MediaOf.destroyImage db i).remixedFrom
  · intro h
    generalize x.id = j at hx h
    induction h with
    | self => exact .self
    | copy hy ho _ ih =>
      exact .copy (mem_images_destroyImage.mpr ⟨hy, hx⟩) ho (ih fun hfrom => hx (.copy hy ho hfrom))

theorem mem_images_destroyImages {db : Database} {is : List Nat} {x : Image} :
    x ∈ (is.foldl destroyImage db).images.rows ↔ x ∈ db.images.rows ∧ ∀ i ∈ is, ¬ db.RemixedFrom i x.id := by
  induction is generalizing db with
  | nil => simp
  | cons i is ih =>
    rw [List.foldl_cons, ih, mem_images_destroyImage]
    constructor
    · rintro ⟨⟨hx, hi⟩, hrest⟩
      refine ⟨hx, fun k hk hfrom => ?_⟩
      rcases List.mem_cons.mp hk with rfl | hk
      · exact hi hfrom
      · exact hrest k hk ((remixedFrom_destroyImage hi).mpr hfrom)
    · rintro ⟨hx, hall⟩
      have hi := hall i List.mem_cons_self
      refine ⟨⟨hx, hi⟩, fun k hk hfrom => ?_⟩
      exact hall k (List.mem_cons_of_mem _ hk) ((remixedFrom_destroyImage hi).mp hfrom)

end Database

namespace ImagesController

open Database

theorem mediaOf_destroyRemixes (ms : List Image) (db : Database) : MediaOf db (destroyRemixes ms db).2 := by
  induction ms generalizing db with
  | nil => exact .refl db
  | cons m ms ih =>
    unfold destroyRemixes
    split
    · split
      · exact .refl db
      · exact .trans (.trans (.filterVideos db _) (.destroyImage _ _)) (ih _)
    · exact .trans (.destroyImage _ _) (ih _)

theorem mediaOf_beforeDestroy (m : Image) (db : Database) : MediaOf db (beforeDestroy m db).2 := by
  unfold beforeDestroy
  split
  · exact .refl db
  · exact mediaOf_destroyRemixes _ db

theorem mediaOf_closeGap (beside : Image → Bool) (k : Int) (db : Database) :
    MediaOf db (closeGap beside k db) := by
  refine ⟨fun x' hx' => ?_, fun v hv => hv⟩
  obtain ⟨x, hx, rfl⟩ := List.mem_map.mp hx'
  refine ⟨x, hx, ?_⟩
  split
  · split <;> exact ⟨rfl, rfl, rfl, rfl⟩
  · exact ⟨rfl, rfl, rfl, rfl⟩

/-- The images beside an image have its step. -/
theorem stepId_of_siblings {db : Database} {m x : Image} {beside : Image → Bool}
    (h : siblings db m = some beside) (hx : beside x = true) : x.stepId = m.stepId := by
  unfold siblings at h
  split at h
  · rename_i hm
    cases h
    rw [Bool.and_eq_true, beq_iff_eq, beq_iff_eq] at hx
    exact hx.2.trans hm.symm
  · obtain ⟨s, hs, rfl⟩ := Option.map_eq_some_iff.mp h
    obtain ⟨i, hi, hfind⟩ := Option.bind_eq_some_iff.mp hs
    split at hfind
    · cases hfind
    · have hid : s.id = i.toNat := (Table.find?_eq_some.mp hfind).2
      rw [beq_iff_eq] at hx
      rw [hx, hi, Option.some.injEq]
      omega

end ImagesController
