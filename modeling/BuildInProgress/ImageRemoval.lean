import BuildInProgress.ImageOrigins

/-!
# Which images a deletion takes

While copies point one level deep, a deletion takes the images it names and the copies of these.  This
holds for one image, for the images of a step and for everything below a project.  The deletion by id
destroys the copies first, one after the other, and stops at a copy whose video is gone.
-/

open Text

namespace Database

/-- The image is none of those in `A`, and no copy of one. -/
def Spared (db : Database) (A : Image → Prop) (x : Image) : Prop :=
  ∀ m ∈ db.images.rows, A m → x.id ≠ m.id ∧ x.originalId ≠ some m.id

/-- The images in `A` and their copies are gone, the others are there. -/
def Removes (A : Image → Prop) (db db' : Database) : Prop :=
  ∀ x, x ∈ db'.images.rows ↔ x ∈ db.images.rows ∧ db.Spared A x

theorem Spared.congr {db db' : Database} {A B : Image → Prop} (hrows : db'.images.rows = db.images.rows)
    (h : ∀ m ∈ db.images.rows, A m ↔ B m) (x : Image) : db'.Spared A x ↔ db.Spared B x := by
  unfold Spared
  rw [hrows]
  constructor
  · intro hx m hm hB
    exact hx m hm ((h m hm).mpr hB)
  · intro hx m hm hA
    exact hx m hm ((h m hm).mp hA)

/-- No image was remixed from this one. -/
def Unremixed (db : Database) (c : Image) : Prop := ∀ x ∈ db.images.rows, x.originalId ≠ some c.id

namespace Unremixed

variable {db : Database} {c : Image}

theorem eq_of_remixedFrom (h : Unremixed db c) {j : Nat} (hfrom : db.RemixedFrom c.id j) : j = c.id := by
  induction hfrom with
  | self => rfl
  | copy hx ho _ ih =>
    rw [ih] at ho
    exact absurd ho (h _ hx)

/-- It goes alone. -/
theorem mem_destroyImage_iff (h : Unremixed db c) (x : Image) :
    x ∈ (db.destroyImage c.id).images.rows ↔ x ∈ db.images.rows ∧ x.id ≠ c.id := by
  rw [mem_images_destroyImage]
  refine and_congr_right fun hx => not_congr ⟨h.eq_of_remixedFrom, fun hid => ?_⟩
  rw [hid]
  exact .self

end Unremixed

namespace OneLevel

variable {db : Database}

-- no image refers to a copy
theorem original_of_copy (h : OneLevel db) {x y : Image} (hx : x ∈ db.images.rows) (hy : y ∈ db.images.rows)
    (hxy : x.originalId = some y.id) : y.originalId = none := by
  obtain ⟨o, ho, hid, hnone⟩ := h x hx y.id hxy
  rw [← Table.eq_of_key ho hy hid]
  exact hnone

theorem unremixed (h : OneLevel db) {c : Image} (hc : c ∈ db.images.rows) (ho : c.originalId.isSome = true) :
    Unremixed db c := by
  intro x hx hxc
  rw [h.original_of_copy hx hc hxc] at ho
  cases ho

theorem remixedFrom_iff (h : OneLevel db) {x : Image} (hx : x ∈ db.images.rows) (i : Nat) :
    db.RemixedFrom i x.id ↔ x.id = i ∨ x.originalId = some i := by
  constructor
  · intro hfrom
    generalize hj : x.id = j at hfrom
    cases hfrom with
    | self => exact Or.inl rfl
    | copy hy ho hrest =>
      have hxy := Table.eq_of_key hx hy hj
      subst hxy
      cases hrest with
      | self => exact Or.inr ho
      | copy hz hz' _ =>
        -- the original of the image would be a copy itself
        rw [h.original_of_copy hy hz ho] at hz'
        cases hz'
  · rintro (rfl | ho)
    · exact .self
    · exact .copy hx ho .self

theorem mem_destroyImage_iff (h : OneLevel db) (i : Nat) (x : Image) :
    x ∈ (db.destroyImage i).images.rows ↔ x ∈ db.images.rows ∧ x.id ≠ i ∧ x.originalId ≠ some i := by
  rw [mem_images_destroyImage]
  apply and_congr_right
  intro hx
  rw [h.remixedFrom_iff hx, not_or]

theorem mem_destroyImages_iff (h : OneLevel db) (ms : List Image) (x : Image) :
    x ∈ (ms.foldl (fun (db : Database) (m : Image) => db.destroyImage m.id) db).images.rows ↔
      x ∈ db.images.rows ∧ ∀ m ∈ ms, x.id ≠ m.id ∧ x.originalId ≠ some m.id := by
  induction ms generalizing db with
  | nil => simp
  | cons m ms ih =>
    rw [List.foldl_cons, ih (h.destroyImage m.id), h.mem_destroyImage_iff]
    simp only [List.mem_cons, forall_eq_or_imp, and_assoc]

end OneLevel

namespace Removes

variable {A B : Image → Prop} {db db' db'' : Database}

theorem congr (h : Removes A db db') (hAB : ∀ m ∈ db.images.rows, A m ↔ B m) : Removes B db db' := by
  intro x
  rw [h x, Spared.congr rfl hAB]

theorem of_images (h : db'.images = db.images) : Removes (fun _ => False) db db' := by
  intro x
  rw [h]
  exact ⟨fun hx => ⟨hx, fun _ _ hno => hno.elim⟩, fun hx => hx.1⟩

theorem trans (hdb : OneLevel db) (h : Removes A db db') (h' : Removes B db' db'') :
    Removes (fun m => A m ∨ B m) db db'' := by
  intro x
  rw [h' x, h x]
  constructor
  · rintro ⟨⟨hx, hA⟩, hB⟩
    refine ⟨hx, fun m hm hAB => ?_⟩
    by_cases hstays : m ∈ db'.images.rows
    · rcases hAB with hmA | hmB
      · exact hA m hm hmA
      · exact hB m hstays hmB
    · -- gone already: one of the first kind, or a copy, which has no copies
      by_cases hmA : A m
      · exact hA m hm hmA
      · refine ⟨fun hid => hstays ?_, fun ho => hstays ?_⟩
        · rw [← Table.eq_of_key hx hm hid]
          exact (h x).mpr ⟨hx, hA⟩
        · refine (h m).mpr ⟨hm, fun k hk hkA => ⟨fun hid => hmA ?_, fun hcopy => ?_⟩⟩
          · rw [Table.eq_of_key hm hk hid]
            exact hkA
          · rw [hdb.original_of_copy hx hm ho] at hcopy
            cases hcopy
  · rintro ⟨hx, hAB⟩
    have hA : db.Spared A x := fun m hm hmA => hAB m hm (Or.inl hmA)
    refine ⟨⟨hx, hA⟩, fun m hm hmB => ?_⟩
    exact hAB m ((h m).mp hm).1 (Or.inr hmB)

/-- What is done before and after without images. -/
theorem around {db₀ db₁ db₂ db₃ : Database} (h : Removes A db₁ db₂) (hbefore : db₁.images = db₀.images)
    (hafter : db₃.images = db₂.images) : Removes A db₀ db₃ := by
  intro x
  have hspared : db₁.Spared A x ↔ db₀.Spared A x := Spared.congr (by rw [hbefore]) (fun _ _ => Iff.rfl) x
  rw [hafter, h x, hspared, hbefore]

theorem destroyImage (h : OneLevel db) (i : Nat) : Removes (fun m => m.id = i) db (db.destroyImage i) := by
  intro x
  rw [h.mem_destroyImage_iff]
  constructor
  · rintro ⟨hx, hid, ho⟩
    refine ⟨hx, fun m _ hm => ?_⟩
    rw [hm]
    exact ⟨hid, ho⟩
  · rintro ⟨hx, hspared⟩
    refine ⟨hx, fun hid => (hspared x hx hid).1 rfl, fun ho => ?_⟩
    obtain ⟨o, hmem, hoid, -⟩ := h x hx i ho
    exact (hspared o hmem hoid).2 (by rw [hoid]; exact ho)

theorem destroyImages (h : OneLevel db) {ms : List Image} (hms : ∀ m, m ∈ ms ↔ m ∈ db.images.rows ∧ A m) :
    Removes A db (ms.foldl (fun (db : Database) (m : Image) => db.destroyImage m.id) db) := by
  intro x
  rw [h.mem_destroyImages_iff]
  apply and_congr_right
  intro _
  constructor
  · intro hx m hm hA
    exact hx m ((hms m).mpr ⟨hm, hA⟩)
  · intro hx m hm
    exact hx m ((hms m).mp hm).1 ((hms m).mp hm).2

theorem destroyDependents (h : OneLevel db) (s : Nat) :
    Removes (fun m => m.stepId = some (s : Int)) db (db.destroyDependents s) := by
  have hedits : OneLevel { db with edits := db.edits.filter (·.stepId ≠ some s) } := h
  have hms : ∀ m, m ∈ db.stepImages s ↔ m ∈ db.images.rows ∧ m.stepId = some (s : Int) := fun m =>
    mem_stepImages
  refine (Removes.destroyImages hedits hms).around rfl ?_
  unfold Database.destroyDependents
  dsimp only
  split
  · rfl
  · rfl

theorem destroyStep (h : OneLevel db) (now : Nat) (d : Step) :
    Removes (fun m => m.stepId = some (d.id : Int)) db (db.destroyStep now d) := by
  have himages : (db.adoptChildren now d).images = db.images := touches_adoptChildren db now d .images (by decide)
  exact (Removes.destroyDependents (h.congr himages) d.id).around himages rfl

theorem destroySteps (h : OneLevel db) (now : Nat) (ss : List Step) :
    Removes (fun m => ∃ s ∈ ss, m.stepId = some (s.id : Int)) db
      (ss.foldl (fun (db : Database) (s : Step) => db.destroyStep now s) db) := by
  induction ss generalizing db with
  | nil =>
    refine (Removes.of_images rfl).congr fun m _ => ?_
    simp
  | cons s ss ih =>
    refine ((Removes.destroyStep h now s).trans h (ih (oneLevel_kept.destroyStep now s h))).congr fun m _ => ?_
    simp only [List.mem_cons, exists_eq_or_imp]

end Removes

end Database

/-! ## The deletion by id -/

namespace ImagesController

open Database

/-- The copies of an image, in the order in which `destroy` takes them. -/
def copies (db : Database) (m : Image) : List Image :=
  (db.images.rows.filter (·.originalId = some m.id)).insertionSort (imageBefore · ·)

/-- A copy that shows a video needs the video; without it the deletion raises. -/
def removable (db : Database) (c : Image) : Bool :=
  c.videoId.isNone || (db.videos.rows.find? (·.imageId = some c.id)).isSome

/-- Whether the deletion comes to the image itself: all copies are removable, and its step and its
position are known. -/
def reachesImage (db : Database) (m : Image) : Bool :=
  (copies db m).all (removable db) && (siblings db m).isSome && m.position.isSome

/-- The ids of the images that `destroyById` takes: copies as far as they are removable, and the image
itself if it comes to it. -/
def goneById (db : Database) (m : Image) : List Nat :=
  ((copies db m).takeWhile (removable db)).map Image.id ++ if reachesImage db m then [m.id] else []

theorem mem_copies {db : Database} {m c : Image} :
    c ∈ copies db m ↔ c ∈ db.images.rows ∧ c.originalId = some m.id := by
  rw [copies, List.mem_insertionSort, List.mem_filter, decide_eq_true_eq]

theorem nodup_copies (db : Database) (m : Image) : ((copies db m).map Image.id).Nodup := by
  have hperm : (copies db m).Perm (db.images.rows.filter (·.originalId = some m.id)) := List.perm_insertionSort _ _
  rw [(hperm.map Image.id).nodup_iff]
  exact db.images.nodup.sublist (List.filter_sublist.map _)

theorem removable_congr {db db' : Database} {x : Image}
    (h : ∀ v, v.imageId = some x.id → (v ∈ db'.videos.rows ↔ v ∈ db.videos.rows)) :
    removable db' x = removable db x := by
  have hfind : ∀ db : Database, (db.videos.rows.find? (·.imageId = some x.id)).isSome = true ↔
      ∃ v ∈ db.videos.rows, v.imageId = some x.id := by
    intro db
    simp [List.find?_isSome]
  rw [removable, removable]
  congr 1
  rw [Bool.eq_iff_iff, hfind, hfind]
  constructor
  · rintro ⟨v, hv, hx⟩
    exact ⟨v, (h v hx).mp hv, hx⟩
  · rintro ⟨v, hv, hx⟩
    exact ⟨v, (h v hx).mpr hv, hx⟩

-- a video goes only with its own image
theorem mem_videos_filter {db : Database} {v w : Video} (hv : v ∈ db.videos.rows) (hne : w.imageId ≠ v.imageId) :
    w ∈ (db.videos.filter (·.id ≠ v.id)).rows ↔ w ∈ db.videos.rows := by
  rw [Table.rows_filter, List.mem_filter, decide_eq_true_eq]
  refine ⟨fun h => h.1, fun hw => ⟨hw, fun hid => hne ?_⟩⟩
  rw [Table.eq_of_key hw hv hid]

theorem mem_videos_destroyImage {db : Database} {c : Image} (h : Unremixed db c) {w : Video}
    (hw : w.imageId ≠ some c.id) : w ∈ (db.destroyImage c.id).videos.rows ↔ w ∈ db.videos.rows := by
  have hfold : ∀ (l : List Nat) (db : Database), (∀ j ∈ l, j = c.id) →
      (w ∈ (l.foldl destroyImageVideo db).videos.rows ↔ w ∈ db.videos.rows) := by
    intro l
    induction l with
    | nil => exact fun db _ => Iff.rfl
    | cons j l ih =>
      intro db hl
      rw [List.foldl_cons, ih _ fun k hk => hl k (List.mem_cons_of_mem _ hk), hl j List.mem_cons_self,
        destroyImageVideo]
      cases hfind : db.videos.rows.find? (·.imageId = some c.id) with
      | none => exact Iff.rfl
      | some v =>
        have hvid : v.imageId = some c.id := by simpa using List.find?_some hfind
        apply mem_videos_filter (List.mem_of_find?_eq_some hfind)
        rw [hvid]
        exact hw
  apply hfold
  intro j hj
  exact h.eq_of_remixedFrom (remixedFrom_of_mem hj)

theorem destroyRemixes_spec {ms : List Image} {db : Database} (hms : ∀ c ∈ ms, Unremixed db c)
    (hnodup : (ms.map Image.id).Nodup) :
    (destroyRemixes ms db).1 = ms.all (removable db) ∧
      ∀ x, x ∈ (destroyRemixes ms db).2.images.rows ↔
        x ∈ db.images.rows ∧ x.id ∉ (ms.takeWhile (removable db)).map Image.id := by
  induction ms generalizing db with
  | nil => exact ⟨rfl, fun x => by simp [destroyRemixes]⟩
  | cons c ms ih =>
    have hc := hms c List.mem_cons_self
    rw [List.map_cons, List.nodup_cons] at hnodup
    -- the copy goes, whatever was done to its videos first
    have hrest : ∀ db₁ : Database, db₁.images = db.images →
        (∀ w : Video, w.imageId ≠ some c.id → (w ∈ db₁.videos.rows ↔ w ∈ db.videos.rows)) →
        (destroyRemixes ms (db₁.destroyImage c.id)).1 = ms.all (removable db) ∧
          ∀ x, x ∈ (destroyRemixes ms (db₁.destroyImage c.id)).2.images.rows ↔
            x ∈ db.images.rows ∧ x.id ≠ c.id ∧ x.id ∉ (ms.takeWhile (removable db)).map Image.id := by
      intro db₁ himages hvideos
      have hc₁ : Unremixed db₁ c := by
        rw [Unremixed, himages]
        exact hc
      have hmem : ∀ x, x ∈ (db₁.destroyImage c.id).images.rows ↔ x ∈ db.images.rows ∧ x.id ≠ c.id := by
        intro x
        rw [hc₁.mem_destroyImage_iff, himages]
      have hother : ∀ x ∈ ms, x.id ≠ c.id := fun x hx hid =>
        hnodup.1 (List.mem_map.mpr ⟨x, hx, hid⟩)
      have hsame : ∀ x ∈ ms, removable (db₁.destroyImage c.id) x = removable db x := by
        intro x hx
        apply removable_congr
        intro v hv
        have hne : v.imageId ≠ some c.id := by
          rw [hv, ne_eq, Option.some.injEq]
          exact hother x hx
        rw [mem_videos_destroyImage hc₁ hne, hvideos v hne]
      have hstill : ∀ x ∈ ms, Unremixed (db₁.destroyImage c.id) x := fun x hx y hy =>
        hms x (List.mem_cons_of_mem _ hx) y ((hmem y).mp hy).1
      obtain ⟨hdone, hrows⟩ := ih hstill hnodup.2
      constructor
      · rw [hdone, Bool.eq_iff_iff, List.all_eq_true, List.all_eq_true]
        exact forall₂_congr fun x hx => by rw [hsame x hx]
      · intro x
        rw [hrows, hmem, List.takeWhile_congr hsame, and_assoc]
    unfold destroyRemixes
    cases hvideo : c.videoId with
    | none =>
      have hc' : removable db c = true := by
        rw [removable, hvideo]
        rfl
      obtain ⟨hdone, hrows⟩ := hrest db rfl fun _ _ => Iff.rfl
      rw [if_neg (by decide), List.all_cons, hc', Bool.true_and, List.takeWhile_cons_of_pos hc', List.map_cons]
      refine ⟨hdone, fun x => ?_⟩
      rw [hrows, List.mem_cons, not_or]
    | some i =>
      rw [if_pos Option.isSome_some]
      cases hfind : db.videos.rows.find? (·.imageId = some c.id) with
      | none =>
        have hc' : removable db c = false := by
          rw [removable, hvideo, hfind]
          rfl
        rw [List.all_cons, hc', Bool.false_and, List.takeWhile_cons_of_neg (by rw [hc']; decide)]
        exact ⟨rfl, fun x => by simp⟩
      | some v =>
        have hc' : removable db c = true := by
          rw [removable, hfind, Option.isSome_some, Bool.or_true]
        have hvid : v.imageId = some c.id := by simpa using List.find?_some hfind
        obtain ⟨hdone, hrows⟩ := hrest { db with videos := db.videos.filter (·.id ≠ v.id) } rfl fun w hw =>
          mem_videos_filter (List.mem_of_find?_eq_some hfind) (by rw [hvid]; exact hw)
        rw [List.all_cons, hc', Bool.true_and, List.takeWhile_cons_of_pos hc', List.map_cons]
        refine ⟨hdone, fun x => ?_⟩
        rw [List.mem_cons, not_or]
        exact hrows x

/-- Two rows that differ in their position at most. -/
def SameFace (x y : Image) : Prop :=
  x.id = y.id ∧ x.stepId = y.stepId ∧ x.projectId = y.projectId ∧ x.imagePath = y.imagePath ∧
    x.originalId = y.originalId ∧ x.s3Filepath = y.s3Filepath

theorem movedUp_face (beside : Image → Bool) (k : Int) (m : Image) : SameFace m (movedUp beside k m) := by
  rcases movedUp_cases beside k m with h | ⟨x, -, -, -, h⟩
  · rw [h]
    exact ⟨rfl, rfl, rfl, rfl, rfl, rfl⟩
  · rw [h]
    exact ⟨rfl, rfl, rfl, rfl, rfl, rfl⟩

/-- The rows as they are before the image itself goes. -/
theorem rows_closed (beside : Image → Bool) (k : Int) (db : Database) : ∃ f : Image → Image, (∀ x, SameFace x (f x)) ∧
    (if k < ((db.images.rows.filter beside).length : Int) then closeGap beside k db else db).images.rows =
      db.images.rows.map f := by
  split
  · exact ⟨movedUp beside k, movedUp_face beside k, rfl⟩
  · exact ⟨id, fun x => ⟨rfl, rfl, rfl, rfl, rfl, rfl⟩, (List.map_id _).symm⟩

theorem mem_goneById_of_copy {db : Database} {m x : Image} (hx : x ∈ db.images.rows) (ho : x.originalId = some m.id)
    (h : reachesImage db m = true) : x.id ∈ goneById db m := by
  rw [reachesImage, Bool.and_assoc, Bool.and_eq_true] at h
  have hall : (copies db m).takeWhile (removable db) = copies db m := List.takeWhile_eq_self_iff.mpr
    (List.all_eq_true.mp h.1)
  rw [goneById, hall]
  exact List.mem_append_left _ (List.mem_map_of_mem (mem_copies.mpr ⟨hx, ho⟩))

-- what the deletion takes has no other copies than those it takes
theorem spared_goneById {db : Database} {m : Image} (h : OneLevel db) {x : Image} (hx : x ∈ db.images.rows) :
    db.Spared (fun z => z.id ∈ goneById db m) x ↔ x.id ∉ goneById db m := by
  constructor
  · intro hs hgone
    exact (hs x hx hgone).1 rfl
  · intro hid z hz hgone
    refine ⟨fun heq => hid (by rw [heq]; exact hgone), fun ho => hid ?_⟩
    have hnone := h.original_of_copy hx hz ho
    rw [goneById, List.mem_append] at hgone
    rcases hgone with hgone | hgone
    · obtain ⟨c, hc, hcz⟩ := List.mem_map.mp hgone
      have hcopy := mem_copies.mp ((List.takeWhile_subset _) hc)
      rw [Table.eq_of_key hcopy.1 hz hcz, hnone] at hcopy
      cases hcopy.2
    · cases hreach : reachesImage db m with
      | false =>
        rw [hreach] at hgone
        cases hgone
      | true =>
        rw [hreach, if_pos rfl, List.mem_singleton] at hgone
        exact mem_goneById_of_copy hx (by rw [← hgone]; exact ho) hreach

/-- After the deletion of an image by its id, the rows that are not gone stand there with a position of
their own. -/
theorem destroyById_spec {m : Image} {db : Database} (h : OneLevel db) (hm : m ∈ db.images.rows) (now : Nat) :
    ∃ f : Image → Image, (∀ x, SameFace x (f x)) ∧ ∀ y, y ∈ (destroyById now m db).2.images.rows ↔
      ∃ x ∈ db.images.rows, db.Spared (fun z => z.id ∈ goneById db m) x ∧ y = f x := by
  -- the copies that go, and whether all of them do
  have hbefore : (beforeDestroy m db).1 = (copies db m).all (removable db) ∧
      ∀ x, x ∈ (beforeDestroy m db).2.images.rows ↔
        x ∈ db.images.rows ∧ x.id ∉ ((copies db m).takeWhile (removable db)).map Image.id := by
    unfold beforeDestroy
    split
    · rename_i ho
      have hnone : copies db m = [] := by
        apply List.eq_nil_iff_forall_not_mem.mpr
        intro c hc
        rw [mem_copies] at hc
        rw [h.original_of_copy hc.1 hm hc.2] at ho
        cases ho
      rw [hnone]
      exact ⟨rfl, fun x => by simp⟩
    · refine destroyRemixes_spec (fun c hc => ?_) (nodup_copies db m)
      rw [← copies, mem_copies] at hc
      exact h.unremixed hc.1 (by rw [hc.2]; rfl)
  obtain ⟨hdone, hrows⟩ := hbefore
  have hsteps : siblings (beforeDestroy m db).2 m = siblings db m := by
    rw [siblings, (touches_beforeDestroy m db .steps (by decide) : _ = _), siblings]
  rcases destroyById_cases hm now with ⟨hstop, heq⟩ | ⟨beside, k, hbeside, hk, htrue, heq⟩
  · rw [hdone, hsteps, ← reachesImage] at hstop
    refine ⟨id, fun x => ⟨rfl, rfl, rfl, rfl, rfl, rfl⟩, fun y => ?_⟩
    rw [heq, hrows]
    constructor
    · rintro ⟨hy, hgone⟩
      refine ⟨y, hy, (spared_goneById h hy).mpr ?_, rfl⟩
      rw [goneById, hstop, if_neg (by decide), List.append_nil]
      exact hgone
    · rintro ⟨x, hx, hspared, rfl⟩
      rw [spared_goneById h hx, goneById, hstop, if_neg (by decide), List.append_nil] at hspared
      exact ⟨hx, hspared⟩
  · have hreach : reachesImage db m = true := by
      rw [reachesImage, ← hdone, ← hsteps, htrue, hbeside, hk]
      rfl
    have hlevel := oneLevel_kept.beforeDestroy m h
    rw [heq]
    generalize (beforeDestroy m db).2 = db₁ at hrows hlevel
    obtain ⟨f, hf, hmap⟩ := rows_closed beside k db₁
    have hlevel₂ := hlevel.map hmap fun x => ⟨(hf x).1.symm, (hf x).2.2.2.2.1.symm⟩
    refine ⟨f, hf, fun y => ?_⟩
    rw [hlevel₂.mem_destroyImage_iff, hmap, List.mem_map]
    constructor
    · rintro ⟨⟨x, hx, rfl⟩, hid, -⟩
      rw [hrows] at hx
      rw [← (hf x).1] at hid
      refine ⟨x, hx.1, (spared_goneById h hx.1).mpr ?_, rfl⟩
      rw [goneById, hreach, if_pos rfl, List.mem_append, List.mem_singleton, not_or]
      exact ⟨hx.2, hid⟩
    · rintro ⟨x, hx, hspared, rfl⟩
      rw [spared_goneById h hx] at hspared
      have hcopy : x.originalId ≠ some m.id := fun ho => hspared (mem_goneById_of_copy hx ho hreach)
      rw [goneById, hreach, if_pos rfl, List.mem_append, List.mem_singleton, not_or] at hspared
      refine ⟨⟨x, (hrows x).mpr ⟨hx, hspared.1⟩, rfl⟩, ?_, ?_⟩
      · rw [← (hf x).1]
        exact hspared.2
      · rw [← (hf x).2.2.2.2.1]
        exact hcopy

end ImagesController
