import BuildInProgress.ImageRemoval

/-!
# Deleting an original image

The deletion of an image destroys the copies in the remixes first, and before each copy the video of the copy.  A copy
of an image with a video has the number of the video, but the duplicate of the video still belongs to the original
image: the copy has no video to destroy, and the deletion ends there.
-/

open Text

namespace ImagesController

open Database

/-! ## When the deletion comes to its end -/

theorem destroyById_ok_iff (now : Nat) (m : Image) (db : Database) :
    (destroyById now m db).1 = .ok ↔
      (beforeDestroy m db).1 = true ∧ (siblings db m).isSome = true ∧ m.position.isSome = true := by
  have hsiblings : siblings (beforeDestroy m db).2 m = siblings db m := by
    rw [siblings, (touches_beforeDestroy m db .steps (by decide) : _ = _), siblings]
  rw [← hsiblings]
  unfold destroyById
  dsimp only
  rw [← beforeDestroy]
  cases (beforeDestroy m db).1 with
  | false => simp
  | true =>
    cases siblings (beforeDestroy m db).2 m with
    | none => simp
    | some beside =>
      cases m.position with
      | none => simp
      | some k => simp

/-- The rows when it does: some have moved up, and the image goes last. -/
theorem destroyById_ok {m : Image} {db : Database} (hm : m ∈ db.images.rows) {now : Nat}
    (hok : (destroyById now m db).1 = .ok) : ∃ (f : Image → Image) (db' : Database), (∀ x, SameFace x (f x)) ∧
      db'.images.rows = (beforeDestroy m db).2.images.rows.map f ∧ (destroyById now m db).2 = db'.destroyImage m.id := by
  obtain ⟨hdone, hsiblings, hposition⟩ := (destroyById_ok_iff now m db).mp hok
  rcases destroyById_cases hm now with ⟨hstop, -⟩ | ⟨beside, k, -, -, -, heq⟩
  · rw [siblings, (touches_beforeDestroy m db .steps (by decide) : _ = _), ← siblings, hdone, hsiblings,
      hposition] at hstop
    cases hstop
  · obtain ⟨f, hf, hrows⟩ := rows_closed beside k (beforeDestroy m db).2
    exact ⟨f, _, hf, hrows, heq⟩

/-- What stays through the destruction of copies was there, and is still remixed from what it was remixed from. -/
theorem stays_destroyRemixes {ms : List Image} {db : Database} {x : Image}
    (hx : x ∈ (destroyRemixes ms db).2.images.rows) :
    x ∈ db.images.rows ∧ ∀ k, db.RemixedFrom k x.id → (destroyRemixes ms db).2.RemixedFrom k x.id := by
  induction ms generalizing db with
  | nil => exact ⟨hx, fun _ h => h⟩
  | cons c ms ih =>
    have hnext : ∀ {db₁ : Database}, db₁.images = db.images →
        x ∈ (destroyRemixes ms (db₁.destroyImage c.id)).2.images.rows →
        x ∈ db.images.rows ∧ ∀ k, db.RemixedFrom k x.id →
          (destroyRemixes ms (db₁.destroyImage c.id)).2.RemixedFrom k x.id := by
      intro db₁ himages hx
      obtain ⟨hstays, hfrom⟩ := ih hx
      obtain ⟨hrow, hnot⟩ := mem_images_destroyImage.mp hstays
      rw [himages] at hrow
      refine ⟨hrow, fun k hk => hfrom k ?_⟩
      exact (remixedFrom_destroyImage hnot).mpr ((remixedFrom_congr himages).mpr hk)
    unfold destroyRemixes at hx ⊢
    split at hx
    · rename_i hvideo
      rw [if_pos hvideo]
      split at hx
      · exact ⟨hx, fun _ h => h⟩
      · exact hnext (by rfl) hx
    · rename_i hvideo
      rw [if_neg hvideo]
      exact hnext rfl hx

end ImagesController

/-! ## What is gone afterwards -/

namespace Database

/-- The image is gone with its copies, and no other image is. -/
structure OriginalDeleted (i : Nat) (db : Database) (r : Outcome × Database) : Prop where
  completes : r.1 = .ok
  images : ∀ j, (∃ y ∈ r.2.images.rows, y.id = j) ↔
    ∃ x ∈ db.images.rows, x.id = j ∧ x.id ≠ i ∧ x.originalId ≠ some i

/-- The image has its place, each copy that shows a video has a video of its own, and no copy was remixed as if it were
an original. -/
structure Deletable (db : Database) (m : Image) : Prop where
  position : m.position.isSome = true
  step : m.stepId = some (-1) ∨ ∃ s ∈ db.steps.rows, m.stepId = some (s.id : Int)
  videos : ∀ c ∈ db.images.rows, c.originalId = some m.id → c.videoId.isSome = true →
    ∃ v ∈ db.videos.rows, v.imageId = some c.id
  unremixed : ∀ c ∈ db.images.rows, c.originalId = some m.id → db.Unremixed c

end Database

namespace ImagesController

open Database

theorem isSome_siblings_iff {db : Database} {m : Image} : (siblings db m).isSome = true ↔
    m.stepId = some (-1) ∨ ∃ s ∈ db.steps.rows, m.stepId = some (s.id : Int) := by
  unfold siblings
  by_cases hdraft : m.stepId = some (-1)
  · rw [if_pos hdraft]
    exact iff_of_true rfl (Or.inl hdraft)
  · rw [if_neg hdraft, Option.isSome_map, or_iff_right hdraft]
    cases hstep : m.stepId with
    | none =>
      refine iff_of_false (by simp) fun h => ?_
      obtain ⟨s, -, hs⟩ := h
      cases hs
    | some k =>
      rw [Option.bind_some]
      by_cases hneg : k < 0
      · rw [if_pos hneg]
        refine iff_of_false (by simp) fun h => ?_
        obtain ⟨s, -, hs⟩ := h
        have hks := Option.some.inj hs
        omega
      · rw [if_neg hneg]
        constructor
        · intro h
          obtain ⟨s, hs⟩ := Option.isSome_iff_exists.mp h
          obtain ⟨hrow, hid⟩ := Table.find?_eq_some.mp hs
          have hsid : s.id = k.toNat := hid
          refine ⟨s, hrow, congrArg some ?_⟩
          omega
        · intro h
          obtain ⟨s, hs, hk⟩ := h
          have hsk : s.id = k.toNat := by
            have hks := Option.some.inj hk
            omega
          rw [← hsk]
          exact Option.isSome_iff_exists.mpr ⟨s, Table.find?_of_mem hs⟩

theorem removable_iff {db : Database} {c : Image} : removable db c = true ↔
    (c.videoId.isSome = true → ∃ v ∈ db.videos.rows, v.imageId = some c.id) := by
  unfold removable
  cases c.videoId with
  | none => simp
  | some i => simp [List.find?_isSome]

/-- The copies of an original go, unless one of them is not removable. -/
theorem beforeDestroy_spec {db : Database} {m : Image} (ho : m.originalId = none)
    (hcopies : ∀ c ∈ copies db m, db.Unremixed c) :
    (beforeDestroy m db).1 = (copies db m).all (removable db) ∧ ∀ x, x ∈ (beforeDestroy m db).2.images.rows ↔
      x ∈ db.images.rows ∧ x.id ∉ ((copies db m).takeWhile (removable db)).map Image.id := by
  unfold beforeDestroy
  rw [ho, if_neg (by decide)]
  exact destroyRemixes_spec hcopies (nodup_copies db m)

/-- Nothing stays that was remixed from the image, at whatever remove. -/
theorem not_remixedFrom_of_stays {m : Image} {db : Database} (hm : m ∈ db.images.rows) (ho : m.originalId = none)
    {now : Nat} (hok : (destroyById now m db).1 = .ok) {y : Image} (hy : y ∈ (destroyById now m db).2.images.rows) :
    ¬ db.RemixedFrom m.id y.id := by
  obtain ⟨f, db', hf, hrows, heq⟩ := destroyById_ok hm hok
  rw [heq] at hy
  obtain ⟨hy, hnot⟩ := mem_images_destroyImage.mp hy
  rw [hrows] at hy
  obtain ⟨x, hx, rfl⟩ := List.mem_map.mp hy
  intro hfrom
  apply hnot
  rw [remixedFrom_map hrows fun z => ⟨(hf z).1.symm, (hf z).2.2.2.2.1.symm⟩]
  rw [beforeDestroy, ho, if_neg (by decide)] at hx ⊢
  rw [← (hf x).1] at hfrom ⊢
  exact (stays_destroyRemixes hx).2 m.id hfrom

/-- When every copy is removable and alone, the copies go and the other images stay. -/
theorem mem_beforeDestroy_iff {m : Image} {db : Database} (ho : m.originalId = none) (h : Deletable db m) (x : Image) :
    x ∈ (beforeDestroy m db).2.images.rows ↔ x ∈ db.images.rows ∧ x.originalId ≠ some m.id := by
  have hcopies : ∀ c ∈ copies db m, db.Unremixed c := fun c hc =>
    h.unremixed c (mem_copies.mp hc).1 (mem_copies.mp hc).2
  have hall : ∀ c ∈ copies db m, removable db c = true := fun c hc =>
    removable_iff.mpr (h.videos c (mem_copies.mp hc).1 (mem_copies.mp hc).2)
  rw [(beforeDestroy_spec ho hcopies).2, List.takeWhile_eq_self_iff.mpr hall]
  refine and_congr_right fun hx => not_congr ⟨fun hin => ?_, fun hcopy => ?_⟩
  · obtain ⟨c, hc, hcx⟩ := List.mem_map.mp hin
    rw [← Table.eq_of_key (mem_copies.mp hc).1 hx hcx]
    exact (mem_copies.mp hc).2
  · exact List.mem_map_of_mem (mem_copies.mpr ⟨hx, hcopy⟩)

/-- An image remixed from a copy would be gone as well. -/
theorem unremixed_of_originalDeleted {m : Image} {db : Database} {now : Nat} (hrow : m ∈ db.images.rows)
    (ho : m.originalId = none) (h : OriginalDeleted m.id db (destroyById now m db)) {c : Image} (hc : c ∈ db.images.rows)
    (hcopy : c.originalId = some m.id) : db.Unremixed c := by
  intro x hx hxc
  have hxm : x.id ≠ m.id := fun e => by
    rw [Table.eq_of_key hx hrow e, ho] at hxc
    cases hxc
  have hcm : x.originalId ≠ some m.id := fun e => by
    rw [hxc, Option.some.injEq] at e
    rw [Table.eq_of_key hc hrow e, ho] at hcopy
    cases hcopy
  obtain ⟨y, hy, hyx⟩ := (h.images x.id).mpr ⟨x, hx, rfl, hxm, hcm⟩
  apply not_remixedFrom_of_stays hrow ho h.completes hy
  rw [hyx]
  exact .copy hx hxc (.copy hc hcopy .self)

theorem deletable_of_originalDeleted {m : Image} {db : Database} {now : Nat} (hrow : m ∈ db.images.rows)
    (ho : m.originalId = none) (h : OriginalDeleted m.id db (destroyById now m db)) : Deletable db m := by
  obtain ⟨hdone, hsiblings, hposition⟩ := (destroyById_ok_iff now m db).mp h.completes
  have hcopies : ∀ c ∈ copies db m, db.Unremixed c := fun c hc =>
    unremixed_of_originalDeleted hrow ho h (mem_copies.mp hc).1 (mem_copies.mp hc).2
  rw [(beforeDestroy_spec ho hcopies).1, List.all_eq_true] at hdone
  exact ⟨hposition, isSome_siblings_iff.mp hsiblings,
    fun c hc hcopy => removable_iff.mp (hdone c (mem_copies.mpr ⟨hc, hcopy⟩)),
    fun c hc hcopy => unremixed_of_originalDeleted hrow ho h hc hcopy⟩

theorem originalDeleted_of_deletable {m : Image} {db : Database} (now : Nat) (hrow : m ∈ db.images.rows)
    (ho : m.originalId = none) (h : Deletable db m) : OriginalDeleted m.id db (destroyById now m db) := by
  have hdone : (beforeDestroy m db).1 = true := by
    rw [(beforeDestroy_spec ho fun c hc => h.unremixed c (mem_copies.mp hc).1 (mem_copies.mp hc).2).1, List.all_eq_true]
    exact fun c hc => removable_iff.mpr (h.videos c (mem_copies.mp hc).1 (mem_copies.mp hc).2)
  have hok := (destroyById_ok_iff now m db).mpr ⟨hdone, isSome_siblings_iff.mpr h.step, h.position⟩
  obtain ⟨f, db', hf, hmap, heq⟩ := destroyById_ok hrow hok
  have hrest := mem_beforeDestroy_iff ho h
  -- no copy is left when the image itself goes
  have halone : db'.Unremixed m := by
    intro y hy
    rw [hmap] at hy
    obtain ⟨x, hx, rfl⟩ := List.mem_map.mp hy
    rw [← (hf x).2.2.2.2.1]
    exact ((hrest x).mp hx).2
  refine ⟨hok, fun j => ?_⟩
  rw [heq]
  constructor
  · intro hj
    obtain ⟨y, hy, hyj⟩ := hj
    obtain ⟨hy, hne⟩ := (halone.mem_destroyImage_iff y).mp hy
    rw [hmap] at hy
    obtain ⟨x, hx, rfl⟩ := List.mem_map.mp hy
    rw [← (hf x).1] at hyj hne
    exact ⟨x, ((hrest x).mp hx).1, hyj, hne, ((hrest x).mp hx).2⟩
  · intro hj
    obtain ⟨x, hx, hxj, hne, hcopy⟩ := hj
    refine ⟨f x, (halone.mem_destroyImage_iff (f x)).mpr ⟨?_, ?_⟩, (hf x).1.symm.trans hxj⟩
    · rw [hmap]
      exact List.mem_map_of_mem ((hrest x).mpr ⟨hx, hcopy⟩)
    · rw [← (hf x).1]
      exact hne

/-- The destruction by the id of an image, when it is allowed. -/
theorem destroy_eq_destroyById {db : Database} {p : Nat} {m : Image} {u : User} (hm : db.images.find? m.id = some m)
    (hp : m.projectId = some p) (hproject : (db.projects.find? p).isSome = true) (hauthor : db.author p u.id = true)
    (now : Nat) : destroy u now (.inr m.id) db = destroyById now m db := by
  have hallowed : Ability.destroyImage db u m = some true := by
    obtain ⟨project, hproject⟩ := Option.isSome_iff_exists.mp hproject
    have hpid : project.id = p := (Table.find?_eq_some.mp hproject).2
    rw [Ability.destroyImage, Ability.authorOf, hp, Option.bind_some, hproject, Option.map_some, hpid, hauthor]
  unfold destroy
  dsimp only
  rw [hm]
  dsimp only
  rw [hallowed]
  rfl

/-- An original image of a project goes with its copies, and nothing else goes and nothing raises, exactly when it is
deletable. -/
theorem original_deleted_iff {db : Database} {i p : Nat} {m : Image} {u : User} (hm : db.images.find? i = some m)
    (ho : m.originalId = none) (hp : m.projectId = some p) (hproject : (db.projects.find? p).isSome = true)
    (hauthor : db.author p u.id = true) (now : Nat) :
    OriginalDeleted i db (destroy u now (.inr i) db) ↔ Deletable db m := by
  obtain ⟨hrow, hid⟩ := Table.find?_eq_some.mp hm
  have hmi : m.id = i := hid
  subst hmi
  rw [destroy_eq_destroyById hm hp hproject hauthor]
  exact ⟨deletable_of_originalDeleted hrow ho, originalDeleted_of_deletable now hrow ho⟩

/-- Ada's upload to her project, after Bob has remixed the project. -/
def remixed (upload : MediaRequest) : Database :=
  Run.after (MediaRequest.perform MediaAction.noInfo) .oneStep [upload, .remix bob 2 1]

/-- An image without a video goes with its copy. -/
theorem original_deleted_with_copy :
    let db := remixed (.uploadImage ada 1 (.web 1 1 1 "a.jpg".toList))
    db.images.rows.map (fun m => (m.id, m.originalId)) = [(1, none), (2, some 1)] ∧
      OriginalDeleted 1 db (destroy ada 3 (.inr 1) db) := by
  intro db
  have hm : db.images.find? 1 = some ⟨1, some 1, some 1, none, none, some 0, some false, none, none, some 1,
      some "a.jpg".toList, none, none⟩ := by decide +kernel
  refine ⟨by decide +kernel, (original_deleted_iff hm rfl rfl (by decide +kernel) (by decide +kernel) 3).mpr ?_⟩
  exact ⟨by decide +kernel, by decide +kernel, by decide +kernel, by unfold Unremixed; decide +kernel⟩

/-- The image of a video does not: the copy in the remix has no video to destroy. -/
theorem original_with_video_stays :
    let db := remixed (.uploadVideo ada 1 (.android (some 1) (some 1) (some 1) (some "a.mp4".toList)))
    db.images.rows.map (fun m => (m.id, m.originalId, m.videoId)) = [(1, none, some 1), (2, some 1, some 1)] ∧
      db.videos.rows.map (fun v => (v.id, v.imageId)) = [(1, some 1), (2, some 1)] ∧ db.author 1 ada.id = true ∧
      (destroy ada 3 (.inr 1) db).1 = .error ∧
      (destroy ada 3 (.inr 1) db).2.images.rows.map Image.id = [1, 2] ∧
      ¬ OriginalDeleted 1 db (destroy ada 3 (.inr 1) db) := by
  refine ⟨by decide +kernel, by decide +kernel, by decide +kernel, by decide +kernel, by decide +kernel, fun h => ?_⟩
  exact absurd h.completes (by decide +kernel)

end ImagesController

/-! ## What remixes leave -/

namespace Database

/-- A video belongs to an image that was uploaded, and a copy shows the video of its original. -/
structure VideosAtOriginals (db : Database) : Prop where
  past : ∀ v ∈ db.videos.rows, ∀ j ∈ v.imageId, j < db.images.next
  originals : ∀ c ∈ db.images.rows, c.originalId.isSome = true → ∀ v ∈ db.videos.rows, v.imageId ≠ some c.id
  shared : ∀ c ∈ db.images.rows, ∀ o ∈ db.images.rows, c.originalId = some o.id → c.videoId = o.videoId

namespace VideosAtOriginals

variable {db db' : Database}

-- rows that stay keep what the property is about
theorem fewer (h : VideosAtOriginals db) (himages : ∀ y ∈ db'.images.rows, ∃ x ∈ db.images.rows,
    x.id = y.id ∧ x.originalId = y.originalId ∧ x.videoId = y.videoId)
    (hvideos : ∀ v ∈ db'.videos.rows, v ∈ db.videos.rows) (hnext : db'.images.next = db.images.next) :
    VideosAtOriginals db' := by
  refine ⟨fun v hv j hj => ?_, fun c hc ho v hv => ?_, fun c hc o ho hco => ?_⟩
  · rw [hnext]
    exact h.past v (hvideos v hv) j hj
  · obtain ⟨x, hx, hid, horiginal, -⟩ := himages c hc
    rw [← hid]
    exact h.originals x hx (horiginal ▸ ho) v (hvideos v hv)
  · obtain ⟨x, hx, -, horiginal, hvideo⟩ := himages c hc
    obtain ⟨y, hy, hid, -, hvideo'⟩ := himages o ho
    rw [← hvideo, ← hvideo']
    exact h.shared x hx y hy (by rw [horiginal, hid, hco])

theorem kept : KeptByDeletions VideosAtOriginals where
  congr := by
    intro db db' himages hvideos h
    refine h.fewer (fun y hy => ⟨y, ?_, rfl, rfl, rfl⟩) (fun v hv => ?_) (by rw [himages])
    · rw [← himages]
      exact hy
    · rw [← hvideos]
      exact hv
  destroyImage := by
    intro db j h
    refine h.fewer (fun y hy => ⟨y, (mem_images_destroyImage.mp hy).1, rfl, rfl, rfl⟩)
      (MediaOf.destroyImage db j).2 ?_
    show ((db.remixImages db.images.rows.length j).foldl destroyImageVideo db).images.next = _
    rw [images_destroyImageVideo]
  filterVideos := by
    intro db p h
    exact h.fewer (fun y hy => ⟨y, hy, rfl, rfl, rfl⟩) (fun v hv => List.mem_of_mem_filter hv) rfl
  closeGap := by
    intro db beside k h
    refine h.fewer (fun y hy => ?_) (fun v hv => hv) rfl
    rw [ImagesController.rows_closeGap] at hy
    obtain ⟨x, hx, rfl⟩ := List.mem_map.mp hy
    refine ⟨x, hx, ?_⟩
    rcases ImagesController.movedUp_cases beside k x with heq | ⟨z, -, -, -, heq⟩
    · rw [heq]
      exact ⟨rfl, rfl, rfl⟩
    · rw [heq]
      exact ⟨rfl, rfl, rfl⟩

/-- New images are originals or share the video of one that is there; a new video has the image of an old one, or a new
original. -/
theorem append (h : VideosAtOriginals db) (hlevel : OneLevel db) {ms : List Image}
    (hrows : db'.images.rows = db.images.rows ++ ms) (hnext : db.images.next ≤ db'.images.next)
    (hms : ∀ m ∈ ms, db.images.next ≤ m.id ∧ ∀ i ∈ m.originalId,
      ∃ o ∈ db.images.rows, o.id = i ∧ m.videoId = o.videoId)
    (hvideos : ∀ v ∈ db'.videos.rows, (∃ w ∈ db.videos.rows, w.imageId = v.imageId) ∨
      ∀ j ∈ v.imageId, ∃ m ∈ ms, m.id = j ∧ m.originalId = none) : VideosAtOriginals db' := by
  have hold : ∀ m ∈ db.images.rows, m.id < db.images.next := fun m hm => (db.images.bound m hm).2
  refine ⟨fun v hv j hj => ?_, fun c hc ho v hv himage => ?_, fun c hc o ho hco => ?_⟩
  · rcases hvideos v hv with ⟨w, hw, hwv⟩ | hnew
    · exact Nat.lt_of_lt_of_le (h.past w hw j (by rw [hwv]; exact hj)) hnext
    · obtain ⟨m, hm, hid, -⟩ := hnew j hj
      rw [← hid]
      exact (db'.images.bound m (by rw [hrows]; exact List.mem_append_right _ hm)).2
  · have hc' := hc
    rw [hrows, List.mem_append] at hc'
    rcases hvideos v hv with ⟨w, hw, hwv⟩ | hnew
    · rw [← hwv] at himage
      rcases hc' with hc' | hc'
      · exact h.originals c hc' ho w hw himage
      · have hlt := h.past w hw c.id himage
        have hle := (hms c hc').1
        omega
    · obtain ⟨m, hm, hid, hnone⟩ := hnew c.id himage
      rw [← Table.eq_of_key (by rw [hrows]; exact List.mem_append_right _ hm) hc hid, hnone] at ho
      cases ho
  · -- the original is an old image
    have hexists : ∃ o' ∈ db.images.rows, o'.id = o.id ∧ c.videoId = o'.videoId := by
      rw [hrows, List.mem_append] at hc
      rcases hc with hc | hc
      · obtain ⟨o', ho', hid, -⟩ := hlevel c hc o.id hco
        exact ⟨o', ho', hid, h.shared c hc o' ho' (by rw [hco, hid])⟩
      · exact (hms c hc).2 o.id hco
    obtain ⟨o', ho', hid, hvideo⟩ := hexists
    rw [hvideo, Table.eq_of_key (by rw [hrows]; exact List.mem_append_left _ ho') ho hid]

end VideosAtOriginals

theorem videosAtOriginals_uploadImage {db : Database} (h : VideosAtOriginals db) (hlevel : OneLevel db) (u : User)
    (now : Nat) (up : ImagesController.Upload) : VideosAtOriginals (ImagesController.create u now up db).2 := by
  rcases ImagesController.create_cases u now up db with ⟨-, heq⟩ | ⟨-, hrows, hnext, hvideos, -⟩
  · rw [heq]
    exact h
  · refine h.append hlevel hrows (by rw [hnext]; exact Nat.le_succ _) (fun m hm => ?_) fun v hv => ?_
    · rw [List.mem_singleton.mp hm]
      cases up with
      | web p s o path => exact ⟨Nat.le_refl _, nofun⟩
      | android p s o path => exact ⟨Nat.le_refl _, nofun⟩
    · rw [hvideos] at hv
      exact Or.inl ⟨v, hv, rfl⟩

theorem videosAtOriginals_uploadVideo {db : Database} (h : VideosAtOriginals db) (hlevel : OneLevel db) (u : User)
    (now : Nat) (info : VideosController.VideoInfo) (up : VideosController.Upload) :
    VideosAtOriginals (VideosController.create u now info up db).2 := by
  rcases VideosController.create_cases u now info up db with
    ⟨-, heq⟩ | ⟨v, hv, ⟨hmissing, heq⟩ | ⟨p, project, -, -, -, hrows, hnext, hvideos, -⟩⟩
  · rw [heq]
    exact h
  · -- only the app saves a video without a project, and without an image
    cases up with
    | form form =>
      have hsame : (VideosController.create u now info (.form form) db).2 = db := by
        obtain ⟨w, hw, hwv⟩ := Option.map_eq_some_iff.mp hv
        have hproject : w.projectId.bind db.projects.find? = none := by
          rw [← hwv] at hmissing
          exact hmissing
        unfold VideosController.create
        dsimp only
        rw [hw]
        dsimp only
        rw [hproject]
      rw [hsame]
      exact h
    | android p s user path =>
      -- the row of the app names no image yet
      have himage : v.imageId = none := by rw [← Option.some.inj hv]
      have hrows : (VideosController.insertVideo db v).images.rows = db.images.rows ++ [] := (List.append_nil _).symm
      rw [heq]
      refine h.append hlevel hrows (Nat.le_refl _) (fun m hm => absurd hm List.not_mem_nil) fun w hw => ?_
      rw [VideosController.insertVideo, Table.rows_insert, List.mem_append, List.mem_singleton] at hw
      rcases hw with hw | hw
      · exact Or.inl ⟨w, hw, rfl⟩
      · refine Or.inr fun j hj => ?_
        rw [hw, Option.mem_def, himage] at hj
        cases hj
  · refine h.append hlevel hrows (by rw [hnext]; exact Nat.le_succ _) (fun m hm => ?_) fun w hw => ?_
    · rw [List.mem_singleton.mp hm]
      exact ⟨Nat.le_refl _, fun i hi => by cases hi⟩
    · rw [hvideos, List.mem_append, List.mem_singleton] at hw
      rcases hw with hw | hw
      · exact Or.inl ⟨w, hw, rfl⟩
      · refine Or.inr fun j hj => ⟨_, List.mem_singleton_self _, ?_, rfl⟩
        rw [hw] at hj
        exact Option.some.inj hj

theorem videosAtOriginals_remix {db : Database} (h : VideosAtOriginals db) (hlevel : OneLevel db) (u : User)
    (now p : Nat) : VideosAtOriginals (remix u now p db).2 := by
  rcases images_remix u now p db with heq | ⟨hash, hrows, hnext, hvideos⟩
  · rw [heq]
    exact h
  · refine h.append hlevel hrows (by rw [hnext]; exact Nat.le_add_right _ _) (fun c hc => ?_)
      fun v hv => Or.inl (hvideos v hv)
    obtain ⟨⟨m, n⟩, he, rfl⟩ := List.mem_map.mp hc
    have hm : m ∈ db.images.rows := (mem_orderedImages.mp (List.fst_mem_of_mem_zipIdx he)).1
    refine ⟨Nat.le_add_right _ _, fun i hi => ?_⟩
    dsimp only [imageCopy] at hi ⊢
    cases ho : m.originalId with
    | some j =>
      rw [ho, if_pos Option.isSome_some] at hi
      obtain ⟨o, horiginal, hid, -⟩ := hlevel m hm i (by rw [ho]; exact hi)
      exact ⟨o, horiginal, hid, h.shared m hm o horiginal (by rw [ho, hid]; exact hi)⟩
    | none =>
      rw [ho, if_neg (by decide), Option.mem_def, Option.some.injEq] at hi
      exact ⟨m, hm, hi, rfl⟩

end Database

/-- Along every run of uploads, remixes and deletions, copies point one level deep and videos stay with the
originals. -/
theorem MediaRequest.videosAtOriginals (info : VideosController.VideoInfo) {db : Database} (hlevel : db.OneLevel)
    (h : db.VideosAtOriginals) (rs : List MediaRequest) :
    (Run.after (MediaRequest.perform info) db rs).OneLevel ∧
      (Run.after (MediaRequest.perform info) db rs).VideosAtOriginals := by
  have hboth : ∀ db r, db.OneLevel ∧ db.VideosAtOriginals → True →
      (MediaRequest.perform info db r).OneLevel ∧ (MediaRequest.perform info db r).VideosAtOriginals := by
    intro db r hdb _
    refine ⟨MediaRequest.oneLevel hdb.1 info r, ?_⟩
    cases r with
    | uploadImage u now up => exact Database.videosAtOriginals_uploadImage hdb.2 hdb.1 u now up
    | uploadVideo u now up => exact Database.videosAtOriginals_uploadVideo hdb.2 hdb.1 u now info up
    | remix u now p => exact Database.videosAtOriginals_remix hdb.2 hdb.1 u now p
    | destroyImage u now target => exact Database.VideosAtOriginals.kept.destroy_image u now target hdb.2
    | destroyStep u now p key => exact Database.VideosAtOriginals.kept.destroy_step u now p key hdb.2
    | destroyProject u now p => exact Database.VideosAtOriginals.kept.destroy_project u now p hdb.2
  exact Run.invariant (P := fun _ _ => True) hboth ⟨hlevel, h⟩ (Run.Along.of_forall fun _ _ => trivial)

namespace Database

/-- Where copies come from remixes alone, an original can be deleted when it has its place and shows no video, or was
not remixed. -/
theorem deletable_iff {db : Database} (hlevel : db.OneLevel) (h : db.VideosAtOriginals) {m : Image}
    (hm : m ∈ db.images.rows) : db.Deletable m ↔ m.position.isSome = true ∧
      (m.stepId = some (-1) ∨ ∃ s ∈ db.steps.rows, m.stepId = some (s.id : Int)) ∧
      (m.videoId = none ∨ ∀ c ∈ db.images.rows, c.originalId ≠ some m.id) := by
  constructor
  · intro hd
    refine ⟨hd.position, hd.step, ?_⟩
    by_contra hno
    rw [not_or] at hno
    push Not at hno
    obtain ⟨hvideo, c, hc, hcopy⟩ := hno
    have hshown : c.videoId.isSome = true := by
      rw [h.shared c hc m hm hcopy]
      exact Option.isSome_iff_ne_none.mpr hvideo
    obtain ⟨v, hv, himage⟩ := hd.videos c hc hcopy hshown
    exact h.originals c hc (by rw [hcopy]; rfl) v hv himage
  · intro hm'
    obtain ⟨hposition, hstep, hvideo⟩ := hm'
    refine ⟨hposition, hstep, fun c hc hcopy hshown => ?_, fun c hc hcopy => ?_⟩
    · rcases hvideo with hnone | hnone
      · rw [h.shared c hc m hm hcopy, hnone] at hshown
        cases hshown
      · exact absurd hcopy (hnone c hc)
    · exact hlevel.unremixed hc (by rw [hcopy]; rfl)

end Database

/-- So in every run of uploads, remixes and deletions an original with its place that shows a video and was remixed
cannot be deleted, and the others can. -/
theorem MediaRequest.deletable_iff (info : VideosController.VideoInfo) {db : Database} (hlevel : db.OneLevel)
    (h : db.VideosAtOriginals) (rs : List MediaRequest) {m : Image}
    (hm : m ∈ (Run.after (MediaRequest.perform info) db rs).images.rows) :
    (Run.after (MediaRequest.perform info) db rs).Deletable m ↔ m.position.isSome = true ∧
      (m.stepId = some (-1) ∨ ∃ s ∈ (Run.after (MediaRequest.perform info) db rs).steps.rows,
        m.stepId = some (s.id : Int)) ∧
      (m.videoId = none ∨ ∀ c ∈ (Run.after (MediaRequest.perform info) db rs).images.rows,
        c.originalId ≠ some m.id) :=
  let ⟨hlevel', h'⟩ := MediaRequest.videosAtOriginals info hlevel h rs
  Database.deletable_iff hlevel' h' hm
