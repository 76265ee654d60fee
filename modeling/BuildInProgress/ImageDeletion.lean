import BuildInProgress.ImageCascade
import BuildInProgress.Lib.Cycles
import BuildInProgress.Lib.Rows

/-!
# What the deletion of an image takes

`:dependent => :destroy` sends the deletion of an image through its remixes and theirs, and at each image the first of
its videos goes.  `destroy` by id deletes the direct remixes before, one at a time.  The images a deletion comes to are
listed here as its visits, read off the rows before it; what goes and what moves up is said by them.
-/

open Text Ancestry

namespace Database

/-- The images that the deletion of image `i` comes to: itself, its remixes, theirs and so on. -/
def copies (db : Database) (i : Nat) : List Nat := db.remixImages db.images.rows.length i

/-- Each time a deletion comes to an image, the first of the videos that the image still has goes. -/
def Takes (db : Database) (visits : List Nat) (v : Video) : Prop :=
  ∃ j ∈ v.imageId, v ∈ (db.videos.rows.filter (·.imageId = some j)).take (visits.count j)

instance (db : Database) (visits : List Nat) (v : Video) : Decidable (db.Takes visits v) :=
  inferInstanceAs (Decidable (∃ j ∈ v.imageId, _))

/-- The images of `visits` are gone, with the videos that this takes. -/
def destroyMedia (db : Database) (visits : List Nat) : Database :=
  { db with
    images := db.images.filter fun m => !visits.contains m.id
    videos := db.videos.filter fun v => !decide (db.Takes visits v) }

variable {db db' : Database} {i j : Nat} {visits visits' : List Nat}

/-! ## Videos -/

theorem find?_video (db : Database) (i : Nat) :
    db.videos.rows.find? (·.imageId = some i) = (db.videos.rows.filter (·.imageId = some i)).head? :=
  List.head?_filter.symm

theorem takes_nil (v : Video) : ¬ db.Takes [] v := by
  rintro ⟨j, -, hmem⟩
  simp at hmem

/-- A visit takes the first video of its image. -/
theorem takes_singleton {w : Video} : db.Takes [i] w ↔ (db.videos.rows.filter (·.imageId = some i)).head? = some w := by
  constructor
  · rintro ⟨j, himage, hmem⟩
    rw [List.count_singleton] at hmem
    split at hmem
    · rename_i hij
      rw [beq_iff_eq] at hij
      subst hij
      cases hvideos : db.videos.rows.filter (·.imageId = some i) with
      | nil =>
        rw [hvideos] at hmem
        simp at hmem
      | cons v rest =>
        rw [hvideos] at hmem
        have hw : w = v := by simpa using hmem
        rw [hw, List.head?_cons]
    · simp at hmem
  · intro hhead
    obtain ⟨rest, hvideos⟩ := List.head?_eq_some_iff.mp hhead
    have hw : w ∈ db.videos.rows.filter (·.imageId = some i) := hvideos ▸ List.mem_cons_self
    rw [List.mem_filter, decide_eq_true_eq] at hw
    refine ⟨i, hw.2, ?_⟩
    rw [List.count_singleton_self, hvideos]
    simp

theorem destroyImageVideo_eq (db : Database) (i : Nat) :
    db.destroyImageVideo i = { db with videos := db.videos.filter fun v => !decide (db.Takes [i] v) } := by
  unfold destroyImageVideo
  rw [find?_video]
  cases hhead : (db.videos.rows.filter (·.imageId = some i)).head? with
  | none =>
    have hall : (db.videos.filter fun v => !decide (db.Takes [i] v)) = db.videos := by
      refine Table.filter_eq_self fun v _ => ?_
      rw [Bool.not_eq_true', decide_eq_false_iff_not, takes_singleton, hhead]
      exact Option.some_ne_none v ∘ Eq.symm
    rw [hall]
  | some w =>
    have hw := List.mem_filter.mp (List.mem_of_mem_head? hhead)
    have hsame : (db.videos.filter fun v => !decide (db.Takes [i] v)) = db.videos.filter (·.id ≠ w.id) := by
      refine Table.filter_congr fun v hv => ?_
      have hid : db.Takes [i] v ↔ v.id = w.id := by
        rw [takes_singleton, hhead, Option.some.injEq]
        exact ⟨fun h => by rw [h], fun h => (Table.eq_of_key hv hw.1 h).symm⟩
      rw [decide_eq_decide.mpr hid, decide_not]
    dsimp only
    rw [hsame]

/-- The videos of an image once a deletion has come to image `i`. -/
theorem videosOf_destroyImageVideo (db : Database) (i j : Nat) :
    (db.destroyImageVideo i).videos.rows.filter (·.imageId = some j) =
      (db.videos.rows.filter (·.imageId = some j)).drop ([i].count j) := by
  rw [destroyImageVideo_eq]
  dsimp only
  rw [Table.rows_filter, List.filter_filter]
  simp only [Bool.and_comm]
  rw [← List.filter_filter]
  have hids : ((db.videos.rows.filter (·.imageId = some j)).map Video.id).Nodup :=
    db.videos.nodup.sublist (List.filter_sublist.map _)
  rw [List.count_singleton]
  by_cases hij : i = j
  · subst hij
    rw [if_pos (by simp), List.drop_one]
    cases hvideos : db.videos.rows.filter (·.imageId = some i) with
    | nil => rfl
    | cons v rest =>
      have hhead : (db.videos.rows.filter (·.imageId = some i)).head? = some v := by rw [hvideos, List.head?_cons]
      rw [hvideos, List.map_cons, List.nodup_cons] at hids
      rw [List.filter_cons_of_neg (by simpa using takes_singleton.mpr hhead), List.tail_cons, List.filter_eq_self]
      intro w hw
      rw [Bool.not_eq_true', decide_eq_false_iff_not, takes_singleton, hhead, Option.some.injEq]
      rintro rfl
      exact hids.1 (List.mem_map_of_mem hw)
  · rw [if_neg (by simpa using hij), List.drop_zero, List.filter_eq_self]
    intro w hw
    obtain ⟨-, himage⟩ := List.mem_filter.mp hw
    rw [Bool.not_eq_true', decide_eq_false_iff_not, takes_singleton]
    intro hhead
    have hw' := (List.mem_filter.mp (List.mem_of_mem_head? hhead)).2
    rw [decide_eq_true_eq] at himage hw'
    exact hij (Option.some.inj (hw'.symm.trans himage))

theorem takes_cons (i : Nat) (visits : List Nat) (v : Video) :
    db.Takes (i :: visits) v ↔ db.Takes [i] v ∨ (db.destroyImageVideo i).Takes visits v := by
  unfold Takes
  simp only [videosOf_destroyImageVideo]
  rw [← exists_or]
  refine exists_congr fun j => ?_
  have hcount : ([i] ++ visits).count j = [i].count j + visits.count j := List.count_append
  rw [List.singleton_append] at hcount
  rw [← and_or_left, hcount, List.take_add, List.mem_append]

/-- The dependent videos of the visits go one after the other. -/
theorem destroyVideos_eq (visits : List Nat) (db : Database) :
    visits.foldl destroyImageVideo db =
      { db with videos := db.videos.filter fun v => !decide (db.Takes visits v) } := by
  induction visits generalizing db with
  | nil =>
    have hall : (db.videos.filter fun v => !decide (db.Takes [] v)) = db.videos :=
      Table.filter_eq_self fun v _ => by simp [takes_nil]
    rw [hall]
    rfl
  | cons i visits ih =>
    have hvideos : (db.destroyImageVideo i).videos = db.videos.filter fun v => !decide (db.Takes [i] v) := by
      rw [destroyImageVideo_eq]
    have hboth : ((db.destroyImageVideo i).videos.filter fun v => !decide ((db.destroyImageVideo i).Takes visits v)) =
        db.videos.filter fun v => !decide (db.Takes (i :: visits) v) := by
      rw [hvideos, Table.filter_filter]
      refine Table.filter_congr fun v _ => ?_
      rw [← Bool.not_or, ← Bool.decide_or, decide_eq_decide.mpr (takes_cons i visits v)]
    rw [List.foldl_cons, ih, hboth, destroyImageVideo_eq]

/-! ## Images -/

@[simp] theorem destroyMedia_nil (db : Database) : db.destroyMedia [] = db := by
  have himages : (db.images.filter fun m => !([] : List Nat).contains m.id) = db.images :=
    Table.filter_eq_self fun _ _ => rfl
  have hvideos : (db.videos.filter fun v => !decide (db.Takes [] v)) = db.videos :=
    Table.filter_eq_self fun v _ => by simp [takes_nil]
  rw [destroyMedia, himages, hvideos]

theorem destroyImage_eq (db : Database) (i : Nat) : db.destroyImage i = db.destroyMedia (db.copies i) := by
  rw [destroyImage, destroyVideos_eq, destroyMedia, copies]

theorem takes_append (visits visits' : List Nat) (v : Video) :
    db.Takes (visits ++ visits') v ↔ db.Takes visits v ∨ (db.destroyMedia visits).Takes visits' v := by
  have hrest : ∀ db : Database, db.Takes (visits ++ visits') v ↔
      db.Takes visits v ∨ (visits.foldl destroyImageVideo db).Takes visits' v := by
    induction visits with
    | nil => simp [takes_nil]
    | cons i visits ih =>
      intro db
      rw [List.cons_append, takes_cons, ih, takes_cons i visits, or_assoc, List.foldl_cons]
  rw [hrest, destroyVideos_eq]
  rfl

theorem destroyMedia_append (db : Database) (visits visits' : List Nat) :
    (db.destroyMedia visits).destroyMedia visits' = db.destroyMedia (visits ++ visits') := by
  have himages : (db.images.filter fun m => !visits.contains m.id).filter (fun m => !visits'.contains m.id) =
      db.images.filter fun m => !(visits ++ visits').contains m.id := by
    rw [Table.filter_filter]
    refine Table.filter_congr fun m _ => ?_
    simp
  have hvideos : (db.videos.filter fun v => !decide (db.Takes visits v)).filter
      (fun v => !decide ((db.destroyMedia visits).Takes visits' v)) =
      db.videos.filter fun v => !decide (db.Takes (visits ++ visits') v) := by
    rw [Table.filter_filter]
    refine Table.filter_congr fun v _ => ?_
    rw [← Bool.not_or, ← Bool.decide_or, decide_eq_decide.mpr (takes_append visits visits' v)]
  have htwice : (db.destroyMedia visits).destroyMedia visits' = { db with
      images := (db.images.filter fun m => !visits.contains m.id).filter fun m => !visits'.contains m.id
      videos := (db.videos.filter fun v => !decide (db.Takes visits v)).filter fun v =>
        !decide ((db.destroyMedia visits).Takes visits' v) } := rfl
  rw [htwice, himages, hvideos, destroyMedia]

/-- It does not matter in which order the images are come to. -/
theorem destroyMedia_perm (db : Database) (h : visits.Perm visits') : db.destroyMedia visits = db.destroyMedia visits' := by
  have himages : (db.images.filter fun m => !visits.contains m.id) = db.images.filter fun m => !visits'.contains m.id :=
    Table.filter_congr fun m _ => by rw [List.contains_eq_mem, List.contains_eq_mem, decide_eq_decide.mpr h.mem_iff]
  have htakes : ∀ v, db.Takes visits v ↔ db.Takes visits' v := by
    intro v
    unfold Takes
    simp only [h.count_eq]
  rw [destroyMedia, himages, destroyMedia]
  simp only [htakes]

theorem copies_map {f : Image → Image} (hrows : db'.images.rows = db.images.rows.map f)
    (hf : ∀ x, (f x).id = x.id ∧ (f x).originalId = x.originalId) (i : Nat) : db'.copies i = db.copies i := by
  have hdirect : ∀ i, (db'.images.rows.filter (·.originalId = some i)).map (·.id) =
      (db.images.rows.filter (·.originalId = some i)).map (·.id) := by
    intro i
    have hsame : ((fun x : Image => decide (x.originalId = some i)) ∘ f) = fun x => decide (x.originalId = some i) :=
      funext fun x => by rw [Function.comp, (hf x).2]
    rw [hrows, List.filter_map, hsame, List.map_map]
    exact List.map_congr_left fun x _ => (hf x).1
  have hremix : ∀ n i, db'.remixImages n i = db.remixImages n i := by
    intro n
    induction n with
    | zero => exact fun _ => rfl
    | succ n ih =>
      intro i
      rw [remixImages, remixImages, hdirect, funext ih]
  rw [copies, copies, hremix, hrows, List.length_map]

theorem copies_congr (h : db'.images = db.images) (i : Nat) : db'.copies i = db.copies i :=
  copies_map (f := id) (by rw [h, List.map_id]) (fun _ => ⟨rfl, rfl⟩) i

theorem copies_of_no_remixes (h : ∀ x ∈ db.images.rows, x.originalId ≠ some i) : db.copies i = [i] := by
  rw [copies]
  cases db.images.rows.length with
  | zero => rfl
  | succ n =>
    have hnone : db.images.rows.filter (·.originalId = some i) = [] :=
      List.filter_eq_nil_iff.mpr fun x hx => by simpa using h x hx
    rw [remixImages, hnone]
    rfl

theorem mem_copies_iff : j ∈ db.copies i ↔ db.RemixedFrom i j := mem_remixImages_iff

/-- An image whose video went first is destroyed with its next video. -/
theorem destroyImageVideo_destroyImage (db : Database) (i : Nat) :
    (db.destroyImageVideo i).destroyImage i = db.destroyMedia (i :: db.copies i) := by
  have himages : (db.destroyImageVideo i).images = db.images := images_destroyImageVideo db [i]
  have hgone : (db.images.filter fun m => !(db.copies i).contains m.id) =
      db.images.filter fun m => !(i :: db.copies i).contains m.id := by
    refine Table.filter_congr fun m _ => ?_
    have hself : i ∈ db.copies i := mem_copies_iff.mpr .self
    rw [List.contains_cons]
    by_cases hm : m.id = i
    · simp [hm, hself]
    · simp [hm]
  have hboth : (db.destroyImageVideo i).destroyMedia (db.copies i) =
      { (i :: db.copies i).foldl destroyImageVideo db with
        images := db.images.filter fun m => !(db.copies i).contains m.id } := by
    rw [List.foldl_cons, destroyVideos_eq, destroyMedia, himages]
  rw [destroyImage_eq, copies_congr himages, hboth, hgone, destroyVideos_eq, destroyMedia]

/-- The search for the copies of an image whose originals come to an end meets no image twice. -/
theorem nodup_copies (h : ¬ Chain.OnCycle db.originalIdOf i) : (db.copies i).Nodup := by
  have hclimb : ∀ {n i j}, j ∈ db.remixImages n i → ∃ k, Chain.climb db.originalIdOf k j = some i := fun hj =>
    climb_of_remixedFrom (remixedFrom_of_mem hj)
  rw [copies]
  generalize db.images.rows.length = n
  induction n generalizing i with
  | zero => exact List.nodup_singleton i
  | succ n ih =>
    have hdirect : ∀ x ∈ db.images.rows.filter (·.originalId = some i), db.originalIdOf x.id = some i := by
      intro x hx
      rw [List.mem_filter, decide_eq_true_eq] at hx
      have hfind : db.images.find? x.id = some x := Table.find?_of_mem hx.1
      rw [originalIdOf, hfind]
      exact hx.2
    -- below a direct copy `k` of the image, and so one step more below the image itself
    have hbelow : ∀ {k j : Nat}, k ∈ (db.images.rows.filter (·.originalId = some i)).map (·.id) → ∀ d,
        Chain.climb db.originalIdOf d j = some k → Chain.climb db.originalIdOf (d + 1) j = some i := by
      intro k j hk d hd
      obtain ⟨x, hx, rfl⟩ := List.mem_map.mp hk
      rw [Chain.climb_add, hd]
      exact hdirect x hx
    rw [remixImages, List.nodup_cons, List.nodup_flatMap]
    refine ⟨fun hmem => ?_, fun k hk => ih fun hcycle => ?_, ?_⟩
    · obtain ⟨k, hk, hi⟩ := List.mem_flatMap.mp hmem
      obtain ⟨d, hd⟩ := hclimb hi
      exact h ⟨d, hbelow hk d hd⟩
    · exact h (hcycle.of_climb (hbelow hk 0 rfl))
    · have hids : ((db.images.rows.filter (·.originalId = some i)).map (·.id)).Nodup :=
        db.images.nodup.sublist (List.filter_sublist.map _)
      refine List.Pairwise.imp_of_mem ?_ hids
      intro k l hk hl hne j hjk hjl
      obtain ⟨d, hd⟩ := hclimb hjk
      obtain ⟨e, he⟩ := hclimb hjl
      have hde := Chain.eq_of_climb_eq h (hbelow hk d hd) (hbelow hl e he)
      rw [Nat.add_right_cancel hde, he, Option.some.injEq] at hd
      exact hne hd.symm

end Database

/-! ## The remixes, one at a time -/

namespace ImagesController

open Database

/-- The loop over the remixes raises at one that was a video and has none. -/
def KeepsVideo (db : Database) (x : Image) : Prop :=
  x.videoId.isSome = true → ∃ v ∈ db.videos.rows, v.imageId = some x.id

instance (db : Database) (x : Image) : Decidable (KeepsVideo db x) :=
  inferInstanceAs (Decidable (_ → ∃ v ∈ db.videos.rows, _))

/-- The images that the loop comes to: the image of a video twice, for its video and for itself. -/
def remixVisits (db : Database) (ms : List Image) : List Nat :=
  (ms.takeWhile (KeepsVideo db ·)).flatMap fun x => (if x.videoId.isSome then [x.id] else []) ++ db.copies x.id

/-- The remixes that `destroy` deletes before an image that is none itself. -/
def directRemixes (db : Database) (m : Image) : List Image :=
  if m.originalId.isSome then []
  else (db.images.rows.filter (·.originalId = some m.id)).insertionSort (imageBefore · ·)

variable {db : Database} {m x : Image} {ms : List Image}

theorem originalIdOf_of_mem (hx : x ∈ db.images.rows) : db.originalIdOf x.id = x.originalId := by
  have hfind : db.images.find? x.id = some x := Table.find?_of_mem hx
  rw [originalIdOf, hfind]
  rfl

theorem destroyRemixes_cons (db : Database) (x : Image) (ms : List Image) :
    destroyRemixes (x :: ms) db =
      if KeepsVideo db x then
        destroyRemixes ms (db.destroyMedia ((if x.videoId.isSome then [x.id] else []) ++ db.copies x.id))
      else (false, db) := by
  rw [destroyRemixes]
  by_cases hsome : x.videoId.isSome = true
  · rw [if_pos hsome]
    cases hfind : db.videos.rows.find? (·.imageId = some x.id) with
    | none =>
      have hno : ¬ KeepsVideo db x := by
        intro h
        obtain ⟨v, hv, himage⟩ := h hsome
        have hother := List.find?_eq_none.mp hfind v hv
        exact hother (decide_eq_true himage)
      rw [if_neg hno]
    | some v =>
      have hx : KeepsVideo db x := fun _ => ⟨v, List.mem_of_find?_eq_some hfind, by simpa using List.find?_some hfind⟩
      rw [if_pos hx, if_pos hsome, List.singleton_append, ← destroyImageVideo_destroyImage, destroyImageVideo, hfind]
  · have hx : KeepsVideo db x := fun h => absurd h hsome
    rw [if_neg hsome, if_pos hx, if_neg hsome, List.nil_append, destroyImage_eq]

/-- No image is below two images that were remixed from one. -/
theorem eq_of_below (hm : ¬ Chain.OnCycle db.originalIdOf m.id) {i j k : Nat}
    (hi : db.originalIdOf i = some m.id) (hj : db.originalIdOf j = some m.id) (hki : db.RemixedFrom i k)
    (hkj : db.RemixedFrom j k) : i = j := by
  obtain ⟨d, hd⟩ := climb_of_remixedFrom hki
  obtain ⟨e, he⟩ := climb_of_remixedFrom hkj
  have hd' : Chain.climb db.originalIdOf (d + 1) k = some m.id := by
    rw [Chain.climb_add, hd]
    exact hi
  have he' : Chain.climb db.originalIdOf (e + 1) k = some m.id := by
    rw [Chain.climb_add, he]
    exact hj
  rw [Nat.add_right_cancel (Chain.eq_of_climb_eq hm hd' he'), he, Option.some.injEq] at hd
  exact hd.symm

theorem originalIdOf_destroyMedia {visits : List Nat} (i j : Nat)
    (h : (db.destroyMedia visits).originalIdOf i = some j) : db.originalIdOf i = some j := by
  obtain ⟨x, hx, ho⟩ := Option.bind_eq_some_iff.mp h
  obtain ⟨hmem, hid⟩ := Table.find?_eq_some.mp hx
  have hid' : x.id = i := hid
  rw [← hid', originalIdOf_of_mem (List.mem_of_mem_filter hmem)]
  exact ho

/-- What an image loses to the deletion of another one's copies, when they have no copy in common, is nothing. -/
theorem copies_destroyMedia {visits : List Nat} {i : Nat} (hi : ¬ Chain.OnCycle db.originalIdOf i)
    (hout : ∀ j, db.RemixedFrom i j → j ∉ visits) : ((db.destroyMedia visits).copies i).Perm (db.copies i) := by
  have hi' : ¬ Chain.OnCycle (db.destroyMedia visits).originalIdOf i := fun h => hi (h.of_sub originalIdOf_destroyMedia)
  refine (List.perm_ext_iff_of_nodup (nodup_copies hi') (nodup_copies hi)).mpr fun j => ?_
  rw [mem_copies_iff, mem_copies_iff]
  constructor
  · intro h
    induction h with
    | self => exact .self
    | copy hx ho _ ih => exact .copy (List.mem_of_mem_filter hx) ho ih
  · intro h
    induction h with
    | self => exact .self
    | copy hx ho hfrom ih =>
      refine .copy (List.mem_filter.mpr ⟨hx, ?_⟩) ho ih
      rw [Bool.not_eq_true', List.contains_eq_mem, decide_eq_false_iff_not]
      exact hout _ (.copy hx ho hfrom)

theorem keepsVideo_destroyMedia {visits : List Nat} (hx : x.id ∉ visits) :
    KeepsVideo (db.destroyMedia visits) x ↔ KeepsVideo db x := by
  have hvideo : (∃ v ∈ (db.destroyMedia visits).videos.rows, v.imageId = some x.id) ↔
      ∃ v ∈ db.videos.rows, v.imageId = some x.id := by
    refine exists_congr fun v => and_congr_left fun himage => ?_
    rw [destroyMedia, Table.rows_filter, List.mem_filter, Bool.not_eq_true', decide_eq_false_iff_not]
    refine and_iff_left_of_imp fun _ => ?_
    rintro ⟨j, hj, htake⟩
    rw [himage, Option.mem_some_iff] at hj
    rw [← hj, List.count_eq_zero.mpr hx] at htake
    simp at htake
  rw [KeepsVideo, hvideo, KeepsVideo]

/-- The loop over images that were remixed from one takes what it was said to come to. -/
theorem destroyRemixes_eq (hm : ¬ Chain.OnCycle db.originalIdOf m.id) (hn : (ms.map Image.id).Nodup)
    (hms : ∀ x ∈ ms, x ∈ db.images.rows ∧ x.originalId = some m.id) :
    destroyRemixes ms db = (decide (∀ x ∈ ms, KeepsVideo db x), db.destroyMedia (remixVisits db ms)) := by
  induction ms generalizing db with
  | nil => simp [destroyRemixes, remixVisits]
  | cons x ms ih =>
    rw [destroyRemixes_cons]
    by_cases hx : KeepsVideo db x
    · obtain ⟨⟨hxrow, hxo⟩, hms⟩ := List.forall_mem_cons.mp hms
      rw [List.map_cons, List.nodup_cons] at hn
      have hvisits : remixVisits db (x :: ms) =
          ((if x.videoId.isSome then [x.id] else []) ++ db.copies x.id) ++ remixVisits db ms := by
        have hdec : (fun x => decide (KeepsVideo db x)) x = true := decide_eq_true hx
        rw [remixVisits, List.takeWhile_cons, if_pos hdec, List.flatMap_cons, remixVisits]
      have hfrom : ∀ j ∈ (if x.videoId.isSome then [x.id] else []) ++ db.copies x.id, db.RemixedFrom x.id j := by
        intro j hj
        rcases List.mem_append.mp hj with hj | hj
        · split at hj
          · rw [List.mem_singleton.mp hj]
            exact .self
          · cases hj
        · exact mem_copies_iff.mp hj
      generalize (if x.videoId.isSome then [x.id] else []) ++ db.copies x.id = visits at hvisits hfrom
      -- the copies of the images that follow are out of reach
      have hout : ∀ y ∈ ms, ∀ j, db.RemixedFrom y.id j → j ∉ visits := by
        intro y hy j hj hvisit
        obtain ⟨hyrow, hyo⟩ := hms y hy
        have hyx := eq_of_below hm ((originalIdOf_of_mem hyrow).trans hyo) ((originalIdOf_of_mem hxrow).trans hxo) hj
          (hfrom j hvisit)
        rw [← hyx] at hn
        exact hn.1 (List.mem_map_of_mem hy)
      have hkept : ∀ y ∈ ms, y ∈ (db.destroyMedia visits).images.rows ∧ y.originalId = some m.id := by
        intro y hy
        refine ⟨List.mem_filter.mpr ⟨(hms y hy).1, ?_⟩, (hms y hy).2⟩
        rw [Bool.not_eq_true', List.contains_eq_mem, decide_eq_false_iff_not]
        exact hout y hy y.id .self
      have hvideo : ∀ y ∈ ms, (KeepsVideo (db.destroyMedia visits) y ↔ KeepsVideo db y) := fun y hy =>
        keepsVideo_destroyMedia (hout y hy y.id .self)
      have hperm : (remixVisits (db.destroyMedia visits) ms).Perm (remixVisits db ms) := by
        rw [remixVisits, List.takeWhile_congr fun y hy => decide_eq_decide.mpr (hvideo y hy), remixVisits]
        refine List.Perm.flatMap_left _ fun y hy => List.Perm.append_left _ ?_
        have hy' := (List.takeWhile_sublist _).subset hy
        obtain ⟨hyrow, hyo⟩ := hms y hy'
        refine copies_destroyMedia (fun hcycle => hm (hcycle.of_climb (n := 1) ?_)) (hout y hy')
        exact (originalIdOf_of_mem hyrow).trans hyo
      have hall : (∀ y ∈ ms, KeepsVideo (db.destroyMedia visits) y) ↔ ∀ y ∈ x :: ms, KeepsVideo db y := by
        rw [List.forall_mem_cons, and_iff_right hx]
        exact forall₂_congr hvideo
      rw [if_pos hx, ih (fun h => hm (h.of_sub originalIdOf_destroyMedia)) hn.2 hkept, destroyMedia_append,
        decide_eq_decide.mpr hall, hvisits, destroyMedia_perm db (hperm.append_left visits)]
    · have hall : ¬ ∀ y ∈ x :: ms, KeepsVideo db y := fun h => hx (h x List.mem_cons_self)
      have hdec : ¬ (fun x => decide (KeepsVideo db x)) x = true := fun h => hx (of_decide_eq_true h)
      rw [if_neg hx, decide_eq_false hall, remixVisits, List.takeWhile_cons, if_neg hdec, List.flatMap_nil,
        destroyMedia_nil]

/-- When the loop has come to its end no remix of the image is left. -/
theorem no_remixes_left (ho : ¬ m.originalId.isSome = true) (hdone : ∀ x ∈ directRemixes db m, KeepsVideo db x)
    (hx : x ∈ (db.destroyMedia (remixVisits db (directRemixes db m))).images.rows) : x.originalId ≠ some m.id := by
  intro hxo
  rw [destroyMedia, Table.rows_filter, List.mem_filter, Bool.not_eq_true', List.contains_eq_mem,
    decide_eq_false_iff_not] at hx
  have hdirect : x ∈ directRemixes db m := by
    rw [directRemixes, if_neg ho, List.mem_insertionSort, List.mem_filter, decide_eq_true_eq]
    exact ⟨hx.1, hxo⟩
  refine hx.2 (List.mem_flatMap.mpr ⟨x, ?_, List.mem_append_right _ (mem_copies_iff.mpr .self)⟩)
  rw [List.takeWhile_eq_self_iff.mpr fun y hy => decide_eq_true (hdone y hy)]
  exact hdirect

/-! ## The deletion by id -/

/-- After the remixes the deletion goes on when the image has a place among others. -/
def GoesOn (db : Database) (m : Image) : Prop :=
  (∀ x ∈ directRemixes db m, KeepsVideo db x) ∧ (siblings db m).isSome ∧ m.position.isSome

instance (db : Database) (m : Image) : Decidable (GoesOn db m) := inferInstanceAs (Decidable (_ ∧ _ ∧ _))

/-- The images that the deletion by id comes to.  Of an original no remixes are left when it goes itself. -/
def visits (db : Database) (m : Image) : List Nat :=
  remixVisits db (directRemixes db m) ++
    if GoesOn db m then if m.originalId.isSome then db.copies m.id else [m.id] else []

/-- An image beside `m` and behind it moves up, when the position of `m` is a place among those that are left. -/
def MovesUp (db : Database) (m x : Image) : Prop :=
  GoesOn db m ∧ ∃ beside ∈ siblings db m, ∃ k ∈ m.position,
    k < ((db.images.rows.filter fun y => beside y && !(remixVisits db (directRemixes db m)).contains y.id).length : Int) ∧
      beside x = true ∧ ∃ n ∈ x.position, k < n

instance (db : Database) (m x : Image) : Decidable (MovesUp db m x) :=
  inferInstanceAs (Decidable (_ ∧ ∃ beside ∈ siblings db m, _))

def moveUp (x : Image) : Image := { x with position := x.position.map (· - 1) }

/-- Moving up changes the position. -/
theorem moves_iff {x : Image} : (if MovesUp db m x then moveUp x else x) = x ↔ ¬ MovesUp db m x := by
  split
  · rename_i hmoves
    refine iff_of_false (fun hsame => ?_) (not_not.mpr hmoves)
    obtain ⟨-, beside, -, k, -, -, -, n, hn, -⟩ := hmoves
    have hposition : (moveUp x).position = x.position := congrArg Image.position hsame
    rw [moveUp, Option.mem_def.mp hn, Option.map_some, Option.some.injEq] at hposition
    omega
  · rename_i hstays
    exact iff_of_true rfl hstays

theorem beforeDestroy_eq (hm : m ∈ db.images.rows) :
    beforeDestroy m db = (decide (∀ x ∈ directRemixes db m, KeepsVideo db x),
      db.destroyMedia (remixVisits db (directRemixes db m))) := by
  rw [beforeDestroy, directRemixes]
  split
  · simp [remixVisits]
  · rename_i ho
    rw [Bool.not_eq_true, Option.isSome_eq_false_iff, Option.isNone_iff_eq_none] at ho
    have hcycle : ¬ Chain.OnCycle db.originalIdOf m.id := by
      rintro ⟨k, hk⟩
      rw [Chain.climb_succ', originalIdOf_of_mem hm, ho] at hk
      cases hk
    refine destroyRemixes_eq hcycle ?_ fun x hx => ?_
    · have hids : ((db.images.rows.filter (·.originalId = some m.id)).map Image.id).Nodup :=
        db.images.nodup.sublist (List.filter_sublist.map _)
      exact ((List.perm_insertionSort _ _).map _).nodup_iff.mpr hids
    · rw [List.mem_insertionSort, List.mem_filter, decide_eq_true_eq] at hx
      exact hx

/-- Which images are there beforehand and in which order: only the positions of those that move up change. -/
theorem rows_closeGap_moveUp (beside : Image → Bool) (k : Int) (db : Database) :
    (closeGap beside k db).images.rows =
      db.images.rows.map fun x => if beside x = true ∧ ∃ n ∈ x.position, k < n then moveUp x else x := by
  rw [closeGap, Table.rows_map]
  refine List.map_congr_left fun x _ => ?_
  cases hn : x.position with
  | none => simp
  | some n =>
    dsimp only
    simp only [Bool.and_eq_true, decide_eq_true_eq, gt_iff_lt, Option.mem_def, Option.some.injEq, exists_eq_left']
    split
    · rw [moveUp, hn]
      rfl
    · rfl

theorem moveUp_if_keeps (c : Image → Prop) [DecidablePred c] (x : Image) :
    (if c x then moveUp x else x).id = x.id ∧ (if c x then moveUp x else x).originalId = x.originalId := by
  split <;> exact ⟨rfl, rfl⟩

/-- A deletion that does not get to its end moves nothing. -/
theorem not_movesUp (h : ¬ GoesOn db m) (l : List Image) :
    l.map (fun x => if MovesUp db m x then moveUp x else x) = l :=
  List.map_eq_self_of_forall fun _ _ => if_neg fun hmoves => h hmoves.1

/-- The images that move up are those behind the position `k`, when there is a gap. -/
theorem movesUp_iff {beside : Image → Bool} {k : Int} (hgo : GoesOn db m) (hbeside : siblings db m = some beside)
    (hk : m.position = some k) (x : Image) :
    MovesUp db m x ↔
      k < (((db.destroyMedia (remixVisits db (directRemixes db m))).images.rows.filter beside).length : Int) ∧
        beside x = true ∧ ∃ n ∈ x.position, k < n := by
  have hcount : ((db.destroyMedia (remixVisits db (directRemixes db m))).images.rows.filter beside).length =
      (db.images.rows.filter fun y =>
        beside y && !(remixVisits db (directRemixes db m)).contains y.id).length := by
    rw [destroyMedia, Table.rows_filter, List.filter_filter]
  rw [MovesUp, and_iff_right hgo, hbeside, hk, hcount]
  simp

/-- The gap that the image leaves is closed. -/
theorem rows_gapClosed {beside : Image → Bool} {k : Int} (hgo : GoesOn db m) (hbeside : siblings db m = some beside)
    (hk : m.position = some k) {R : List Nat} (hR : remixVisits db (directRemixes db m) = R) :
    (if k < (((db.destroyMedia R).images.rows.filter beside).length : Int) then
        closeGap beside k (db.destroyMedia R) else db.destroyMedia R).images.rows =
      (db.destroyMedia R).images.rows.map fun x => if MovesUp db m x then moveUp x else x := by
  simp only [movesUp_iff hgo hbeside hk, hR]
  by_cases hgap : k < (((db.destroyMedia R).images.rows.filter beside).length : Int)
  · simp only [hgap, if_true, true_and]
    exact rows_closeGap_moveUp beside k _
  · simp only [hgap, if_false, false_and]
    exact (List.map_id' _).symm

/-- The copies that are left to the deletion of the image itself. -/
theorem copies_left {db₂ : Database} {R : List Nat} (hdone : ∀ x ∈ directRemixes db m, KeepsVideo db x)
    (hR : remixVisits db (directRemixes db m) = R)
    (hrows : db₂.images.rows = (db.destroyMedia R).images.rows.map fun x => if MovesUp db m x then moveUp x else x) :
    db₂.copies m.id = if m.originalId.isSome then db.copies m.id else [m.id] := by
  rw [copies_map hrows (moveUp_if_keeps (MovesUp db m))]
  split
  · rename_i ho
    have hnone : R = [] := by
      rw [← hR, directRemixes, if_pos ho]
      rfl
    rw [hnone, destroyMedia_nil]
  · rename_i ho
    subst hR
    exact copies_of_no_remixes fun x hx => no_remixes_left ho hdone hx

/-- What is written to the images and the videos by a deletion by id. -/
theorem rows_destroyById (hm : m ∈ db.images.rows) (now : Nat) :
    (destroyById now m db).2.images.rows =
        ((db.images.rows.map fun x => if MovesUp db m x then moveUp x else x).filter fun x =>
          !(visits db m).contains x.id) ∧
      (destroyById now m db).2.videos.rows =
        db.videos.rows.filter fun v => !decide (db.Takes (visits db m) v) := by
  have hbefore := beforeDestroy_eq hm
  rcases destroyById_cases hm now with ⟨hstop, heq⟩ | ⟨beside, k, hbeside, hk, hdone, heq⟩
  · rw [hbefore] at hstop
    have hno : ¬ GoesOn db m := by
      rintro ⟨hdone, hbeside, hk⟩
      have hgo : (decide (∀ x ∈ directRemixes db m, KeepsVideo db x) && (siblings db m).isSome &&
          m.position.isSome) = true := by rw [decide_eq_true hdone, hbeside, hk]; rfl
      exact Bool.false_ne_true (hstop.symm.trans hgo)
    rw [heq, hbefore, visits, if_neg hno, List.append_nil, not_movesUp hno]
    exact ⟨rfl, rfl⟩
  · rw [hbefore] at hbeside hdone heq
    have hsiblings : siblings db m = some beside := hbeside
    have hgo : GoesOn db m := ⟨of_decide_eq_true hdone, by rw [hsiblings]; rfl, by rw [hk]; rfl⟩
    rw [visits, if_pos hgo]
    generalize hR : remixVisits db (directRemixes db m) = R at heq
    obtain ⟨db₂, hdb₂⟩ : ∃ db₂, (if k < (((db.destroyMedia R).images.rows.filter beside).length : Int) then
        closeGap beside k (db.destroyMedia R) else db.destroyMedia R) = db₂ := ⟨_, rfl⟩
    have hrows := rows_gapClosed hgo hsiblings hk hR
    have hvideos : db₂.videos = (db.destroyMedia R).videos := by
      rw [← hdb₂]
      split <;> rfl
    rw [hdb₂] at hrows heq
    rw [heq, destroyImage_eq, copies_left (of_decide_eq_true hdone) hR hrows]
    generalize (if m.originalId.isSome then db.copies m.id else [m.id]) = C
    constructor
    · rw [destroyMedia, Table.rows_filter, hrows, destroyMedia, Table.rows_filter, List.filter_map, List.filter_map,
        List.filter_filter]
      congr 1
      refine List.filter_congr fun x _ => ?_
      rw [Function.comp, Function.comp, (moveUp_if_keeps (MovesUp db m) x).1]
      simp [Bool.and_comm]
    · rw [destroyMedia, Table.rows_filter, hvideos, destroyMedia, Table.rows_filter, List.filter_filter]
      refine List.filter_congr fun v _ => ?_
      have htakes : db₂.Takes C v ↔ (db.destroyMedia R).Takes C v := by rw [Takes, hvideos, Takes]
      rw [← Bool.not_or, ← Bool.decide_or]
      congr 1
      rw [decide_eq_decide, takes_append, htakes]
      exact or_comm

end ImagesController
