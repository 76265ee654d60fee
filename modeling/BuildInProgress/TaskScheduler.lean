import BuildInProgress.ImageCascade
import BuildInProgress.ImagePositions

/-!
# The cleanup job

`config/initializers/task_scheduler.rb` runs every twelve hours.  It deletes the uploads of images that are
taken to be stored and clears their address, destroys drafts, and destroys images without any file.  The
reader `image.image_path` answers an uploader even for an empty column, so the first pass takes every image
that has an address and was not updated in the last five minutes.
-/

open Text Database

/-- The database with the stamps of its images and the objects of the bucket. -/
structure Storage where
  db : Database
  /-- `images.updated_at` -/
  updatedAt : Nat → Nat
  bucket : List Text

namespace TaskScheduler

/-! ## The three passes -/

/-- `image.s3_filepath.split("/")[5]` -/
def foldername (m : Image) : Option Text := m.s3Filepath.bind fun path => (split '/' path)[5]?

/-- `'uploads/' + foldername` -/
def folderPath (foldername : Text) : Text := "uploads/".toList ++ foldername

/-- `image.updated_at < 5.minute.ago` -/
def settled (now : Nat) (s : Storage) (m : Image) : Bool := s.updatedAt m.id + 300 < now

/-- `image.updated_at > 24.hours.ago` -/
def recent (now : Nat) (s : Storage) (m : Image) : Bool := now < s.updatedAt m.id + 86400

/-- `Image.where(..)`, in the order of the default scope. -/
def imagesWhere (s : Storage) (p : Image → Bool) : List Image :=
  (s.db.images.rows.filter p).insertionSort (imageBefore · ·)

/-- The upload is deleted with its folder, and its address cleared. -/
def clearUpload (now : Nat) (m : Image) (foldername : Text) (s : Storage) : Storage where
  db := ImagesController.modifyImage s.db m.id (fun m => { m with s3Filepath := none }) (fun _ => rfl)
  updatedAt := Function.update s.updatedAt m.id now
  bucket := s.bucket.filter fun key => !startsWith key (folderPath foldername)

/-- The loop over the images to clear; an address without a folder raises. -/
def clearUploads (now : Nat) : List Image → Storage → Bool × Storage
  | [], s => (true, s)
  | m :: ms, s =>
    match foldername m with
    | none => (false, s)
    | some folder => clearUploads now ms (clearUpload now m folder s)

def destroyImages (ms : List Image) (s : Storage) : Storage :=
  { s with db := (ms.map Image.id).foldl destroyImage s.db }

/-- delete images that have been saved from the uploaded folder -/
def deleteSaved (now : Nat) (s : Storage) : Bool × Storage :=
  clearUploads now ((imagesWhere s fun m => m.s3Filepath.isSome).filter (settled now s)) s

/-- delete images that were unsaved in a step -/
def deleteUnsaved (now : Nat) (s : Storage) : Storage :=
  destroyImages ((imagesWhere s fun m => m.stepId = some (-1)).filter (recent now s)) s

/-- destroy empty images -/
def destroyEmpty (s : Storage) : Storage :=
  destroyImages (imagesWhere s fun m => m.imagePath.isNone && m.s3Filepath.isNone) s

/-- `scheduler.every '12h'`; an exception in the first pass ends the run. -/
def run (now : Nat) (s : Storage) : Storage :=
  let r := deleteSaved now s
  if r.1 then destroyEmpty (deleteUnsaved now r.2) else r.2

/-! ## What the run takes -/

/-- The images the first pass would clear. -/
def toClear (now : Nat) (s : Storage) : List Image :=
  (imagesWhere s fun m => m.s3Filepath.isSome).filter (settled now s)

/-- The images the first pass does clear, up to the address that raises. -/
def cleared (now : Nat) (s : Storage) : List Image := (toClear now s).takeWhile fun m => (foldername m).isSome

/-- The first pass gets through. -/
def completes (now : Nat) (s : Storage) : Bool := (toClear now s).all fun m => (foldername m).isSome

/-- The images the other two passes destroy: drafts that are recent, or have just been cleared, and images
that have no file, or none after the first pass. -/
def Goes (now : Nat) (s : Storage) (m : Image) : Prop :=
  (m.stepId = some (-1) ∧ (m ∈ cleared now s ∨ recent now s m = true)) ∨
    (m.imagePath = none ∧ (m ∈ cleared now s ∨ m.s3Filepath = none))

theorem mem_imagesWhere {s : Storage} {p : Image → Bool} {m : Image} :
    m ∈ imagesWhere s p ↔ m ∈ s.db.images.rows ∧ p m = true := by
  rw [imagesWhere, List.mem_insertionSort, List.mem_filter]

theorem mem_cleared_rows {now : Nat} {s : Storage} {m : Image} (h : m ∈ cleared now s) : m ∈ s.db.images.rows :=
  (mem_imagesWhere.mp (List.mem_of_mem_filter (List.takeWhile_subset _ h))).1

theorem nodup_toClear (now : Nat) (s : Storage) : ((toClear now s).map Image.id).Nodup := by
  have hperm : (imagesWhere s fun m => m.s3Filepath.isSome).Perm (s.db.images.rows.filter fun m =>
      m.s3Filepath.isSome) := List.perm_insertionSort _ _
  have hnodup : ((imagesWhere s fun m => m.s3Filepath.isSome).map Image.id).Nodup := by
    rw [(hperm.map Image.id).nodup_iff]
    exact s.db.images.nodup.sublist (List.filter_sublist.map _)
  exact hnodup.sublist (List.filter_sublist.map _)

/-- The row after the first pass. -/
def clear (now : Nat) (s : Storage) (m : Image) : Image :=
  if m.id ∈ (cleared now s).map Image.id then { m with s3Filepath := none } else m

-- the loop clears the images up to the one that raises
theorem clearUploads_spec (now : Nat) {ms : List Image} (hnodup : (ms.map Image.id).Nodup) (s : Storage) :
    let taken := ms.takeWhile fun m => (foldername m).isSome
    let r := clearUploads now ms s
    r.1 = ms.all (fun m => (foldername m).isSome) ∧
      r.2.db.images.rows = s.db.images.rows.map (fun m =>
        if m.id ∈ taken.map Image.id then { m with s3Filepath := none } else m) ∧
      (∀ i, r.2.updatedAt i = if i ∈ taken.map Image.id then now else s.updatedAt i) ∧
      ∀ key, key ∈ r.2.bucket ↔ key ∈ s.bucket ∧ ∀ x ∈ taken, ∀ f ∈ foldername x,
        startsWith key (folderPath f) = false := by
  induction ms generalizing s with
  | nil =>
    refine ⟨rfl, ?_, fun i => rfl, fun key => ?_⟩
    · exact (List.map_eq_self_of_forall fun m _ => if_neg List.not_mem_nil).symm
    · simp [clearUploads]
  | cons m ms ih =>
    rw [List.map_cons, List.nodup_cons] at hnodup
    cases hfolder : foldername m with
    | none =>
      -- an address without a folder raises, and the rest is not cleared
      have hstop : ((m :: ms).takeWhile fun m => (foldername m).isSome) = [] := by
        rw [List.takeWhile_cons, hfolder]
        rfl
      rw [clearUploads, hfolder, hstop, List.all_cons, hfolder]
      refine ⟨rfl, ?_, fun i => rfl, fun key => ?_⟩
      · exact (List.map_eq_self_of_forall fun x _ => if_neg List.not_mem_nil).symm
      · simp
    | some folder =>
      have hgo : ((m :: ms).takeWhile fun m => (foldername m).isSome) =
          m :: ms.takeWhile fun m => (foldername m).isSome := by
        rw [List.takeWhile_cons, hfolder]
        rfl
      obtain ⟨hdone, hrows, hstamp, hbucket⟩ := ih hnodup.2 (clearUpload now m folder s)
      have hm : m.id ∉ (ms.takeWhile fun m => (foldername m).isSome).map Image.id := fun h =>
        hnodup.1 (((List.takeWhile_sublist _).map Image.id).subset h)
      dsimp only at hdone hrows hstamp hbucket ⊢
      rw [clearUploads, hfolder, hgo, List.all_cons, hfolder, Option.isSome_some, Bool.true_and]
      dsimp only
      refine ⟨hdone, ?_, fun i => ?_, fun key => ?_⟩
      · rw [hrows, clearUpload, ImagesController.modifyImage]
        dsimp only
        rw [Table.rows_modify, List.map_map]
        apply List.map_congr_left
        intro x _
        rw [Function.comp]
        have hkey : Keyed.key x = x.id := rfl
        rw [hkey, List.map_cons]
        by_cases hx : x.id = m.id
        · rw [if_pos hx, hx, if_neg hm, if_pos List.mem_cons_self]
        · rw [if_neg hx]
          simp only [List.mem_cons, hx, false_or]
      · rw [hstamp, clearUpload, List.map_cons]
        dsimp only
        by_cases hi : i = m.id
        · rw [hi, if_neg hm, if_pos List.mem_cons_self, Function.update_self]
        · rw [Function.update_of_ne hi]
          simp only [List.mem_cons, hi, false_or]
      · rw [hbucket, clearUpload]
        dsimp only
        rw [List.mem_filter, Bool.not_eq_true']
        simp only [List.mem_cons, forall_eq_or_imp, hfolder, Option.mem_def, Option.some.injEq, forall_eq',
          and_assoc]

theorem deleteSaved_spec (now : Nat) (s : Storage) :
    (deleteSaved now s).1 = completes now s ∧
      (deleteSaved now s).2.db.images.rows = s.db.images.rows.map (clear now s) ∧
      (∀ i, (deleteSaved now s).2.updatedAt i =
        if i ∈ (cleared now s).map Image.id then now else s.updatedAt i) ∧
      ∀ key, key ∈ (deleteSaved now s).2.bucket ↔ key ∈ s.bucket ∧ ∀ x ∈ cleared now s, ∀ f ∈ foldername x,
        startsWith key (folderPath f) = false :=
  clearUploads_spec now (nodup_toClear now s) s

theorem mem_map_cleared {now : Nat} {s : Storage} {m : Image} (hm : m ∈ s.db.images.rows) :
    m.id ∈ (cleared now s).map Image.id ↔ m ∈ cleared now s := by
  constructor
  · intro h
    obtain ⟨x, hx, hid⟩ := List.mem_map.mp h
    rw [← Table.eq_of_key (mem_cleared_rows hx) hm hid]
    exact hx
  · exact List.mem_map_of_mem

theorem clear_of_mem {now : Nat} {s : Storage} {m : Image} (h : m ∈ cleared now s) :
    clear now s m = { m with s3Filepath := none } := if_pos (List.mem_map_of_mem h)

theorem clear_of_notMem {now : Nat} {s : Storage} {m : Image} (hm : m ∈ s.db.images.rows) (h : m ∉ cleared now s) :
    clear now s m = m := if_neg fun hid => h ((mem_map_cleared hm).mp hid)

theorem clear_columns (now : Nat) (s : Storage) (m : Image) :
    (clear now s m).id = m.id ∧ (clear now s m).projectId = m.projectId ∧
      (clear now s m).originalId = m.originalId ∧ (clear now s m).stepId = m.stepId ∧
      (clear now s m).imagePath = m.imagePath := by
  unfold clear
  split
  · exact ⟨rfl, rfl, rfl, rfl, rfl⟩
  · exact ⟨rfl, rfl, rfl, rfl, rfl⟩

-- the first pass changes no reference between images
theorem remixedFrom_deleteSaved (now : Nat) (s : Storage) (i j : Nat) :
    (deleteSaved now s).2.db.RemixedFrom i j ↔ s.db.RemixedFrom i j :=
  remixedFrom_map (deleteSaved_spec now s).2.1 fun x => ⟨(clear_columns now s x).1, (clear_columns now s x).2.2.1⟩

/-- The drafts that go, and the empty images that go. -/
theorem mem_destroyed {now : Nat} {s : Storage} {x : Image} :
    x ∈ (destroyEmpty (deleteUnsaved now s)).db.images.rows ↔ x ∈ s.db.images.rows ∧
      ∀ z ∈ s.db.images.rows, (z.stepId = some (-1) ∧ recent now s z = true) ∨
        (z.imagePath = none ∧ z.s3Filepath = none) → ¬ s.db.RemixedFrom z.id x.id := by
  have hdrafts : ∀ i, i ∈ ((imagesWhere s fun m => m.stepId = some (-1)).filter (recent now s)).map Image.id ↔
      ∃ z ∈ s.db.images.rows, (z.stepId = some (-1) ∧ recent now s z = true) ∧ z.id = i := by
    intro i
    simp only [List.mem_map, List.mem_filter, mem_imagesWhere, decide_eq_true_eq, and_assoc]
  have hempty : ∀ i, i ∈ (imagesWhere (deleteUnsaved now s) fun m => m.imagePath.isNone &&
      m.s3Filepath.isNone).map Image.id ↔ ∃ z ∈ (deleteUnsaved now s).db.images.rows,
        (z.imagePath = none ∧ z.s3Filepath = none) ∧ z.id = i := by
    intro i
    simp only [List.mem_map, mem_imagesWhere, Bool.and_eq_true, Option.isNone_iff_eq_none, and_assoc]
  have hunsaved : ∀ z, z ∈ (deleteUnsaved now s).db.images.rows ↔ z ∈ s.db.images.rows ∧
      ∀ i ∈ ((imagesWhere s fun m => m.stepId = some (-1)).filter (recent now s)).map Image.id,
        ¬ s.db.RemixedFrom i z.id := fun z => mem_images_destroyImages
  rw [destroyEmpty, destroyImages]
  dsimp only
  generalize hjs : (imagesWhere (deleteUnsaved now s) fun m => m.imagePath.isNone &&
    m.s3Filepath.isNone).map Image.id = js at hempty
  rw [deleteUnsaved, destroyImages]
  dsimp only
  generalize ((imagesWhere s fun m => m.stepId = some (-1)).filter (recent now s)).map Image.id = is at *
  rw [← List.foldl_append, mem_images_destroyImages]
  apply and_congr_right
  intro hx
  constructor
  · intro hall z hz hgoes hfrom
    -- the second pass sees only what the first has left
    have hkept : ∀ i ∈ is, ¬ s.db.RemixedFrom i z.id := fun i hi hiz =>
      hall i (List.mem_append_left _ hi) (hiz.trans hfrom)
    rcases hgoes with hdraft | hnofile
    · exact hkept z.id ((hdrafts z.id).mpr ⟨z, hz, hdraft, rfl⟩) .self
    · refine hall z.id (List.mem_append_right _ ((hempty z.id).mpr ⟨z, ?_, hnofile, rfl⟩)) hfrom
      exact (hunsaved z).mpr ⟨hz, hkept⟩
  · intro hall i hi
    rcases List.mem_append.mp hi with hi | hi
    · obtain ⟨z, hz, hdraft, rfl⟩ := (hdrafts i).mp hi
      exact hall z hz (Or.inl hdraft)
    · obtain ⟨z, hz, hnofile, rfl⟩ := (hempty i).mp hi
      exact hall z ((hunsaved z).mp hz).1 (Or.inr hnofile)

theorem goes_clear {now : Nat} {s : Storage} {z : Image} (hz : z ∈ s.db.images.rows) :
    Goes now s z ↔ ((clear now s z).stepId = some (-1) ∧ recent now (deleteSaved now s).2 (clear now s z) = true) ∨
      ((clear now s z).imagePath = none ∧ (clear now s z).s3Filepath = none) := by
  have hcolumns := clear_columns now s z
  have hstamp := (deleteSaved_spec now s).2.2.1 z.id
  have hrecent : recent now (deleteSaved now s).2 (clear now s z) = true ↔
      z ∈ cleared now s ∨ recent now s z = true := by
    rw [recent, recent, hcolumns.1, hstamp, decide_eq_true_eq, decide_eq_true_eq]
    split
    · rename_i hmem
      exact iff_of_true (by omega) (Or.inl ((mem_map_cleared hz).mp hmem))
    · rename_i hmem
      rw [or_iff_right fun h => hmem ((mem_map_cleared hz).mpr h)]
  have hfile : (clear now s z).s3Filepath = none ↔ z ∈ cleared now s ∨ z.s3Filepath = none := by
    by_cases hmem : z ∈ cleared now s
    · rw [clear_of_mem hmem]
      exact iff_of_true rfl (Or.inl hmem)
    · rw [clear_of_notMem hz hmem, or_iff_right hmem]
  rw [Goes, hcolumns.2.2.2.1, hcolumns.2.2.2.2, hrecent, hfile]

/-- What a run leaves: the rows as the first pass left them, without what goes and its copies. -/
theorem mem_run {now : Nat} {s : Storage} {y : Image} :
    y ∈ (run now s).db.images.rows ↔ ∃ x ∈ s.db.images.rows, y = clear now s x ∧
      (completes now s = true → ∀ z ∈ s.db.images.rows, Goes now s z → ¬ s.db.RemixedFrom z.id x.id) := by
  obtain ⟨hdone, hrows, -, -⟩ := deleteSaved_spec now s
  unfold run
  dsimp only
  rw [hdone]
  cases completes now s with
  | false =>
    rw [if_neg (by decide), hrows, List.mem_map]
    exact ⟨fun ⟨x, hx, heq⟩ => ⟨x, hx, heq.symm, fun h => by cases h⟩, fun ⟨x, hx, heq, _⟩ => ⟨x, hx, heq.symm⟩⟩
  | true =>
    rw [if_pos rfl, mem_destroyed, hrows]
    simp only [List.forall_mem_map, remixedFrom_deleteSaved, (clear_columns now s _).1, forall_prop_of_true]
    constructor
    · rintro ⟨hy, hall⟩
      obtain ⟨x, hx, rfl⟩ := List.mem_map.mp hy
      refine ⟨x, hx, rfl, fun z hz hgoes => ?_⟩
      have hkept := hall z hz ((goes_clear hz).mp hgoes)
      rw [(clear_columns now s x).1] at hkept
      exact hkept
    · rintro ⟨x, hx, rfl, hall⟩
      refine ⟨List.mem_map_of_mem hx, fun z hz hgoes => ?_⟩
      rw [(clear_columns now s x).1]
      exact hall z hz ((goes_clear hz).mpr hgoes)

/-! ## Saved images -/

/-- The key of an upload, `uploads/{unique_id}/${filename}`, behind the host and the bucket. -/
def objectKey (path : Text) : Text := join '/' ((split '/' path).drop 4)

/-- There is a file for the image: a stored one, or its upload. -/
def StoredCopy (s : Storage) (m : Image) : Prop :=
  m.imagePath.isSome = true ∨ ∃ path ∈ m.s3Filepath, objectKey path ∈ s.bucket

/-- An image that has only its upload is not cleared and shares no folder with one that is; no image is a
copy, at any remove, of one that goes. -/
def Spares (now : Nat) (s : Storage) (m : Image) : Prop :=
  (m.imagePath = none → m ∉ cleared now s ∧ ∀ path ∈ m.s3Filepath, ∀ x ∈ cleared now s, ∀ f ∈ foldername x,
      startsWith (objectKey path) (folderPath f) = false) ∧
    (completes now s = true → ∀ z ∈ s.db.images.rows, Goes now s z → ¬ s.db.RemixedFrom z.id m.id)

-- the later passes destroy rows
theorem bucket_destroyEmpty (s : Storage) : (destroyEmpty s).bucket = s.bucket := rfl

theorem bucket_run (now : Nat) (s : Storage) : (run now s).bucket = (deleteSaved now s).2.bucket := by
  unfold run
  dsimp only
  split
  · rw [bucket_destroyEmpty]
    rfl
  · rfl

theorem storedCopy_run {now : Nat} {s : Storage} {m : Image} (hm : m ∈ s.db.images.rows) (hstored : StoredCopy s m) :
    StoredCopy (run now s) (clear now s m) ↔ (m.imagePath = none → m ∉ cleared now s ∧
      ∀ path ∈ m.s3Filepath, ∀ x ∈ cleared now s, ∀ f ∈ foldername x,
        startsWith (objectKey path) (folderPath f) = false) := by
  have hbucket := (deleteSaved_spec now s).2.2.2
  rw [StoredCopy, (clear_columns now s m).2.2.2.2, bucket_run]
  cases hpath : m.imagePath with
  | some path => exact iff_of_true (Or.inl rfl) fun h => by cases h
  | none =>
    rw [or_iff_right (by decide), forall_prop_of_true rfl]
    have hupload : ∃ path ∈ m.s3Filepath, objectKey path ∈ s.bucket := by
      rcases hstored with hset | hup
      · rw [hpath] at hset
        cases hset
      · exact hup
    obtain ⟨path, hp, hkey⟩ := hupload
    by_cases hmem : m ∈ cleared now s
    · rw [clear_of_mem hmem]
      refine iff_of_false ?_ fun h => h.1 hmem
      rintro ⟨q, hq, -⟩
      cases hq
    · rw [clear_of_notMem hm hmem, and_iff_right hmem]
      have hone : ∀ q ∈ m.s3Filepath, q = path := by
        intro q hq
        rw [Option.mem_def] at hp hq
        rw [hp, Option.some.injEq] at hq
        exact hq.symm
      constructor
      · rintro ⟨q, hq, hin⟩ r hr
        rw [hone q hq] at hin
        rw [hone r hr]
        exact ((hbucket _).mp hin).2
      · intro hall
        exact ⟨path, hp, (hbucket _).mpr ⟨hkey, hall path hp⟩⟩

theorem survives_iff {now : Nat} {s : Storage} {m : Image} (hm : m ∈ s.db.images.rows) (hstored : StoredCopy s m) :
    (∃ y ∈ (run now s).db.images.rows, y.id = m.id ∧ StoredCopy (run now s) y) ↔ Spares now s m := by
  constructor
  · rintro ⟨y, hy, hid, hcopy⟩
    obtain ⟨x, hx, rfl, hkept⟩ := mem_run.mp hy
    have hxm : x = m := Table.eq_of_key hx hm ((clear_columns now s x).1.symm.trans hid)
    subst hxm
    exact ⟨(storedCopy_run hm hstored).mp hcopy, hkept⟩
  · rintro ⟨hfile, hkept⟩
    exact ⟨clear now s m, mem_run.mpr ⟨m, hm, rfl, hkept⟩, (clear_columns now s m).1,
      (storedCopy_run hm hstored).mpr hfile⟩

/-- A run keeps every image of a step that has a file, with a file, exactly when it spares each of them. -/
theorem cleanup_keeps_saved_images_iff (s : Storage) (now : Nat) :
    (∀ m ∈ s.db.images.rows, m.stepId ≠ some (-1) → StoredCopy s m →
      ∃ y ∈ (run now s).db.images.rows, y.id = m.id ∧ StoredCopy (run now s) y) ↔
    ∀ m ∈ s.db.images.rows, m.stepId ≠ some (-1) → StoredCopy s m → Spares now s m := by
  refine forall₂_congr fun m hm => forall_congr' fun _ => forall_congr' fun hstored => ?_
  exact survives_iff hm hstored

/-- An image of step 1 whose upload the delayed job has not stored yet. -/
def waitingUpload : Storage where
  db := { oneStep with
    images := .ofRows [⟨1, some 1, some 1, none, none, some 0, some true, none, none, some 1,
      some "https://s3.amazonaws.com/bip/uploads/f7/a.jpg".toList, none, none⟩] 2 (by decide) }
  updatedAt := fun _ => 0
  bucket := ["uploads/f7/a.jpg".toList]

/-- Ten minutes after the upload the job deletes the file, clears the address and destroys the row. -/
theorem waiting_upload_lost :
    (∃ m ∈ waitingUpload.db.images.rows, m.stepId = some 1 ∧ StoredCopy waitingUpload m) ∧
    (run 600 waitingUpload).bucket = [] ∧ (run 600 waitingUpload).db.images.rows = [] ∧
    ¬ ∀ m ∈ waitingUpload.db.images.rows, m.stepId ≠ some (-1) → StoredCopy waitingUpload m →
      ∃ y ∈ (run 600 waitingUpload).db.images.rows, y.id = m.id ∧ StoredCopy (run 600 waitingUpload) y := by
  have hrows : (run 600 waitingUpload).db.images.rows = [] := by decide +kernel
  have hstored : ∀ m ∈ waitingUpload.db.images.rows, m.stepId = some 1 ∧ StoredCopy waitingUpload m := by
    unfold StoredCopy
    decide +kernel
  have hex : ∃ m ∈ waitingUpload.db.images.rows, m.stepId = some 1 := by decide +kernel
  obtain ⟨m, hm, hstep⟩ := hex
  refine ⟨⟨m, hm, hstored m hm⟩, by decide +kernel, hrows, fun hall => ?_⟩
  obtain ⟨y, hy, -⟩ := hall m hm (by rw [hstep]; decide) (hstored m hm).2
  rw [hrows] at hy
  cases hy

end TaskScheduler
