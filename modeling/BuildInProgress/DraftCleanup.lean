import BuildInProgress.Composing
import BuildInProgress.TaskScheduler

/-!
# Composing while the cleanup job runs

An author uploads images for a step that is not saved yet and then submits the form.  The job may run at
any point in between.  It means to destroy drafts that nobody has touched for a day, but its comparison is
the other way round: it takes the drafts of the last day and leaves the old ones.
-/

open Text Database

/-! ## Stamps -/

namespace Storage

/-- The images that a request has changed are stamped. -/
def save (now : Nat) (s : Storage) (db : Database) : Storage where
  db := db
  updatedAt := fun i => if db.images.find? i = s.db.images.find? i then s.updatedAt i else now
  bucket := s.bucket

theorem le_updatedAt_save {start now i : Nat} {s : Storage} (hnow : start ≤ now) (h : start ≤ s.updatedAt i)
    (db : Database) : start ≤ (s.save now db).updatedAt i := by
  rw [save]
  dsimp only
  split
  · exact h
  · exact hnow

/-- `Image#upload_image`, the delayed job of an upload, stores the file behind the address as `path`.
Without an address it writes the rotation alone, which leaves no stamp. -/
def uploadImage (now i : Nat) (path : Text) (s : Storage) : Storage :=
  match s.db.images.find? i with
  | none => s
  | some m =>
    if m.s3Filepath.any (!blank ·) then
      { s with
        db := ImagesController.modifyImage s.db i
          (fun m => { m with imagePath := some path, rotation := none }) (fun _ => rfl)
        updatedAt := Function.update s.updatedAt i now }
    else
      { s with
        db := ImagesController.modifyImage s.db i (fun m => { m with rotation := none }) (fun _ => rfl) }

theorem uploadImage_spec (now i : Nat) (path : Text) (s : Storage) :
    (s.uploadImage now i path).db.images.next = s.db.images.next ∧
      (∃ f : Image → Image, (s.uploadImage now i path).db.images.rows = s.db.images.rows.map f ∧
        ∀ m, (f m).id = m.id ∧ (f m).projectId = m.projectId ∧ (f m).stepId = m.stepId) ∧
      ∀ j, (s.uploadImage now i path).updatedAt j = s.updatedAt j ∨
        (s.uploadImage now i path).updatedAt j = now := by
  unfold uploadImage
  split
  · exact ⟨rfl, ⟨id, (List.map_id _).symm, fun _ => ⟨rfl, rfl, rfl⟩⟩, fun j => Or.inl rfl⟩
  · split
    · refine ⟨rfl, ⟨_, rfl, fun m => ?_⟩, fun j => ?_⟩
      · dsimp only
        split
        · exact ⟨rfl, rfl, rfl⟩
        · exact ⟨rfl, rfl, rfl⟩
      · dsimp only
        rw [Function.update_apply]
        split
        · exact Or.inr rfl
        · exact Or.inl rfl
    · refine ⟨rfl, ⟨_, rfl, fun m => ?_⟩, fun j => Or.inl rfl⟩
      split
      · exact ⟨rfl, rfl, rfl⟩
      · exact ⟨rfl, rfl, rfl⟩

end Storage

/-! ## The sequence of image ids -/

namespace Database

theorem next_destroyImage (db : Database) (i : Nat) : (db.destroyImage i).images.next = db.images.next := by
  show (List.foldl destroyImageVideo db _).images.next = db.images.next
  rw [images_destroyImageVideo]

theorem next_destroyImages (is : List Nat) (db : Database) :
    (is.foldl destroyImage db).images.next = db.images.next := by
  induction is generalizing db with
  | nil => rfl
  | cons i is ih => rw [List.foldl_cons, ih, next_destroyImage]

end Database

namespace ImagesController

theorem next_destroyRemixes (ms : List Image) (db : Database) :
    (destroyRemixes ms db).2.images.next = db.images.next := by
  induction ms generalizing db with
  | nil => rfl
  | cons m ms ih =>
    unfold destroyRemixes
    split
    · split
      · rfl
      · rw [ih, next_destroyImage]
    · rw [ih, next_destroyImage]

theorem next_destroy (u : User) (now : Nat) (target : Text ⊕ Nat) (db : Database) :
    (destroy u now target db).2.images.next = db.images.next := by
  have hbefore : ∀ m, (beforeDestroy m db).2.images.next = db.images.next := by
    intro m
    unfold beforeDestroy
    split
    · rfl
    · exact next_destroyRemixes _ db
  unfold destroy
  cases target with
  | inl path =>
    dsimp only
    split
    · rfl
    · exact next_destroyImage db _
  | inr i =>
    dsimp only
    split
    · rfl
    · rename_i m hfind
      rcases authorize_cases (Ability.destroyImage db u m) db (destroyById now m db) with ⟨-, heq⟩ | ⟨-, heq⟩
      · rw [heq]
        rcases destroyById_cases (Table.find?_eq_some.mp hfind).1 now with ⟨-, heq⟩ | ⟨beside, k, -, -, -, heq⟩
        · rw [heq, hbefore]
        · rw [heq, next_destroyImage]
          split
          · exact hbefore m
          · exact hbefore m
      · rw [heq]

end ImagesController

namespace TaskScheduler

theorem next_clearUploads (now : Nat) (ms : List Image) (s : Storage) :
    (clearUploads now ms s).2.db.images.next = s.db.images.next := by
  induction ms generalizing s with
  | nil => rfl
  | cons m ms ih =>
    unfold clearUploads
    split
    · rfl
    · rw [ih]
      rfl

theorem next_run (now : Nat) (s : Storage) : (run now s).db.images.next = s.db.images.next := by
  have hsaved : (deleteSaved now s).2.db.images.next = s.db.images.next := next_clearUploads now _ s
  unfold run
  dsimp only
  split
  · rw [destroyEmpty, destroyImages]
    dsimp only
    rw [next_destroyImages, deleteUnsaved, destroyImages]
    dsimp only
    rw [next_destroyImages, hsaved]
  · exact hsaved

theorem updatedAt_run (now : Nat) (s : Storage) (i : Nat) :
    (run now s).updatedAt i = s.updatedAt i ∨ (run now s).updatedAt i = now := by
  have hstamp : (run now s).updatedAt i = (deleteSaved now s).2.updatedAt i := by
    unfold run
    dsimp only
    split
    · rfl
    · rfl
  rw [hstamp, (deleteSaved_spec now s).2.2.1]
  split
  · exact Or.inr rfl
  · exact Or.inl rfl

-- a run that ends with an exception destroys nothing
theorem mem_run_of_not_completes {now : Nat} {s : Storage} (h : completes now s = false) {m : Image}
    (hm : m ∈ s.db.images.rows) : clear now s m ∈ (run now s).db.images.rows := by
  refine mem_run.mpr ⟨m, hm, rfl, fun hdone => ?_⟩
  rw [h] at hdone
  cases hdone

theorem gone_iff {now : Nat} {s : Storage} {m : Image} (hm : m ∈ s.db.images.rows) :
    (∀ y ∈ (run now s).db.images.rows, y.id ≠ m.id) ↔
      completes now s = true ∧ ∃ z ∈ s.db.images.rows, Goes now s z ∧ s.db.RemixedFrom z.id m.id := by
  constructor
  · intro hgone
    by_contra hno
    refine hgone (clear now s m) (mem_run.mpr ⟨m, hm, rfl, fun hdone z hz hgoes hfrom => ?_⟩)
      (clear_columns now s m).1
    exact hno ⟨hdone, z, hz, hgoes, hfrom⟩
  · rintro ⟨hdone, z, hz, hgoes, hfrom⟩ y hy hid
    obtain ⟨x, hx, rfl, hkept⟩ := mem_run.mp hy
    rw [(clear_columns now s x).1] at hid
    refine hkept hdone z hz hgoes ?_
    rw [hid]
    exact hfrom

-- the first pass stamps an old draft that still has its address, so the second takes it for a recent one
theorem goes_iff_of_stale {now : Nat} {s : Storage} {m : Image} (hdone : completes now s = true)
    (hm : m ∈ s.db.images.rows) (hdraft : m.stepId = some (-1)) (hstale : s.updatedAt m.id + 86400 < now) :
    Goes now s m ↔ m.s3Filepath.isSome = true ∨ m.imagePath = none := by
  have hcleared : m ∈ cleared now s ↔ m.s3Filepath.isSome = true := by
    have hsettled : settled now s m = true := by
      rw [settled, decide_eq_true_eq]
      omega
    rw [cleared, List.takeWhile_eq_self_iff.mpr (List.all_eq_true.mp hdone), toClear, List.mem_filter,
      mem_imagesWhere, hsettled, and_iff_left rfl, and_iff_right hm]
  have hold : recent now s m ≠ true := by
    rw [recent, ne_eq, decide_eq_true_eq]
    omega
  rw [Goes, hcleared, or_iff_left hold, and_iff_right hdraft]
  constructor
  · rintro (hsome | ⟨hnone, -⟩)
    · exact Or.inl hsome
    · exact Or.inr hnone
  · rintro (hsome | hnone)
    · exact Or.inl hsome
    · cases hpath : m.s3Filepath with
      | none => exact Or.inr ⟨hnone, Or.inr rfl⟩
      | some path => exact Or.inl rfl

end TaskScheduler

/-! ## Sessions -/

/-- The storage and the images that the author has uploaded in the session and not deleted. -/
structure DraftSession where
  storage : Storage
  uploaded : List Nat

namespace DraftSession

open TaskScheduler

inductive Event where
  | upload (up : ImagesController.Upload)
  | uploadImage (i : Nat) (path : Text)
  | destroy (target : Text ⊕ Nat)
  | cleanup

/-- What happens at the time `now` in the session of `u`. -/
def step (u : User) (s : DraftSession) : Nat × Event → DraftSession
  | (now, .upload up) =>
    let db := (ImagesController.create u now up s.storage.db).2
    let i := s.storage.db.images.next
    { storage := s.storage.save now db
      uploaded := if (db.images.find? i).isSome then s.uploaded ++ [i] else s.uploaded }
  | (now, .uploadImage i path) => { s with storage := s.storage.uploadImage now i path }
  | (now, .destroy target) =>
    let db := (ImagesController.destroy u now target s.storage.db).2
    -- an image that the request has not found there was not deleted by it
    { storage := s.storage.save now db
      uploaded := s.uploaded.filter fun i =>
        (db.images.find? i).isSome || (s.storage.db.images.find? i).isNone }
  | (now, .cleanup) => { s with storage := run now s.storage }

/-- The session takes less than a day, and its uploads are drafts of project `p`. -/
def Within (p start : Nat) (e : Nat × Event) : Prop :=
  start ≤ e.1 ∧ e.1 < start + 86400 ∧
    ∀ up, e.2 = .upload up → ∀ i, (up.image i).projectId = some p ∧ (up.image i).stepId = some (-1)

/-- The job finds no upload of the session, or does not come to the drafts. -/
def Undisturbed (s : DraftSession) : Nat × Event → Prop
  | (now, .cleanup) => s.uploaded = [] ∨ completes now s.storage = false
  | _ => True

/-- The uploads are there as drafts of the project, stamped in the session. -/
def Drafts (p start : Nat) (s : DraftSession) : Prop :=
  ∀ i ∈ s.uploaded, start ≤ s.storage.updatedAt i ∧ ∃ m ∈ s.storage.db.images.rows, m.id = i ∧
    m.projectId = some p ∧ m.stepId = some (-1)

/-- An upload that the author has not deleted is gone. -/
def Lost (s : DraftSession) : Prop :=
  ∃ i ∈ s.uploaded, i < s.storage.db.images.next ∧ ∀ m ∈ s.storage.db.images.rows, m.id ≠ i

variable {u : User} {p start : Nat} {s : DraftSession}

theorem Drafts.not_lost (h : Drafts p start s) : ¬ Lost s := by
  rintro ⟨i, hi, -, hnone⟩
  obtain ⟨-, m, hm, hid, -⟩ := h i hi
  exact hnone m hm hid

-- an upload adds at most one row, under the next id
theorem drafts_upload (h : Drafts p start s) {now : Nat} {up : ImagesController.Upload}
    (hin : Within p start (now, .upload up)) : Drafts p start (step u s (now, .upload up)) := by
  have hdraft := hin.2.2 up rfl
  have hold : ∀ i ∈ s.uploaded, start ≤ (step u s (now, .upload up)).storage.updatedAt i ∧
      ∃ m ∈ s.storage.db.images.rows, m.id = i ∧ m.projectId = some p ∧ m.stepId = some (-1) := by
    intro i hi
    obtain ⟨hstamp, hrow⟩ := h i hi
    exact ⟨Storage.le_updatedAt_save hin.1 hstamp _, hrow⟩
  -- no row has the next id
  have hnone : s.storage.db.images.find? s.storage.db.images.next = none :=
    Table.find?_eq_none.mpr fun m hm => Nat.ne_of_lt (s.storage.db.images.bound m hm).2
  rcases ImagesController.create_cases u now up s.storage.db with ⟨-, heq⟩ | ⟨-, hrows, -, -, -, -⟩
  · have hsame : (step u s (now, .upload up)).uploaded = s.uploaded := by
      rw [step]
      dsimp only
      rw [heq, hnone]
      rfl
    intro i hi
    rw [hsame] at hi
    obtain ⟨hstamp, hrow⟩ := hold i hi
    refine ⟨hstamp, ?_⟩
    show ∃ m ∈ (ImagesController.create u now up s.storage.db).2.images.rows, _
    rw [heq]
    exact hrow
  · have hid := up.image_id s.storage.db.images.next
    have hnew : (ImagesController.create u now up s.storage.db).2.images.find? s.storage.db.images.next =
        some (ImagesController.uploaded s.storage.db up) := by
      refine Table.find?_eq_some.mpr ⟨?_, hid⟩
      rw [hrows]
      exact List.mem_append_right _ (List.mem_singleton_self _)
    have hadded : (step u s (now, .upload up)).uploaded = s.uploaded ++ [s.storage.db.images.next] := by
      rw [step]
      dsimp only
      rw [hnew]
      rfl
    intro i hi
    rw [hadded] at hi
    show _ ∧ ∃ m ∈ (ImagesController.create u now up s.storage.db).2.images.rows, _
    rw [hrows]
    rcases List.mem_append.mp hi with hi | hi
    · obtain ⟨hstamp, m, hm, hrow⟩ := hold i hi
      exact ⟨hstamp, m, List.mem_append_left _ hm, hrow⟩
    · rw [List.mem_singleton.mp hi]
      refine ⟨?_, ImagesController.uploaded s.storage.db up, List.mem_append_right _ (List.mem_singleton_self _),
        hid, hdraft _⟩
      have hstamp : (step u s (now, .upload up)).storage.updatedAt s.storage.db.images.next = now := by
        rw [step, Storage.save]
        dsimp only
        rw [hnew, hnone]
        rfl
      rw [hstamp]
      exact hin.1

theorem drafts_destroy (h : Drafts p start s) {now : Nat} {target : Text ⊕ Nat} (hnow : start ≤ now) :
    Drafts p start (step u s (now, .destroy target)) := by
  intro i hi
  rw [step] at hi
  dsimp only at hi
  rw [List.mem_filter, Bool.or_eq_true] at hi
  obtain ⟨hstamp, m, hm, hid, hp, hstep⟩ := h i hi.1
  refine ⟨Storage.le_updatedAt_save hnow hstamp _, ?_⟩
  rcases hi.2 with hthere | hnone
  · obtain ⟨y, hy⟩ := Option.isSome_iff_exists.mp hthere
    obtain ⟨hmem, hyid⟩ := Table.find?_eq_some.mp hy
    -- what is left of the image is the draft that it was
    obtain ⟨x, hx, hxid, hxp, -, hxs⟩ := (ImagesController.mediaOf_destroy u now target s.storage.db).1 y hmem
    have hxm : x = m := Table.eq_of_key hx hm (hxid.trans (hyid.trans hid.symm))
    rw [← hxm] at hp hstep
    exact ⟨y, hmem, hyid, hxp.symm.trans hp, hxs.symm.trans hstep⟩
  · rw [Option.isNone_iff_eq_none] at hnone
    exact absurd hid (Table.find?_eq_none.mp hnone m hm)

theorem drafts_step (h : Drafts p start s) {e : Nat × Event} (hin : Within p start e) (hu : Undisturbed s e) :
    Drafts p start (step u s e) := by
  obtain ⟨now, e⟩ := e
  have hnow : start ≤ now := hin.1
  cases e with
  | upload up => exact drafts_upload h hin
  | uploadImage i path =>
    obtain ⟨-, ⟨f, hrows, hf⟩, hstamp⟩ := Storage.uploadImage_spec now i path s.storage
    intro j hj
    obtain ⟨hstart, m, hm, hid, hp, hstep⟩ := h j hj
    refine ⟨?_, f m, ?_, (hf m).1.trans hid, (hf m).2.1.trans hp, (hf m).2.2.trans hstep⟩
    · show start ≤ (s.storage.uploadImage now i path).updatedAt j
      rcases hstamp j with heq | heq
      · rw [heq]
        exact hstart
      · rw [heq]
        exact hnow
    · show f m ∈ (s.storage.uploadImage now i path).db.images.rows
      rw [hrows]
      exact List.mem_map_of_mem hm
  | destroy target => exact drafts_destroy h hnow
  | cleanup =>
    intro i hi
    -- a run with nothing uploaded, or one that does not come to the drafts
    rcases hu with hnone | hdone
    · have hempty : i ∈ s.uploaded := hi
      rw [hnone] at hempty
      cases hempty
    · obtain ⟨hstart, m, hm, hid, hp, hstep⟩ := h i hi
      obtain ⟨hcid, hcp, -, hcs, -⟩ := clear_columns now s.storage m
      refine ⟨?_, clear now s.storage m, mem_run_of_not_completes hdone hm, hcid.trans hid, hcp.trans hp,
        hcs.trans hstep⟩
      show start ≤ (run now s.storage).updatedAt i
      rcases updatedAt_run now s.storage i with heq | heq
      · rw [heq]
        exact hstart
      · rw [heq]
        exact hnow

-- every draft of the session is less than a day old, so it goes
theorem lost_of_disturbed (h : Drafts p start s) {e : Nat × Event} (hin : Within p start e)
    (hu : ¬ Undisturbed s e) : Lost (step u s e) := by
  obtain ⟨now, e⟩ := e
  cases e with
  | upload up => exact absurd trivial hu
  | uploadImage i path => exact absurd trivial hu
  | destroy target => exact absurd trivial hu
  | cleanup =>
    rw [Undisturbed, not_or, Bool.not_eq_false] at hu
    obtain ⟨i, hi⟩ := List.exists_mem_of_ne_nil _ hu.1
    obtain ⟨hstart, m, hm, hid, -, hstep⟩ := h i hi
    have hrecent : recent now s.storage m = true := by
      have hend : now < start + 86400 := hin.2.1
      rw [recent, hid, decide_eq_true_eq]
      omega
    have hgone : ∀ y ∈ (run now s.storage).db.images.rows, y.id ≠ m.id :=
      (gone_iff hm).mpr ⟨hu.2, m, hm, Or.inl ⟨hstep, Or.inr hrecent⟩, .self⟩
    refine ⟨i, hi, ?_, ?_⟩
    · show i < (run now s.storage).db.images.next
      rw [next_run, ← hid]
      exact (s.storage.db.images.bound m hm).2
    · rw [← hid]
      exact hgone

-- an id that has been drawn from the sequence does not come back
theorem lost_step (h : Lost s) (e : Nat × Event) : Lost (step u s e) := by
  obtain ⟨i, hi, hlt, hnone⟩ := h
  obtain ⟨now, e⟩ := e
  cases e with
  | upload up =>
    refine ⟨i, ?_, ?_⟩
    · rw [step]
      dsimp only
      split
      · exact List.mem_append_left _ hi
      · exact hi
    · show i < (ImagesController.create u now up s.storage.db).2.images.next ∧
        ∀ m ∈ (ImagesController.create u now up s.storage.db).2.images.rows, m.id ≠ i
      rcases ImagesController.create_cases u now up s.storage.db with ⟨-, heq⟩ | ⟨-, hrows, hnext, -, -, -⟩
      · rw [heq]
        exact ⟨hlt, hnone⟩
      · rw [hnext, hrows]
        refine ⟨by omega, fun m hm => ?_⟩
        rcases List.mem_append.mp hm with hm | hm
        · exact hnone m hm
        · have hid : (ImagesController.uploaded s.storage.db up).id = s.storage.db.images.next :=
            up.image_id s.storage.db.images.next
          rw [List.mem_singleton.mp hm, hid]
          omega
  | uploadImage j path =>
    obtain ⟨hnext, ⟨f, hrows, hf⟩, -⟩ := Storage.uploadImage_spec now j path s.storage
    refine ⟨i, hi, ?_⟩
    show i < (s.storage.uploadImage now j path).db.images.next ∧
      ∀ m ∈ (s.storage.uploadImage now j path).db.images.rows, m.id ≠ i
    rw [hnext, hrows]
    refine ⟨hlt, fun m hm => ?_⟩
    obtain ⟨x, hx, rfl⟩ := List.mem_map.mp hm
    rw [(hf x).1]
    exact hnone x hx
  | destroy target =>
    refine ⟨i, ?_, ?_⟩
    · rw [step]
      dsimp only
      -- the request takes back only ids that still have a row
      have habsent : s.storage.db.images.find? i = none := Table.find?_eq_none.mpr hnone
      rw [List.mem_filter, habsent, Option.isNone_none, Bool.or_true]
      exact ⟨hi, rfl⟩
    · show i < (ImagesController.destroy u now target s.storage.db).2.images.next ∧
        ∀ m ∈ (ImagesController.destroy u now target s.storage.db).2.images.rows, m.id ≠ i
      rw [ImagesController.next_destroy]
      refine ⟨hlt, fun m hm hid => ?_⟩
      obtain ⟨x, hx, hxid, -⟩ := (ImagesController.mediaOf_destroy u now target s.storage.db).1 m hm
      exact hnone x hx (hxid.trans hid)
  | cleanup =>
    refine ⟨i, hi, ?_⟩
    show i < (run now s.storage).db.images.next ∧ ∀ m ∈ (run now s.storage).db.images.rows, m.id ≠ i
    rw [next_run]
    refine ⟨hlt, fun m hm hid => ?_⟩
    obtain ⟨x, hx, rfl, -⟩ := mem_run.mp hm
    rw [(clear_columns now s.storage x).1] at hid
    exact hnone x hx hid

/-! ## The submitted form -/

/-- Every upload that the author has kept is in the step that the form creates. -/
def Attached (u : User) (p now : Nat) (params : List StepAttr) (s : DraftSession) : Prop :=
  ∀ i ∈ s.uploaded, ∃ m ∈ (StepsController.create u now true p params s.storage.db).2.images.rows, m.id = i ∧
    m.stepId = some (s.storage.db.steps.next : Int)

-- the images after the form are those before it, placed
theorem images_of_media {db db' : Database} {p i : Nat} (h : db'.media = db.media.map (Medium.claimed p i)) :
    (∀ m ∈ db.images.rows, ∃ y ∈ db'.images.rows, Medium.ofImage y = (Medium.ofImage m).claimed p i) ∧
      ∀ y ∈ db'.images.rows, ∃ m ∈ db.images.rows, m.id = y.id := by
  have himage : ∀ {db : Database} {x : Medium}, x ∈ db.media → x.video = false →
      ∃ m ∈ db.images.rows, Medium.ofImage m = x := by
    intro db x hx hvideo
    rcases List.mem_append.mp hx with hx | hx
    · exact List.mem_map.mp hx
    · obtain ⟨v, -, rfl⟩ := List.mem_map.mp hx
      cases hvideo
  have hclaimed : ∀ x : Medium, (x.claimed p i).video = x.video ∧ (x.claimed p i).id = x.id := by
    intro x
    unfold Medium.claimed
    split
    · exact ⟨rfl, rfl⟩
    · exact ⟨rfl, rfl⟩
  constructor
  · intro m hm
    apply himage
    · rw [h]
      exact List.mem_map_of_mem (List.mem_append_left _ (List.mem_map_of_mem hm))
    · exact (hclaimed _).1
  · intro y hy
    have hmem : Medium.ofImage y ∈ db'.media := List.mem_append_left _ (List.mem_map_of_mem hy)
    rw [h] at hmem
    obtain ⟨x, hx, heq⟩ := List.mem_map.mp hmem
    have hvideo : x.video = false := by rw [← (hclaimed x).1, heq]; rfl
    obtain ⟨m, hm, hmx⟩ := himage hx hvideo
    refine ⟨m, hm, ?_⟩
    show (Medium.ofImage m).id = (Medium.ofImage y).id
    rw [hmx, ← heq, (hclaimed x).2]

theorem attached_of_drafts {now : Nat} {params : List StepAttr}
    (hacc : StepsController.accepts u now true p params s.storage.db = true) (h : Drafts p start s) :
    Attached u p now params s := by
  intro i hi
  obtain ⟨-, m, hm, hid, hp, hstep⟩ := h i hi
  rcases StepsController.create_html_cases u now p params s.storage.db with ⟨hno, -⟩ | ⟨-, hmedia, -⟩
  · rw [hacc] at hno
    cases hno
  · obtain ⟨y, hy, heq⟩ := (images_of_media hmedia).1 m hm
    have hd : (Medium.ofImage m).draft p = true := decide_eq_true ⟨hp, hstep⟩
    rw [Medium.claimed, if_pos hd] at heq
    refine ⟨y, hy, ?_, ?_⟩
    · exact (congrArg Medium.id heq).trans hid
    · exact congrArg Medium.stepId heq

theorem not_lost_of_attached {now : Nat} {params : List StepAttr}
    (hacc : StepsController.accepts u now true p params s.storage.db = true)
    (h : Attached u p now params s) : ¬ Lost s := by
  rintro ⟨i, hi, -, hnone⟩
  obtain ⟨y, hy, hid, -⟩ := h i hi
  rcases StepsController.create_html_cases u now p params s.storage.db with ⟨hno, -⟩ | ⟨-, hmedia, -⟩
  · rw [hacc] at hno
    cases hno
  · obtain ⟨m, hm, hmid⟩ := (images_of_media hmedia).2 y hy
    exact hnone m hm (hmid.trans hid)

/-- What the author has uploaded in less than a day and kept is in the created step exactly when no run of
the job in between comes to the drafts while an upload is there; and a draft that was not updated for a day
is removed exactly by a run that comes to the drafts, when it still has the address of its upload, or has no
file, or is a copy of another image that goes. -/
theorem drafts_through_cleanup (s : Storage) :
    (∀ (u : User) (p start : Nat) (es : List (Nat × Event)), (∀ e ∈ es, Within p start e) →
      ∀ (now : Nat) (params : List StepAttr),
        StepsController.accepts u now true p params (Run.after (step u) ⟨s, []⟩ es).storage.db = true →
        (Attached u p now params (Run.after (step u) ⟨s, []⟩ es) ↔ Run.Along (step u) Undisturbed ⟨s, []⟩ es)) ∧
    ∀ (now : Nat), ∀ m ∈ s.db.images.rows, m.stepId = some (-1) → s.updatedAt m.id + 86400 < now →
      ((∀ y ∈ (run now s).db.images.rows, y.id ≠ m.id) ↔
        completes now s = true ∧ (m.s3Filepath.isSome = true ∨ m.imagePath = none ∨
          ∃ z ∈ s.db.images.rows, z.id ≠ m.id ∧ Goes now s z ∧ s.db.RemixedFrom z.id m.id)) := by
  constructor
  · intro u p start es hes now params hacc
    have hstart : Drafts p start ⟨s, []⟩ := fun i hi => by cases hi
    have hwithin : Run.Along (step u) (fun _ e => Within p start e) ⟨s, []⟩ es := .of_forall hes
    constructor
    · intro hattached
      refine (Run.along_iff_not_harmed (H := Lost) (fun _ _ h hin hu => drafts_step h hin hu)
        (fun _ _ h hin hu => lost_of_disturbed h hin hu) (fun _ e h _ => lost_step h e)
        (fun _ h => h.not_lost) hstart hwithin).mpr ?_
      exact not_lost_of_attached hacc hattached
    · intro hundisturbed
      -- nothing disturbs the drafts, so they are still there at the end
      have hend := Run.invariant (I := Drafts p start) (fun _ _ h (he : _ ∧ _) => drafts_step h he.1 he.2) hstart
        (hwithin.and hundisturbed)
      exact attached_of_drafts hacc hend
  · intro now m hm hdraft hstale
    rw [gone_iff hm]
    apply and_congr_right
    intro hdone
    -- a stale draft goes by itself, or with the original it was copied from
    have hself := goes_iff_of_stale hdone hm hdraft hstale
    constructor
    · rintro ⟨z, hz, hgoes, hfrom⟩
      by_cases hzm : z.id = m.id
      · rw [Table.eq_of_key hz hm hzm, hself] at hgoes
        exact hgoes.imp_right Or.inl
      · exact Or.inr (Or.inr ⟨z, hz, hzm, hgoes, hfrom⟩)
    · rintro (hsome | hnone | ⟨z, hz, -, hgoes, hfrom⟩)
      · exact ⟨m, hm, hself.mpr (Or.inl hsome), .self⟩
      · exact ⟨m, hm, hself.mpr (Or.inr hnone), .self⟩
      · exact ⟨z, hz, hgoes, hfrom⟩

/-- A project of two authors and no media. -/
def noMedia : Storage := ⟨twoAuthors, fun _ => 0, []⟩

/-- The web form's upload of a file in the folder `f7`. -/
def webUpload : Event := .upload (.web 1 (-1) 1 "https://s3.amazonaws.com/bip/uploads/f7/a.jpg".toList)

/-- The job runs before the upload; the author deletes a second upload. -/
def quietSession : List (Nat × Event) :=
  [(5, .cleanup), (10, webUpload), (20, .uploadImage 1 "a.jpg".toList), (30, webUpload), (40, .destroy (.inr 2))]

/-- The job runs between the upload and the form. -/
def disturbedSession : List (Nat × Event) :=
  [(10, webUpload), (20, .uploadImage 1 "a.jpg".toList), (30, .cleanup)]

/-- A stored draft that was last updated at the time 0, with or without the address of its upload. -/
def oldDraft (s3Filepath : Option Text) : Storage where
  db := { twoAuthors with
    images := .ofRows [⟨1, some (-1), some 1, some "a.jpg".toList, none, some 0, some false, none, none, some 1,
      s3Filepath, none, none⟩] 2 (by simp [Table.WellKeyed, Keyed.key]) }
  updatedAt := fun _ => 0
  bucket := []

theorem within_webUpload {now : Nat} (h : now < 86400) : Within 1 0 (now, webUpload) := by
  refine ⟨Nat.zero_le _, h, fun up hup i => ?_⟩
  obtain rfl := Event.upload.inj hup
  exact ⟨rfl, rfl⟩

theorem within_other {now : Nat} (h : now < 86400) {e : Event} (he : ∀ up, e ≠ .upload up) : Within 1 0 (now, e) :=
  ⟨Nat.zero_le _, h, fun up hup => absurd hup (he up)⟩

/-- The upload that is kept goes into the step, and an old draft that still has its address is removed. -/
theorem quietSession_kept :
    (∀ e ∈ quietSession, Within 1 0 e) ∧
    StepsController.accepts ada 50 true 1 [.name "Saw".toList]
      (Run.after (step ada) ⟨noMedia, []⟩ quietSession).storage.db = true ∧
    (Run.after (step ada) ⟨noMedia, []⟩ quietSession).uploaded = [1] ∧
    Attached ada 1 50 [.name "Saw".toList] (Run.after (step ada) ⟨noMedia, []⟩ quietSession) ∧
    ∀ y ∈ (run 100000 (oldDraft (some "https://s3.amazonaws.com/bip/uploads/f7/a.jpg".toList))).db.images.rows,
      y.id ≠ 1 := by
  have hwithin : ∀ e ∈ quietSession, Within 1 0 e := by
    simp only [quietSession, List.forall_mem_cons]
    exact ⟨within_other (by decide) (fun _ h => by cases h), within_webUpload (by decide),
      within_other (by decide) (fun _ h => by cases h), within_webUpload (by decide),
      within_other (by decide) (fun _ h => by cases h), by simp⟩
  have hacc : StepsController.accepts ada 50 true 1 [.name "Saw".toList]
      (Run.after (step ada) ⟨noMedia, []⟩ quietSession).storage.db = true := by decide +kernel
  refine ⟨hwithin, hacc, by decide +kernel, ?_, ?_⟩
  · exact ((drafts_through_cleanup noMedia).1 ada 1 0 quietSession hwithin 50 _ hacc).mpr
      ⟨Or.inl rfl, trivial, trivial, trivial, trivial, trivial⟩
  · exact ((drafts_through_cleanup (oldDraft _)).2 100000 _ (List.mem_singleton_self _) rfl (by decide)).mpr
      ⟨by decide +kernel, Or.inl rfl⟩

/-- A draft of the last minute is destroyed, and one that is more than a day old stays. -/
theorem recent_draft_lost_stale_kept :
    ((∀ e ∈ disturbedSession, Within 1 0 e) ∧
      StepsController.accepts ada 50 true 1 [.name "Saw".toList]
        (Run.after (step ada) ⟨noMedia, []⟩ disturbedSession).storage.db = true ∧
      (Run.after (step ada) ⟨noMedia, []⟩ disturbedSession).uploaded = [1] ∧
      ¬ Attached ada 1 50 [.name "Saw".toList] (Run.after (step ada) ⟨noMedia, []⟩ disturbedSession)) ∧
    (∃ m ∈ (oldDraft none).db.images.rows, m.stepId = some (-1) ∧ (oldDraft none).updatedAt m.id + 86400 < 100000 ∧
      ∃ y ∈ (run 100000 (oldDraft none)).db.images.rows, y.id = m.id) := by
  have hwithin : ∀ e ∈ disturbedSession, Within 1 0 e := by
    simp only [disturbedSession, List.forall_mem_cons]
    exact ⟨within_webUpload (by decide), within_other (by decide) (fun _ h => by cases h),
      within_other (by decide) (fun _ h => by cases h), by simp⟩
  refine ⟨⟨hwithin, by decide +kernel, by decide +kernel, ?_⟩, by decide +kernel⟩
  unfold Attached
  decide +kernel

end DraftSession
