import BuildInProgress.Lib.Rows
import BuildInProgress.ProjectPages
import BuildInProgress.StepRuns

/-!
# What an archive holds

`Project#export` puts the files of a step into a folder that begins with a number.  The number counts the steps that
have files, so the folders differ; within a folder the files have the names that they were uploaded with.
-/

open Text

namespace ProjectsController

/-- A file of the archive: its name and what is read for it. -/
structure Item where
  filename : Text
  contents : Fetched
  deriving DecidableEq, Repr

namespace Item

/-- The file at an address. -/
def ofUrl (st : Storage) (url : Text) : Item := ⟨ProjectsController.filename url, st.read url⟩

def text (i : Item) : Text :=
  match i.contents with
  | .file t => t
  | _ => []

/-- The remote file can be read. -/
def Readable (i : Item) : Prop := ∃ t, i.contents = .file t

theorem Readable.contents_eq {i : Item} (h : i.Readable) : i.contents = .file i.text := by
  obtain ⟨t, ht⟩ := h
  rw [text, ht]

end Item

/-- The description of a step, if there is one. -/
def descriptionItem (st : Storage) (s : Step) : Option Item :=
  (s.description.filter (!blank ·)).map fun t => ⟨"description.txt".toList, .file (st.sanitize t)⟩

/-- The stored image, or the uploaded video; a remix shows those of its original. -/
def imageItem (st : Storage) (db : Database) (m : Image) : Option Item :=
  match db.originalOf m with
  | some (some m) =>
    if m.videoId.isSome then
      (db.videos.rows.find? (·.imageId = some m.id)).bind fun v =>
        if v.embedUrl.any (!·.isEmpty) || v.videoPath.isNone then none else some (.ofUrl st (st.videoUrl v))
    else (imgPath st m).map (.ofUrl st)
  | _ => none

def stepItems (st : Storage) (db : Database) (s : Step) : List Item :=
  (descriptionItem st s).toList ++
    ((db.stepImages s.id).insertionSort (Database.imageBefore · ·)).filterMap (imageItem st db) ++
    (st.designFiles.filter (·.stepId = some s.id)).map fun f => .ofUrl st (st.designFileUrl f)

/-- What a step of the project is to bring.  The description of a label, a step with `is_label?`, is not exported. -/
def contentItems (st : Storage) (db : Database) (s : Step) : List Item :=
  stepItems st db (if s.label = some true then { s with description := none } else s)

/-- Everything that the archive is to hold. -/
def items (st : Storage) (db : Database) (project : Project) : List Item :=
  ⟨"project_description.txt".toList, .file (project.description.getD [])⟩ ::
    (db.projectSteps project.id).flatMap (contentItems st db)

/-- There is one entry for each item, with what is read for it, and the names of the entries differ. -/
structure Lossless (is : List Item) (entries : List (Text × Text)) : Prop where
  written : (entries.map fun e => .file e.2).Perm (is.map Item.contents)
  distinct : (entries.map Prod.fst).Nodup

/-- The original of the image is there, and so is the video if it is one. -/
def ImageThere (db : Database) (m : Image) : Prop :=
  ∃ o, db.originalOf m = some (some o) ∧ (o.videoId.isSome = true →
    ∃ v, db.videos.rows.find? (·.imageId = some o.id) = some v ∧
      (v.embedUrl.any (!·.isEmpty) = true ∨ v.videoPath.isSome = true))

/-! ## The entries -/

namespace Archive

/-- The archive with the items in the folder of the step. -/
def putAll (x : Archive) (s : Step) (is : List Item) : Archive :=
  { x with
    stepIncrement := x.stepIncrement || !is.isEmpty
    entries := x.entries ++ is.map fun i => (entryName x.stepNum s i.filename, i.text) }

variable {x : Archive} {s : Step}

@[simp] theorem putAll_nil : x.putAll s [] = x := by
  simp [putAll]

theorem putAll_append (is js : List Item) : x.putAll s (is ++ js) = (x.putAll s is).putAll s js := by
  cases is with
  | nil => simp
  | cons i is => simp [putAll]

end Archive

variable {st : Storage} {db : Database} {project : Project} {s : Step}

theorem exportFile_eq (x : Archive) {url : Text} (h : (Item.ofUrl st url).Readable) :
    exportFile st s x url = some (x.putAll s [.ofUrl st url]) := by
  have hread : st.read url = .file (Item.ofUrl st url).text := h.contents_eq
  rw [exportFile, hread]
  simp [Archive.put, Archive.putAll, Item.ofUrl]

/-- An image that is there puts its item into the archive. -/
theorem exportImage_eq (x : Archive) {m : Image} (h : ImageThere db m)
    (hread : ∀ i ∈ imageItem st db m, i.Readable) :
    exportImage st db s x m = some (x.putAll s (imageItem st db m).toList) := by
  obtain ⟨o, ho, hvideo⟩ := h
  rw [imageItem, ho] at hread ⊢
  rw [exportImage, ho]
  dsimp only at hread ⊢
  by_cases hv : o.videoId.isSome = true
  · obtain ⟨v, hfind, hfile⟩ := hvideo hv
    rw [if_pos hv, hfind, Option.bind_some] at hread ⊢
    rw [if_pos hv]
    dsimp only
    by_cases hembedded : v.embedUrl.any (!·.isEmpty) = true
    · -- an embedded video has no file
      rw [if_pos hembedded, hembedded, Bool.true_or, if_pos rfl]
      simp
    · have hsome := hfile.resolve_left hembedded
      have hnone : v.videoPath.isNone = false := by rw [← Option.not_isSome, hsome]; rfl
      have hno : v.embedUrl.any (!·.isEmpty) = false := Bool.eq_false_of_not_eq_true hembedded
      rw [hno, hnone] at hread
      have hitem := hread (.ofUrl st (st.videoUrl v)) rfl
      have hcontents : st.read (st.videoUrl v) = .file (Item.ofUrl st (st.videoUrl v)).text := hitem.contents_eq
      rw [if_neg hembedded, hno, hnone, if_neg Bool.false_ne_true, hcontents]
      simp [Archive.put, Archive.putAll, Item.ofUrl]
  · rw [if_neg hv] at hread ⊢
    rw [if_neg hv]
    cases hpath : imgPath st o with
    | none => simp
    | some path =>
      rw [hpath] at hread
      exact exportFile_eq x (hread _ rfl)

/-- An image that is not there makes the export raise. -/
theorem exportImage_eq_none (x : Archive) {m : Image} (h : ¬ ImageThere db m) : exportImage st db s x m = none := by
  unfold exportImage
  split
  · rename_i o ho
    split
    · rename_i hv
      split
      · rfl
      · rename_i v hfind
        split
        · rename_i hembedded
          exact absurd ⟨o, ho, fun _ => ⟨v, hfind, Or.inl hembedded⟩⟩ h
        · split
          · rfl
          · rename_i hsome
            rw [Bool.not_eq_true, ← Option.not_isSome, Bool.not_eq_false'] at hsome
            exact absurd ⟨o, ho, fun _ => ⟨v, hfind, Or.inr hsome⟩⟩ h
    · rename_i hv
      exact absurd ⟨o, ho, fun hyes => absurd hyes hv⟩ h
  · rfl

theorem exportImages_eq (x : Archive) {ms : List Image} (h : ∀ m ∈ ms, ImageThere db m)
    (hread : ∀ i ∈ ms.filterMap (imageItem st db), i.Readable) :
    ms.foldlM (exportImage st db s) x = some (x.putAll s (ms.filterMap (imageItem st db))) := by
  induction ms generalizing x with
  | nil => simp
  | cons m ms ih =>
    have hsplit : (m :: ms).filterMap (imageItem st db) = (imageItem st db m).toList ++ ms.filterMap (imageItem st db) := by
      cases hitem : imageItem st db m with
      | none => rw [List.filterMap_cons_none hitem]; rfl
      | some i => rw [List.filterMap_cons_some hitem]; rfl
    rw [hsplit] at hread ⊢
    rw [List.foldlM_cons, exportImage_eq x (h m List.mem_cons_self) fun i hi =>
      hread i (List.mem_append_left _ (Option.mem_toList.mpr hi)), Archive.putAll_append]
    exact ih _ (fun m' hm' => h m' (List.mem_cons_of_mem m hm')) fun i hi => hread i (List.mem_append_right _ hi)

theorem exportFiles_eq (x : Archive) (fs : List DesignFile)
    (hread : ∀ f ∈ fs, (Item.ofUrl st (st.designFileUrl f)).Readable) :
    fs.foldlM (fun x f => exportFile st s x (st.designFileUrl f)) x =
      some (x.putAll s (fs.map fun f => .ofUrl st (st.designFileUrl f))) := by
  induction fs generalizing x with
  | nil => simp
  | cons f fs ih =>
    have hsplit : Item.ofUrl st (st.designFileUrl f) :: fs.map (fun f => .ofUrl st (st.designFileUrl f)) =
        [.ofUrl st (st.designFileUrl f)] ++ fs.map fun f => .ofUrl st (st.designFileUrl f) := rfl
    rw [List.foldlM_cons, exportFile_eq x (hread f List.mem_cons_self), List.map_cons, hsplit, Archive.putAll_append]
    exact ih _ fun f' hf' => hread f' (List.mem_cons_of_mem f hf')

theorem exportDescription_eq (x : Archive) (s : Step) :
    exportDescription st s x = x.putAll s (descriptionItem st s).toList := by
  rw [exportDescription, descriptionItem]
  cases s.description with
  | none => simp
  | some t =>
    dsimp only
    by_cases hblank : blank t = true
    · rw [if_pos hblank, Option.filter_some, hblank]
      simp
    · rw [if_neg hblank, Option.filter_some, Bool.eq_false_of_not_eq_true hblank]
      simp [Archive.put, Archive.putAll, Item.text]

/-- A step that is there puts its items into the archive, and its number is used up if it has any. -/
theorem exportStep_eq {x : Archive} (hx : x.stepIncrement = false) (h : ∀ m ∈ db.stepImages s.id, ImageThere db m)
    (hread : ∀ i ∈ stepItems st db s, i.Readable) :
    exportStep st db x s = some ⟨if stepItems st db s = [] then x.stepNum else x.stepNum + 1, false,
      x.entries ++ (stepItems st db s).map fun i => (entryName x.stepNum s i.filename, i.text)⟩ := by
  have himages := exportImages_eq (s := s) (x.putAll s (descriptionItem st s).toList)
    (fun m hm => h m ((List.mem_insertionSort _).mp hm))
    fun i hi => hread i (List.mem_append_left _ (List.mem_append_right _ hi))
  have hfiles := exportFiles_eq (s := s) ((x.putAll s (descriptionItem st s).toList).putAll s
    (((db.stepImages s.id).insertionSort (Database.imageBefore · ·)).filterMap (imageItem st db)))
    (st.designFiles.filter (·.stepId = some s.id)) fun f hf => hread _
      (List.mem_append_right _ (List.mem_map.mpr ⟨f, hf, rfl⟩))
  rw [← Archive.putAll_append, ← Archive.putAll_append] at hfiles
  rw [exportStep, exportDescription_eq]
  show (List.foldlM (exportImage st db s) _ _).bind _ = _
  rw [himages, Option.bind_some]
  show (List.foldlM (fun x f => exportFile st s x (st.designFileUrl f)) _ _).bind _ = _
  rw [← Archive.putAll_append, hfiles, Option.bind_some]
  show some _ = some _
  rw [← stepItems]
  congr 1
  cases hitems : stepItems st db s with
  | nil => simp [hx, Archive.putAll]
  | cons i is => simp [Archive.putAll]

theorem exportStep_eq_none {m : Image} (hm : m ∈ db.stepImages s.id) (h : ¬ ImageThere db m) (x : Archive) :
    exportStep st db x s = none := by
  have himages : ∀ x, ((db.stepImages s.id).insertionSort (Database.imageBefore · ·)).foldlM (exportImage st db s) x =
      none := Rows.foldlM_eq_none ((List.mem_insertionSort _).mpr hm) fun x => exportImage_eq_none x h
  rw [exportStep]
  show (List.foldlM (exportImage st db s) _ _).bind _ = none
  rw [himages]
  rfl

/-! ## The names -/

/-- The entries of the steps when the next folder is number `n`. -/
def entriesFrom (st : Storage) (db : Database) : Nat → List Step → List (Text × Text)
  | _, [] => []
  | n, s :: ss =>
    (stepItems st db s).map (fun i => (entryName n s i.filename, i.text)) ++
      entriesFrom st db (if stepItems st db s = [] then n else n + 1) ss

theorem export_eq {ss : List Step} {x : Archive} (hx : x.stepIncrement = false)
    (h : ∀ s ∈ ss, ∀ m ∈ db.stepImages s.id, ImageThere db m)
    (hread : ∀ i ∈ ss.flatMap (stepItems st db), i.Readable) :
    ∃ n, ss.foldlM (exportStep st db) x = some ⟨n, false, x.entries ++ entriesFrom st db x.stepNum ss⟩ := by
  induction ss generalizing x with
  | nil => exact ⟨x.stepNum, by rw [List.foldlM_nil, entriesFrom, List.append_nil, ← hx]; rfl⟩
  | cons s ss ih =>
    rw [List.flatMap_cons] at hread
    rw [List.foldlM_cons, exportStep_eq hx (h s List.mem_cons_self) fun i hi => hread i (List.mem_append_left _ hi)]
    obtain ⟨n, hn⟩ := ih (x := ⟨if stepItems st db s = [] then x.stepNum else x.stepNum + 1, false,
      x.entries ++ (stepItems st db s).map fun i => (entryName x.stepNum s i.filename, i.text)⟩) rfl
      (fun s' hs' => h s' (List.mem_cons_of_mem s hs')) fun i hi => hread i (List.mem_append_right _ hi)
    refine ⟨n, ?_⟩
    show List.foldlM (exportStep st db) _ ss = _
    rw [hn, entriesFrom, List.append_assoc]

/-- The number of a folder can be read off its name. -/
theorem number_inj {n k : Nat} {t u : Text} (h : toS n ++ ' ' :: t = toS k ++ ' ' :: u) : n = k := by
  have hdigits : ∀ (n : Nat) (t : Text), (toS n ++ ' ' :: t).takeWhile Char.isDigit = toS n := by
    intro n t
    rw [List.takeWhile_append_of_pos fun c => isDigit_of_mem_toS, List.takeWhile_cons_of_neg (by decide),
      List.append_nil]
  have hsame := congrArg (List.takeWhile Char.isDigit) h
  rw [hdigits, hdigits] at hsame
  exact toS_injective hsame

theorem entryName_number (n : Nat) (s : Step) (f : Text) : ∃ t, entryName n s f = toS n ++ ' ' :: t := by
  refine ⟨'-' :: ' ' :: (s.name ++ '/' :: f), ?_⟩
  rw [entryName, List.append_assoc, List.append_assoc]
  rfl

theorem entryName_injective (n : Nat) (s : Step) : Function.Injective (entryName n s) := by
  intro f g h
  exact (List.cons.inj (List.append_cancel_left h)).2

theorem number_of_mem {ss : List Step} {n : Nat} {e : Text × Text} (he : e ∈ entriesFrom st db n ss) :
    ∃ k t, n ≤ k ∧ e.1 = toS k ++ ' ' :: t := by
  induction ss generalizing n with
  | nil => cases he
  | cons s ss ih =>
    rcases List.mem_append.mp he with he | he
    · obtain ⟨i, -, rfl⟩ := List.mem_map.mp he
      obtain ⟨t, ht⟩ := entryName_number n s i.filename
      exact ⟨n, t, Nat.le_refl n, ht⟩
    · obtain ⟨k, t, hk, ht⟩ := ih he
      refine ⟨k, t, ?_, ht⟩
      split at hk <;> omega

/-- The folders differ, so the names differ exactly if they do within each folder. -/
theorem nodup_entriesFrom (n : Nat) (ss : List Step) : ((entriesFrom st db n ss).map Prod.fst).Nodup ↔
    ∀ s ∈ ss, ((stepItems st db s).map Item.filename).Nodup := by
  induction ss generalizing n with
  | nil => exact iff_of_true List.nodup_nil fun s hs => by cases hs
  | cons s ss ih =>
    have hfolder : ((stepItems st db s).map fun i => (entryName n s i.filename, i.text)).map Prod.fst =
        ((stepItems st db s).map Item.filename).map (entryName n s) := by
      rw [List.map_map, List.map_map]
      rfl
    have hdisjoint : List.Disjoint (((stepItems st db s).map Item.filename).map (entryName n s))
        ((entriesFrom st db (if stepItems st db s = [] then n else n + 1) ss).map Prod.fst) := by
      intro name hname hlater
      obtain ⟨f, hf, rfl⟩ := List.mem_map.mp hname
      obtain ⟨i, hi, -⟩ := List.mem_map.mp hf
      obtain ⟨e, he, heq⟩ := List.mem_map.mp hlater
      obtain ⟨k, t, hk, ht⟩ := number_of_mem he
      obtain ⟨u, hu⟩ := entryName_number n s f
      rw [if_neg (List.ne_nil_of_mem hi)] at hk
      have hnumber := number_inj (hu.symm.trans (heq.symm.trans ht))
      omega
    rw [entriesFrom, List.map_append, hfolder, List.nodup_append', ih,
      List.nodup_map_iff (entryName_injective n s), List.forall_mem_cons]
    exact ⟨fun h => ⟨h.1, h.2.1⟩, fun h => ⟨h.1, h.2, hdisjoint⟩⟩

theorem written_entriesFrom (n : Nat) {ss : List Step} (hread : ∀ i ∈ ss.flatMap (stepItems st db), i.Readable) :
    (entriesFrom st db n ss).map (fun e => Fetched.file e.2) = (ss.flatMap (stepItems st db)).map Item.contents := by
  induction ss generalizing n with
  | nil => rfl
  | cons s ss ih =>
    rw [List.flatMap_cons] at hread
    rw [entriesFrom, List.map_append, ih _ fun i hi => hread i (List.mem_append_right _ hi), List.flatMap_cons,
      List.map_append, List.map_map]
    congr 1
    apply List.map_congr_left
    intro i hi
    exact (hread i (List.mem_append_left _ hi)).contents_eq.symm

/-! ## The steps that are left out -/

/-- A step that is exported brings what it is to bring. -/
theorem contentItems_of_none (h : s.label = none) : contentItems st db s = stepItems st db s := by
  rw [contentItems, h, if_neg nofun]

/-- What the exported steps bring, and the rest. -/
theorem content_perm (p : Nat) : ((db.projectSteps p).flatMap (contentItems st db)).Perm
    ((db.notLabels p).flatMap (stepItems st db) ++
      ((db.projectSteps p).filter fun s => !s.label.isNone).flatMap (contentItems st db)) := by
  have hsplit := (List.filter_append_perm (fun s : Step => s.label.isNone) (db.projectSteps p)).symm.flatMap_right
    (contentItems st db)
  rw [List.flatMap_append] at hsplit
  refine hsplit.trans (List.Perm.append_right _ ?_)
  have hsame : ((db.projectSteps p).filter (·.label.isNone)).flatMap (contentItems st db) =
      ((db.projectSteps p).filter (·.label.isNone)).flatMap (stepItems st db) :=
    List.flatMap_congr fun s hs => contentItems_of_none (Option.isNone_iff_eq_none.mp (List.mem_filter.mp hs).2)
  rw [hsame]
  exact (List.perm_insertionSort _ _).symm.flatMap_right _

/-- Nothing is left out exactly when no step that is left out has anything. -/
theorem written_iff (hread : ∀ i ∈ items st db project, i.Readable) :
    ((("project_description.txt".toList, project.description.getD []) ::
      entriesFrom st db 0 (db.notLabels project.id)).map fun e => Fetched.file e.2).Perm
        ((items st db project).map Item.contents) ↔
      ∀ s ∈ db.projectSteps project.id, s.label ≠ none → contentItems st db s = [] := by
  have hperm := @content_perm st db project.id
  rw [items, List.forall_mem_cons] at hread
  have hexported : ∀ i ∈ (db.notLabels project.id).flatMap (stepItems st db), i.Readable := fun i hi =>
    hread.2 i (hperm.mem_iff.mpr (List.mem_append_left _ hi))
  rw [items, List.map_cons, List.map_cons, List.perm_cons, written_entriesFrom 0 hexported]
  have hcontents := hperm.map Item.contents
  rw [List.map_append] at hcontents
  constructor
  · -- the lists are of the same length, so there is no rest
    intro hwritten s hs hlabel
    have hlength := (hwritten.trans hcontents).length_eq
    rw [List.length_append, List.length_map, List.length_map] at hlength
    have hrest := List.eq_nil_of_length_eq_zero (show (((db.projectSteps project.id).filter fun s =>
      !s.label.isNone).flatMap (contentItems st db)).length = 0 by omega)
    refine List.flatMap_eq_nil_iff.mp hrest s (List.mem_filter.mpr ⟨hs, ?_⟩)
    rw [Bool.not_eq_true', Option.isNone_eq_false_iff, Option.isSome_iff_ne_none]
    exact hlabel
  · intro hnone
    have hrest : ((db.projectSteps project.id).filter fun s => !s.label.isNone).flatMap (contentItems st db) = [] := by
      refine List.flatMap_eq_nil_iff.mpr fun s hs => ?_
      obtain ⟨hs, hlabel⟩ := List.mem_filter.mp hs
      rw [Bool.not_eq_true', Option.isNone_eq_false_iff, Option.isSome_iff_ne_none] at hlabel
      exact hnone s hs hlabel
    rw [hrest, List.map_nil, List.append_nil] at hcontents
    exact hcontents.symm

/-- If the remote files can be read, the archive has one entry for each item and their names differ exactly if its
own name can be created, the steps whose `label` is not null have nothing to export, and of the others the images and
videos are there and the files of each have different names. -/
theorem export_lossless_iff (hread : ∀ i ∈ items st db project, i.Readable) :
    (∃ x, exportSteps st db project = some x ∧ Lossless (items st db project) x.entries) ↔
      st.creates (archiveName project) = true ∧
        (∀ s ∈ db.projectSteps project.id, s.label ≠ none → contentItems st db s = []) ∧
        ∀ s ∈ db.notLabels project.id,
          (∀ m ∈ db.stepImages s.id, ImageThere db m) ∧ ((stepItems st db s).map Item.filename).Nodup := by
  have hwritten := written_iff hread
  rw [items, List.forall_mem_cons] at hread
  have hexported : ∀ i ∈ (db.notLabels project.id).flatMap (stepItems st db), i.Readable := fun i hi =>
    hread.2 i ((content_perm project.id).mem_iff.mpr (List.mem_append_left _ hi))
  -- every folder begins with a digit, and the description of the project does not
  have hdescription : ∀ e ∈ entriesFrom st db 0 (db.notLabels project.id), "project_description.txt".toList ≠ e.1 := by
    intro e he heq
    obtain ⟨k, t, -, ht⟩ := number_of_mem he
    obtain ⟨c, cs, hcs, hdigit⟩ : ∃ c cs, toS k = c :: cs ∧ c.isDigit = true := by
      cases hk : toS k with
      | nil => exact absurd hk (toS_ne_nil k)
      | cons c cs => exact ⟨c, cs, rfl, isDigit_of_mem_toS (hk ▸ List.mem_cons_self)⟩
    rw [ht, hcs] at heq
    rw [← (List.cons.inj heq).1] at hdigit
    exact absurd hdigit (by decide)
  have hnames : ((("project_description.txt".toList, project.description.getD []) ::
      entriesFrom st db 0 (db.notLabels project.id)).map Prod.fst).Nodup ↔
      ∀ s ∈ db.notLabels project.id, ((stepItems st db s).map Item.filename).Nodup := by
    rw [List.map_cons, List.nodup_cons, nodup_entriesFrom, and_iff_right]
    intro hmem
    obtain ⟨e, he, heq⟩ := List.mem_map.mp hmem
    exact hdescription e he heq.symm
  rw [exportSteps]
  by_cases hname : st.creates (archiveName project) = true
  · rw [if_pos hname, and_iff_right hname]
    by_cases hthere : ∀ s ∈ db.notLabels project.id, ∀ m ∈ db.stepImages s.id, ImageThere db m
    · obtain ⟨n, hn⟩ := export_eq (x := ⟨0, false, [("project_description.txt".toList, project.description.getD [])]⟩)
        rfl hthere hexported
      rw [hn]
      constructor
      · rintro ⟨x, hx, hlossless⟩
        obtain rfl := Option.some.inj hx
        exact ⟨hwritten.mp hlossless.written, fun s hs => ⟨hthere s hs, hnames.mp hlossless.distinct s hs⟩⟩
      · intro h
        exact ⟨_, rfl, hwritten.mpr h.1, hnames.mpr fun s hs => (h.2 s hs).2⟩
    · -- the loop raises at a step whose image is not there
      refine iff_of_false ?_ fun h => hthere fun s hs => (h.2 s hs).1
      push Not at hthere
      obtain ⟨s, hs, m, hm, hgone⟩ := hthere
      rintro ⟨x, hx, -⟩
      rw [Rows.foldlM_eq_none hs (exportStep_eq_none hm hgone)] at hx
      cases hx
  · rw [if_neg hname]
    refine iff_of_false ?_ fun h => hname h.1
    rintro ⟨x, hx, -⟩
    cases hx

end ProjectsController

/-- The lamp with one step of two images. -/
def twoImages (path path' : Text) : Database :=
  { Database.oneProject "Lamp".toList none with
    steps := .ofRows [⟨1, some 1, "Saw".toList, some "Cut it.".toList, 0, none, some 1, none, none, none, none, none, none,
      0, 0⟩] 2 (by decide)
    images := .ofRows [⟨1, some 1, some 1, some path, none, some 0, none, none, none, none, none, none, none⟩,
      ⟨2, some 1, some 1, some path', none, some 1, none, none, none, none, none, none, none⟩] 3
      (by simp [Table.WellKeyed, Keyed.key]) }

/-- A store that answers every address with the address, and has a folder for each image. -/
def folders : ProjectsController.Storage where
  creates := fun name => !name.contains '/'
  designFiles := []
  imageUrl := fun m => "https://s3.amazonaws.com/image/image_path/".toList ++ Text.toS m.id ++ '/' :: m.imagePath.getD []
  videoUrl := fun v => "https://s3.amazonaws.com/video/video_path/".toList ++ Text.toS v.id ++ '/' :: v.videoPath.getD []
  designFileUrl := ProjectsController.DesignFile.designFilePath
  read := .file
  sanitize := id

open ProjectsController

/-- An image that is neither a remix nor a video is there. -/
theorem imageThere_plain {db : Database} {m : Image} (h : m.originalId = none ∧ m.videoId = none) : ImageThere db m := by
  refine ⟨m, ?_, fun hvideo => ?_⟩
  · rw [Database.originalOf, h.1]
  · rw [h.2] at hvideo
    cases hvideo

/-- Two images with different names are both in the archive. -/
theorem export_lossless_twoImages :
    let db := twoImages "saw.jpg".toList "cut.jpg".toList
    ∃ project x, db.projects.find? 1 = some project ∧ exportSteps folders db project = some x ∧
      Lossless (items folders db project) x.entries := by
  intro db
  have hread : ∀ i ∈ items folders db db.projects.rows[0], i.contents = .file i.text := by decide +kernel
  have hplain : ∀ s ∈ db.notLabels db.projects.rows[0].id, ∀ m ∈ db.stepImages s.id,
      m.originalId = none ∧ m.videoId = none := by decide +kernel
  have hnames : ∀ s ∈ db.notLabels db.projects.rows[0].id, ((stepItems folders db s).map Item.filename).Nodup := by
    decide +kernel
  obtain ⟨x, hx⟩ := (export_lossless_iff fun i hi => ⟨_, hread i hi⟩).mpr
    ⟨by decide +kernel, by decide +kernel, fun s hs => ⟨fun m hm => imageThere_plain (hplain s hs m hm), hnames s hs⟩⟩
  exact ⟨db.projects.rows[0], x, by decide, hx⟩

/-- Two pictures from a telephone have one name in the archive. -/
theorem export_loses_image :
    let db := twoImages "image.jpg".toList "image.jpg".toList
    ∃ project x, db.projects.find? 1 = some project ∧ (∀ i ∈ items folders db project, i.Readable) ∧
      exportSteps folders db project = some x ∧ x.entries.map Prod.fst = ["project_description.txt".toList,
        "0 - Saw/description.txt".toList, "0 - Saw/image.jpg".toList, "0 - Saw/image.jpg".toList] ∧
      ¬ Lossless (items folders db project) x.entries := by
  intro db
  have hrun : (exportSteps folders db db.projects.rows[0]).map (fun x => x.entries.map Prod.fst) =
      some ["project_description.txt".toList, "0 - Saw/description.txt".toList, "0 - Saw/image.jpg".toList,
        "0 - Saw/image.jpg".toList] := by decide +kernel
  have hread : ∀ i ∈ items folders db db.projects.rows[0], i.contents = .file i.text := by decide +kernel
  obtain ⟨x, hx, hnames⟩ := Option.map_eq_some_iff.mp hrun
  refine ⟨db.projects.rows[0], x, by decide, fun i hi => ⟨_, hread i hi⟩, hx, hnames, fun h => ?_⟩
  have hdistinct := h.distinct
  rw [hnames] at hdistinct
  exact absurd hdistinct (by decide)
