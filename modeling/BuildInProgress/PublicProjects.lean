import BuildInProgress.ImagePositions
import BuildInProgress.PublishedRows

/-!
# Public projects stay published

A public project is meant to be published: it has an image and a title of its own, or it is a remix that was
changed.  Every request asks this at its own moment.  The deletion of an image asks before the image is gone,
and only about its own project; the update of a project asks only under a condition.
-/

open Text Ancestry

namespace Database

/-- Every public project satisfies `published?`. -/
def PublicPublished (db : Database) : Prop :=
  ∀ p ∈ db.projects.rows, p.isPublic = true → db.published p = true

/-- Only the row of project `i` has changed, to `f` of it. -/
theorem publicPublished_iff {db db' : Database} (h : PublicPublished db) {i : Nat} {f : Project → Project}
    (hid : ∀ p, (f p).id = p.id)
    (hrows : db'.projects.rows = db.projects.rows.map fun p => if p.id = i then f p else p) :
    PublicPublished db' ↔
      (∀ q ∈ db.projects.rows, q.id ≠ i → q.isPublic = true → db'.HasImage q.id) ∧
        ∀ p ∈ db.projects.rows, p.id = i → (f p).isPublic = true → (f p).ready = true ∧ db'.HasImage i := by
  unfold PublicPublished
  rw [hrows, List.forall_mem_map]
  constructor
  · intro hall
    refine ⟨fun q hq hne hpublic => ?_, fun p hp hpi hpublic => ?_⟩
    · have hq' := hall q hq
      rw [if_neg hne] at hq'
      exact (published_iff.mp (hq' hpublic)).2
    · have hp' := hall p hp
      rw [if_pos hpi] at hp'
      have himage := published_iff.mp (hp' hpublic)
      rw [hid, hpi] at himage
      exact himage
  · rintro ⟨hothers, hown⟩ p hp
    by_cases hpi : p.id = i
    · rw [if_pos hpi, published_iff, hid, hpi]
      exact hown p hp hpi
    · rw [if_neg hpi, published_iff]
      intro hpublic
      exact ⟨(published_iff.mp (h p hp hpublic)).1, hothers p hp hpi hpublic⟩

/-- The rows of the projects are as they were. -/
theorem publicPublished_of_projects {db db' : Database} (h : PublicPublished db)
    (hprojects : db'.projects = db.projects) :
    PublicPublished db' ↔ ∀ q ∈ db.projects.rows, q.isPublic = true → db'.HasImage q.id := by
  unfold PublicPublished
  rw [hprojects]
  constructor
  · intro hall q hq hpublic
    exact (published_iff.mp (hall q hq hpublic)).2
  · intro hall q hq hpublic
    exact published_iff.mpr ⟨(published_iff.mp (h q hq hpublic)).1, hall q hq hpublic⟩

end Database

/-! ## The images after the deletion of one -/

namespace ImagesController

open Database

theorem mem_images_destroyRemixes {ms : List Image} {db : Database} (hdone : (destroyRemixes ms db).1 = true)
    {x : Image} : x ∈ (destroyRemixes ms db).2.images.rows ↔
      x ∈ db.images.rows ∧ ∀ m ∈ ms, ¬ db.RemixedFrom m.id x.id := by
  have hone : ∀ {db db' : Database} {m : Image} {ms : List Image}, db'.images = db.images →
      (x ∈ (db'.destroyImage m.id).images.rows ∧ (∀ c ∈ ms, ¬ (db'.destroyImage m.id).RemixedFrom c.id x.id) ↔
        x ∈ db.images.rows ∧ ∀ c ∈ m :: ms, ¬ db.RemixedFrom c.id x.id) := by
    intro db db' m ms himages
    rw [mem_images_destroyImage, himages, remixedFrom_congr himages, List.forall_mem_cons, and_assoc]
    apply and_congr_right
    intro _
    apply and_congr_right
    intro hfrom
    have hfrom' : ¬ db'.RemixedFrom m.id x.id := by rwa [remixedFrom_congr himages]
    simp only [remixedFrom_destroyImage hfrom', remixedFrom_congr himages]
  induction ms generalizing db with
  | nil => simp [destroyRemixes]
  | cons m ms ih =>
    unfold destroyRemixes at hdone ⊢
    by_cases hvideo : m.videoId.isSome = true
    · rw [if_pos hvideo] at hdone ⊢
      cases hfind : db.videos.rows.find? (·.imageId = some m.id) with
      | none =>
        rw [hfind] at hdone
        cases hdone
      | some v =>
        rw [hfind] at hdone
        dsimp only at hdone ⊢
        exact (ih hdone).trans (hone (by rfl))
    · rw [if_neg hvideo] at hdone ⊢
      exact (ih hdone).trans (hone rfl)

-- the gap that is closed moves positions only
theorem hasImage_closeGap {db : Database} {beside : Image → Bool} {k : Int} {i q : Nat} :
    ((closeGap beside k db).destroyImage i).HasImage q ↔ (db.destroyImage i).HasImage q := by
  have hface : ∀ x, (movedUp beside k x).id = x.id ∧ (movedUp beside k x).projectId = x.projectId ∧
      (movedUp beside k x).originalId = x.originalId := by
    intro x
    rcases movedUp_cases beside k x with heq | ⟨_, -, -, -, heq⟩
    · rw [heq]
      exact ⟨rfl, rfl, rfl⟩
    · rw [heq]
      exact ⟨rfl, rfl, rfl⟩
  have hfrom : ∀ j, (closeGap beside k db).RemixedFrom i j ↔ db.RemixedFrom i j := by
    intro j
    constructor
    · exact (mediaOf_closeGap beside k db).remixedFrom
    · intro h
      induction h with
      | self => exact .self
      | copy hx ho _ ih =>
        rename_i x _
        rw [← (hface x).1]
        refine .copy ?_ ((hface x).2.2.trans ho) ih
        rw [rows_closeGap]
        exact List.mem_map_of_mem hx
  unfold HasImage
  simp only [mem_images_destroyImage, hfrom]
  rw [rows_closeGap]
  constructor
  · rintro ⟨y, ⟨hy, hno⟩, hp⟩
    obtain ⟨x, hx, rfl⟩ := List.mem_map.mp hy
    rw [(hface x).1] at hno
    exact ⟨x, ⟨hx, hno⟩, (hface x).2.1.symm.trans hp⟩
  · rintro ⟨x, ⟨hx, hno⟩, hp⟩
    refine ⟨movedUp beside k x, ⟨List.mem_map_of_mem hx, ?_⟩, (hface x).2.1.trans hp⟩
    rwa [(hface x).1]

theorem hasImage_destroy_beforeDestroy {m : Image} {db : Database} (hdone : (beforeDestroy m db).1 = true) (q : Nat) :
    ((beforeDestroy m db).2.destroyImage m.id).HasImage q ↔ (db.destroyImage m.id).HasImage q := by
  have hmedia := mediaOf_beforeDestroy m db
  unfold beforeDestroy at hdone hmedia ⊢
  by_cases ho : m.originalId.isSome = true
  · rw [if_pos ho]
  · rw [if_neg ho] at hdone hmedia ⊢
    unfold HasImage
    simp only [mem_images_destroyImage, mem_images_destroyRemixes hdone]
    apply exists_congr
    intro x
    apply and_congr_left
    intro _
    constructor
    · rintro ⟨⟨hx, hcopies⟩, hno⟩
      refine ⟨hx, fun hfrom => ?_⟩
      rcases remixedFrom_cases hfrom with hid | ⟨c, hc, hoc, hrest⟩
      · rw [hid] at hno
        exact hno .self
      · refine hcopies c ?_ hrest
        rw [List.mem_insertionSort, List.mem_filter, decide_eq_true_eq]
        exact ⟨hc, hoc⟩
    · rintro ⟨hx, hno⟩
      refine ⟨⟨hx, fun c hc hfrom => ?_⟩, fun hfrom => hno (hmedia.remixedFrom hfrom)⟩
      rw [List.mem_insertionSort, List.mem_filter, decide_eq_true_eq] at hc
      exact hno ((RemixedFrom.copy hc.1 hc.2 .self).trans hfrom)

theorem hasImage_destroyById {m : Image} {now : Nat} {db : Database} (hm : m ∈ db.images.rows)
    (hok : (destroyById now m db).1 = .ok) (q : Nat) :
    (destroyById now m db).2.HasImage q ↔ (db.destroyImage m.id).HasImage q := by
  rcases destroyById_cases hm now with ⟨hno, -⟩ | ⟨beside, k, -, -, hdone, heq⟩
  · rw [destroyById] at hok
    dsimp only at hok
    rw [← beforeDestroy] at hok
    cases hdone : (beforeDestroy m db).1 with
    | false =>
      rw [hdone] at hok
      cases hok
    | true =>
      rw [hdone, Bool.true_and] at hno
      rw [hdone, Bool.not_true, if_neg Bool.false_ne_true] at hok
      cases hs : siblings (beforeDestroy m db).2 m with
      | none =>
        rw [hs] at hok
        cases hok
      | some beside =>
        cases hk : m.position with
        | none =>
          rw [hs, hk] at hok
          cases hok
        | some k =>
          rw [hs, hk] at hno
          cases hno
  · rw [heq, ← hasImage_destroy_beforeDestroy hdone]
    split
    · exact hasImage_closeGap
    · rfl

theorem hasImage_destroyImage {db : Database} {i q : Nat} : (db.destroyImage i).HasImage q ↔
    ∃ x ∈ db.images.rows, x.projectId = some q ∧ ¬ db.RemixedFrom i x.id := by
  unfold HasImage
  simp only [mem_images_destroyImage]
  constructor
  · rintro ⟨x, ⟨hx, hno⟩, hp⟩
    exact ⟨x, hx, hp, hno⟩
  · rintro ⟨x, hx, hp, hno⟩
    exact ⟨x, ⟨hx, hno⟩, hp⟩

/-- The image a request asks to destroy. -/
def targetOf (db : Database) : Text ⊕ Nat → Option Image
  | .inl path => ((db.images.rows.filter (·.s3Filepath = some path)).insertionSort
      (Database.imageBefore · ·)).head?
  | .inr i => db.images.find? i

theorem hasImage_destroy {u : User} {now : Nat} {target : Text ⊕ Nat} {db : Database}
    (hok : (destroy u now target db).1 = .ok) :
    ∃ m, targetOf db target = some m ∧ ∀ q, (destroy u now target db).2.HasImage q ↔
      ∃ x ∈ db.images.rows, x.projectId = some q ∧ ¬ db.RemixedFrom m.id x.id := by
  unfold destroy at hok ⊢
  cases target with
  | inl path =>
    dsimp only [targetOf] at hok ⊢
    cases hhead : ((db.images.rows.filter (·.s3Filepath = some path)).insertionSort
        (Database.imageBefore · ·)).head? with
    | none =>
      rw [hhead] at hok
      cases hok
    | some m => exact ⟨m, rfl, fun q => hasImage_destroyImage⟩
  | inr i =>
    dsimp only [targetOf] at hok ⊢
    cases hfind : db.images.find? i with
    | none =>
      rw [hfind] at hok
      cases hok
    | some m =>
      rw [hfind] at hok
      dsimp only at hok ⊢
      obtain ⟨-, heq⟩ := authorize_ok hok
      rw [heq] at hok ⊢
      have hm : m ∈ db.images.rows := (Table.find?_eq_some.mp hfind).1
      exact ⟨m, rfl, fun q => (hasImage_destroyById hm hok q).trans hasImage_destroyImage⟩

end ImagesController

/-! ## The images after the update of a project -/

namespace ProjectsController

open Database

/-- What the nested images make of a row. -/
def nestedRow (entries : List (Option Nat × List ImageAttr)) (m : Image) : Image :=
  entries.foldl (fun m e => if e.1 = some m.id then e.2.foldl ImageAttr.assign m else m) m

/-- The nested images leave the project `i` an image: they build one, or one of its images stays there. -/
def nestedLeaves (db : Database) (i : Nat) (params : List ProjectAttr) : Prop :=
  (∃ e ∈ ProjectAttr.imagesOf params, e.1 = none) ∨
    ∃ x ∈ db.projectImages i, (nestedRow (ProjectAttr.imagesOf params) x).projectId = some i

theorem rows_foldl_saveNestedImage (i : Nat) (db : Database) {bound : Nat}
    {entries : List (Option Nat × List ImageAttr)} {old built : List Image}
    (hrows : db.images.rows = old ++ built) (hbound : bound ≤ db.images.next)
    (hbuilt : ∀ x ∈ built, bound ≤ x.id) (hids : ∀ e ∈ entries, ∀ j, e.1 = some j → j < bound) :
    ∃ new, (entries.foldl (saveNestedImage i) db).images.rows = old.map (nestedRow entries) ++ (built ++ new) ∧
      (∀ x ∈ new, x.projectId = some i) ∧ (new ≠ [] ↔ ∃ e ∈ entries, e.1 = none) := by
  induction entries generalizing db old built with
  | nil =>
    refine ⟨[], ?_, by simp, by simp⟩
    rw [List.append_nil]
    exact hrows.trans (congrArg (· ++ built) (List.map_id' old).symm)
  | cons e entries ih =>
    have hrest : ∀ e ∈ entries, ∀ j, e.1 = some j → j < bound := fun e he => hids e (List.mem_cons_of_mem _ he)
    cases he : e.1 with
    | some j =>
      have hj : j < bound := hids e List.mem_cons_self j he
      -- an id in the parameters is one of the old rows
      have hrows' : (saveNestedImage i db e).images.rows =
          old.map (fun m => if e.1 = some m.id then e.2.foldl ImageAttr.assign m else m) ++ built := by
        rw [saveNestedImage, he]
        dsimp only
        rw [ImagesController.modifyImage, Table.rows_modify, hrows, List.map_append]
        congr 1
        · apply List.map_congr_left
          intro m _
          by_cases hid : m.id = j
          · rw [if_pos (congrArg some hid.symm)]
            exact if_pos hid
          · rw [if_neg fun h => hid (Option.some.inj h).symm]
            exact if_neg hid
        · apply List.map_eq_self_of_forall
          intro m hm
          rw [if_neg]
          intro hid
          have hle : bound ≤ m.id := hbuilt m hm
          have hmj : m.id = j := hid
          omega
      have hnext : (saveNestedImage i db e).images.next = db.images.next := by
        rw [saveNestedImage, he]
        rfl
      obtain ⟨new, hnew, hproject, hnone⟩ := ih _ hrows' (hnext ▸ hbound) hbuilt hrest
      refine ⟨new, ?_, hproject, ?_⟩
      · rw [List.foldl_cons, hnew, List.map_map]
        rfl
      · rw [hnone]
        simp [he]
    | none =>
      have hrows' : (saveNestedImage i db e).images.rows = old ++ (built ++
          [{ e.2.foldl ImageAttr.assign blankImage with projectId := some i, id := db.images.next }]) := by
        rw [saveNestedImage, he, ← List.append_assoc, ← hrows]
        rfl
      have hnext : (saveNestedImage i db e).images.next = db.images.next + 1 := by
        rw [saveNestedImage, he]
        rfl
      have hbuilt' : ∀ x ∈ built ++
          [{ e.2.foldl ImageAttr.assign blankImage with projectId := some i, id := db.images.next }], bound ≤ x.id := by
        intro x hx
        rcases List.mem_append.mp hx with hx | hx
        · exact hbuilt x hx
        · rw [List.mem_singleton.mp hx]
          exact hbound
      obtain ⟨new, hnew, hproject, -⟩ := ih _ hrows' (by omega) hbuilt' hrest
      have hsame : nestedRow (e :: entries) = nestedRow entries := by
        funext m
        rw [nestedRow, List.foldl_cons, he, if_neg (by simp)]
        rfl
      refine ⟨{ e.2.foldl ImageAttr.assign blankImage with projectId := some i, id := db.images.next } :: new,
        ?_, ?_, ?_⟩
      · rw [List.foldl_cons, hnew, hsame, List.append_assoc, List.singleton_append]
      · intro x hx
        rcases List.mem_cons.mp hx with rfl | hx
        · rfl
        · exact hproject x hx
      · exact iff_of_true (List.cons_ne_nil _ _) ⟨e, List.mem_cons_self, he⟩

theorem nestedRow_of_notMem {entries : List (Option Nat × List ImageAttr)} {m : Image}
    (h : ∀ e ∈ entries, e.1 ≠ some m.id) : nestedRow entries m = m := by
  induction entries with
  | nil => rfl
  | cons e entries ih =>
    rw [nestedRow, List.foldl_cons, if_neg (h e List.mem_cons_self)]
    exact ih fun e he => h e (List.mem_cons_of_mem _ he)

-- the nested images with an id are images of the project
theorem projectId_of_nested {db : Database} {i : Nat} {params : List ProjectAttr}
    (hfound : nestedImagesFound db i params = true) {e : Option Nat × List ImageAttr}
    (he : e ∈ ProjectAttr.imagesOf params) {m : Image} (hm : m ∈ db.images.rows) (hid : e.1 = some m.id) :
    m.projectId = some i := by
  have hone := List.all_eq_true.mp hfound e he
  rw [hid, Option.all_some] at hone
  obtain ⟨x, hx, hxid⟩ := List.any_eq_true.mp hone
  rw [projectImages, List.mem_filter, decide_eq_true_eq] at hx
  rw [decide_eq_true_eq] at hxid
  rw [← Table.eq_of_key hx.1 hm hxid]
  exact hx.2

theorem hasImage_saveProject {db : Database} {now i : Nat} {project : Project} {params : List ProjectAttr}
    (hfound : nestedImagesFound db i params = true) (hid : project.id = i) :
    ((saveProject db now project params).HasImage i ↔ nestedLeaves db i params) ∧
      ∀ q, q ≠ i → db.HasImage q → (saveProject db now project params).HasImage q := by
  have hids : ∀ e ∈ ProjectAttr.imagesOf params, ∀ j, e.1 = some j → j < db.images.next := by
    intro e he j hj
    have hone := List.all_eq_true.mp hfound e he
    rw [hj, Option.all_some] at hone
    obtain ⟨x, hx, hxid⟩ := List.any_eq_true.mp hone
    rw [projectImages, List.mem_filter] at hx
    rw [decide_eq_true_eq] at hxid
    rw [← hxid]
    exact (db.images.bound x hx.1).2
  have hold : (db.putProject (ProjectAttr.record now params project)).images.rows = db.images.rows ++ [] :=
    (List.append_nil _).symm
  obtain ⟨new, hrows, hnew, hnone⟩ := rows_foldl_saveNestedImage project.id
    (db.putProject (ProjectAttr.record now params project)) hold (Nat.le_refl _)
    (fun _ hx => absurd hx List.not_mem_nil) hids
  rw [List.nil_append] at hrows
  rw [hid] at hnew
  -- the rows of the other projects are not written
  have hother : ∀ x ∈ db.images.rows, x.projectId ≠ some i → nestedRow (ProjectAttr.imagesOf params) x = x :=
    fun x hx hne => nestedRow_of_notMem fun e he h => hne (projectId_of_nested hfound he hx h)
  have hmem : ∀ q, (saveProject db now project params).HasImage q ↔
      (∃ x ∈ db.images.rows, (nestedRow (ProjectAttr.imagesOf params) x).projectId = some q) ∨
        ∃ x ∈ new, x.projectId = some q := by
    intro q
    unfold HasImage
    rw [saveProject, hrows]
    simp only [List.mem_append, List.mem_map, or_and_right, exists_or, exists_exists_and_eq_and]
  refine ⟨?_, fun q hne himage => ?_⟩
  · rw [hmem, nestedLeaves, ← hnone, or_comm]
    refine or_congr ⟨?_, ?_⟩ ⟨?_, ?_⟩
    · rintro ⟨x, hx, -⟩
      exact List.ne_nil_of_mem hx
    · intro hne
      obtain ⟨x, hx⟩ := List.exists_mem_of_ne_nil _ hne
      exact ⟨x, hx, hnew x hx⟩
    · rintro ⟨x, hx, hi⟩
      refine ⟨x, ?_, hi⟩
      rw [projectImages, List.mem_filter, decide_eq_true_eq]
      by_cases hown : x.projectId = some i
      · exact ⟨hx, hown⟩
      · rw [hother x hx hown] at hi
        exact ⟨hx, hi⟩
    · rintro ⟨x, hx, hi⟩
      exact ⟨x, (List.mem_filter.mp hx).1, hi⟩
  · obtain ⟨x, hx, hq⟩ := himage
    refine (hmem q).mpr (Or.inl ⟨x, hx, ?_⟩)
    have hown : x.projectId ≠ some i := by
      rw [hq]
      exact fun h => hne (Option.some.inj h)
    rw [hother x hx hown]
    exact hq

end ProjectsController

/-! ## The requests -/

namespace Project

theorem isPublic_republished (published : Bool) (now : Nat) (p : Project) :
    (p.republished published now).isPublic = if p.valid then published && !p.isPrivate else p.isPublic := by
  rw [isPublic, privacy_republished]
  by_cases hv : p.valid = true
  · rw [if_pos hv, if_pos hv]
    cases published with
    | false => rfl
    | true =>
      rw [if_pos rfl, Bool.true_and]
      cases hprivate : p.isPrivate with
      | true =>
        rw [isPrivate, beq_iff_eq] at hprivate
        rw [if_pos rfl, hprivate]
        decide
      | false => rw [if_neg Bool.false_ne_true, beq_self_eq_true, Bool.not_false]
  · rw [if_neg hv, if_neg hv, isPublic]

theorem isPublic_settledRow (gate published built : Bool) (now : Nat) (p : Project) :
    (StepsController.settledRow gate published built now p).isPublic =
      if gate && p.valid then published && !p.isPrivate else p.isPublic := by
  have hbuilt : ∀ p : Project, (p.updated (some now) fun p => { p with built := some built }).isPublic = p.isPublic := by
    intro p
    unfold updated
    split
    · rfl
    · rfl
  rw [StepsController.settledRow, hbuilt]
  cases gate with
  | true => rw [if_pos rfl, isPublic_republished, Bool.true_and]
  | false => rw [if_neg Bool.false_ne_true, Bool.false_and, if_neg Bool.false_ne_true]

/-- A project that `set_published` leaves public is ready when its stamp says so. -/
theorem ready_republished {p : Project} (h : p.ready = true) (hv : p.valid = true) (hprivate : p.isPrivate = false)
    (now : Nat) : (p.republished true now).ready = true ↔
      (p.isRemix = true → p.isPublic = false → p.createdAt ≠ now) := by
  by_cases hp : p.isPublic = true
  · rw [republished_of_public hp]
    exact iff_of_true h fun _ hno => absurd hp (by rw [hno]; exact Bool.false_ne_true)
  · have hp' : p.isPublic = false := Bool.eq_false_of_not_eq_true hp
    have hne : ({ p with privacy := some "public".toList } : Project) ≠ p := by
      intro heq
      have hprivacy : p.privacy = some "public".toList := (congrArg Project.privacy heq).symm
      exact hp (by rw [isPublic, hprivacy, beq_self_eq_true])
    have heq : p.republished true now = { p with privacy := some "public".toList, updatedAt := now } := by
      unfold republished
      rw [hprivate, Bool.true_and, Bool.true_and, Bool.not_false, if_pos rfl, updated_of_valid (by exact hv) hne]
      split
      · rfl
      · rfl
    rw [heq]
    by_cases hremix : p.isRemix = true
    · have hready : ready { p with privacy := some "public".toList, updatedAt := now } = (now != p.createdAt) :=
        if_pos hremix
      rw [hready, bne_iff_ne]
      exact ⟨fun hnow _ _ => hnow.symm, fun hstays => (hstays hremix hp').symm⟩
    · refine iff_of_true ?_ fun hr => absurd hr hremix
      rw [ready, if_neg hremix] at h
      exact (if_neg hremix).trans h

/-- A title that `published?` refuses is one that `update` asks about. -/
theorem untitled_of_startsWith {p : Project} (h : startsWith p.title "Untitled".toList = true) :
    ProjectsController.untitled p = true := by
  rw [startsWith, List.isPrefixOf_iff_prefix] at h
  obtain ⟨rest, hrest⟩ := h
  have hlower : downcase p.title = "untitled".toList ++ downcase rest := by
    rw [← hrest, downcase, List.map_append, downcase]
    rfl
  rw [ProjectsController.untitled, includes, hlower, List.any_eq_true]
  refine ⟨"untitled".toList ++ downcase rest, (List.mem_tails _ _).mpr List.suffix_rfl, ?_⟩
  rw [List.isPrefixOf_iff_prefix]
  exact List.prefix_append _ _

-- writing whether the project is built may stamp it
theorem ready_built {p : Project} (h : p.ready = true) (now : Nat) (built : Bool) :
    (p.updated (some now) fun p => { p with built := some built }).ready = true ↔
      (p.valid = true → p.isRemix = true → p.built ≠ some built → p.createdAt ≠ now) := by
  by_cases hsame : p.built = some built
  · rw [updated_of_eq (by rw [← hsame])]
    exact iff_of_true h fun _ _ hne => absurd hsame hne
  · by_cases hv : p.valid = true
    · have hne : ({ p with built := some built } : Project) ≠ p := fun heq =>
        hsame (congrArg Project.built heq).symm
      rw [updated_of_valid (by exact hv) hne]
      by_cases hremix : p.isRemix = true
      · have hready : ready { p with built := some built, updatedAt := now } = (now != p.createdAt) := if_pos hremix
        constructor
        · intro hnow _ _ _
          exact (bne_iff_ne.mp (hready.symm.trans hnow)).symm
        · intro hstays
          exact hready.trans (bne_iff_ne.mpr (hstays hv hremix hsame).symm)
      · refine iff_of_true ?_ fun _ hr => absurd hr hremix
        rw [ready, if_neg hremix] at h
        exact (if_neg hremix).trans h
    · rw [updated_of_not_valid (by exact Bool.eq_false_of_not_eq_true hv)]
      exact iff_of_true h fun hvalid => absurd hvalid hv

theorem not_private_of_public {p : Project} (h : p.isPublic = true) : p.isPrivate = false := by
  rw [isPublic, beq_iff_eq] at h
  rw [isPrivate, h]
  decide

theorem not_private_of_unpublished {p : Project} (h : p.unpublished = true) : p.isPrivate = false := by
  rw [isPrivate, beq_eq_false_iff_ne]
  intro hprivate
  rw [unpublished, hprivate] at h
  exact absurd h (by decide)

end Project

namespace Database

/-- Project `i` has an image that was remixed from none of `ms`. -/
def KeepsImage (db : Database) (ms : List Image) (i : Nat) : Prop :=
  ∃ x ∈ db.images.rows, x.projectId = some i ∧ ∀ m ∈ ms, ¬ db.RemixedFrom m.id x.id

theorem forall_project_iff {db : Database} {i : Nat} {project : Project} (h : db.projects.find? i = some project)
    {P : Project → Prop} : (∀ p ∈ db.projects.rows, p.id = i → P p) ↔ P project := by
  obtain ⟨hmem, hid⟩ := Table.find?_eq_some.mp h
  constructor
  · intro hall
    exact hall project hmem hid
  · intro hP p hp hpi
    rw [Table.eq_of_key hp hmem (hpi.trans hid.symm)]
    exact hP

end Database

namespace ProjectRequest

open Database ProjectsController

def outcome (db : Database) : ProjectRequest → Outcome
  | createStep u now html i params => (StepsController.create u now html i params db).1
  | updateStep u now i id params => (StepsController.update u now i id params db).1
  | destroyStep u now i key => (StepsController.destroy u now i key db).1
  | updateProject u now i params => (ProjectsController.update u now i params db).1
  | destroyImage u now target => (ImagesController.destroy u now target db).1
  | remix u now i => if (db.remix u now i).1.isSome then .ok else .invalid

/-- What keeps the public projects published.  Besides the images that go, it is the stamps: a remix that is
written when it was created counts as unchanged. -/
def StaysPublished (db : Database) : ProjectRequest → Prop
  | createStep _ now _ i _ => ∀ p, db.projects.find? i = some p → p.isRemix = true →
      (p.isPublic = true ∨ (p.unpublished = true ∧ p.valid = true ∧ db.published p = true)) → p.createdAt ≠ now
  | updateStep _ now i _ _ => ∀ p, db.projects.find? i = some p → p.isPublic = true → p.isRemix = true →
      p.valid = true ∨ p.createdAt ≠ now
  | destroyStep _ now i key => ∀ d, db.findStep key = some d → ∀ p ∈ db.projects.rows, p.isPublic = true →
      if p.id = i ∧ p.valid = true then db.KeepsImage (db.stepImages d.id) i → p.isRemix = true →
        p.built ≠ some (StepsController.builtWithout db i d) → p.createdAt ≠ now
      else db.KeepsImage (db.stepImages d.id) p.id
  | updateProject _ now i params => ∀ p, db.projects.find? i = some p →
      let saved := ProjectAttr.record now params p
      if asks now params p = true then saved.isRemix = true → saved.updatedAt ≠ saved.createdAt →
        nestedLeaves db i params → saved.isPrivate = false → saved.isPublic = false → saved.createdAt ≠ now
      else saved.isPublic = true → nestedLeaves db i params ∧
        (saved.isRemix = true → saved.updatedAt ≠ saved.createdAt)
  | destroyImage _ _ target => ∀ m, ImagesController.targetOf db target = some m →
      ∀ p ∈ db.projects.rows, p.isPublic = true → db.KeepsImage [m] p.id
  | remix _ _ _ => True

variable {db : Database}

theorem publicPublished_createStep (h : db.PublicPublished) {u : User} {now : Nat} {html : Bool} {i : Nat}
    {params : List StepAttr} (hok : outcome db (.createStep u now html i params) = .ok) :
    (perform db (.createStep u now html i params)).PublicPublished ↔
      StaysPublished db (.createStep u now html i params) := by
  obtain ⟨project, built, hproject, -, hrows, himages⟩ := StepsController.rows_create hok
  have hmem : project ∈ db.projects.rows := (Table.find?_eq_some.mp hproject).1
  have hid : project.id = i := (Table.find?_eq_some.mp hproject).2
  have htitle : ∀ p : Project, p.SameTitle { StepsController.settledRow (project.isPublic || project.unpublished)
      (db.published p) built now p with updatedAt := now } := fun p =>
    StepsController.sameTitle_settledRow _ _ _ _ p
  rw [perform, publicPublished_iff h (fun p => (htitle p).1) hrows, forall_project_iff hproject, himages, StaysPublished]
  have hpublic := Project.isPublic_settledRow (project.isPublic || project.unpublished) (db.published project) built
    now project
  have hbefore : project.isPublic = true → db.published project = true := h project hmem
  -- what is public afterwards was published before
  have hafter : (StepsController.settledRow (project.isPublic || project.unpublished) (db.published project) built
      now project).isPublic = true ↔ project.isPublic = true ∨
        (project.unpublished = true ∧ project.valid = true ∧ db.published project = true) := by
    rw [hpublic]
    by_cases hp : project.isPublic = true
    · simp [hp, hbefore hp, Project.not_private_of_public hp]
    · by_cases hblank : project.unpublished = true
      · by_cases hv : project.valid = true
        · simp [hp, hblank, hv, Project.not_private_of_unpublished hblank]
        · simp [hp, hblank, hv]
      · simp [hp, hblank]
  constructor
  · rintro ⟨-, hown⟩ p hp hremix hcase
    cases hproject.symm.trans hp
    have hready := (hown (hafter.mpr hcase)).1
    rw [Project.ready_of_sameTitle (htitle project), if_pos hremix, bne_iff_ne] at hready
    exact hready.symm
  · intro hstays
    refine ⟨fun q hq _ hpublic' => (himages q.id).mpr (published_iff.mp (h q hq hpublic')).2, fun hpublic' => ?_⟩
    have hcase := hafter.mp hpublic'
    have hpub : db.published project = true := hcase.elim hbefore fun hc => hc.2.2
    obtain ⟨hready, himage⟩ := published_iff.mp hpub
    refine ⟨?_, hid ▸ himage⟩
    rw [Project.ready_of_sameTitle (htitle project)]
    by_cases hremix : project.isRemix = true
    · rw [if_pos hremix, bne_iff_ne]
      exact (hstays project hproject hremix hcase).symm
    · rw [Project.ready, if_neg hremix] at hready
      rw [if_neg hremix]
      exact hready

theorem publicPublished_updateStep (h : db.PublicPublished) {u : User} {now i : Nat} {id : Int}
    {params : List StepAttr} (hok : outcome db (.updateStep u now i id params) = .ok) :
    (perform db (.updateStep u now i id params)).PublicPublished ↔
      StaysPublished db (.updateStep u now i id params) := by
  obtain ⟨project, built, hproject, -, hrows, himages⟩ := StepsController.rows_update hok
  have hmem : project ∈ db.projects.rows := (Table.find?_eq_some.mp hproject).1
  have hid : project.id = i := (Table.find?_eq_some.mp hproject).2
  have htitle : ∀ p : Project, p.SameTitle (StepsController.settledRow (project.isPublic || project.unpublished)
      (db.published { p with updatedAt := now }) built now { p with updatedAt := now }) := fun p =>
    StepsController.sameTitle_settledRow _ _ _ _ { p with updatedAt := now }
  rw [perform, publicPublished_iff h (fun p => (htitle p).1) hrows, forall_project_iff hproject, himages, StaysPublished]
  have hstamp : (StepsController.settledRow (project.isPublic || project.unpublished)
      (db.published { project with updatedAt := now }) built now { project with updatedAt := now }).updatedAt = now :=
    StepsController.updatedAt_settledRow (by rfl) _ _ _
  have hpublic := Project.isPublic_settledRow (project.isPublic || project.unpublished)
    (db.published { project with updatedAt := now }) built now { project with updatedAt := now }
  have hready := Project.ready_of_sameTitle (htitle project)
  rw [hstamp] at hready
  -- the stamped row counts as published when the result does
  have hpublished : db.published { project with updatedAt := now } = true ↔
      (StepsController.settledRow (project.isPublic || project.unpublished)
        (db.published { project with updatedAt := now }) built now { project with updatedAt := now }).ready = true ∧
      db.HasImage i := by
    rw [published_iff, hready, ← hid]
    rfl
  have hothers : ∀ q ∈ db.projects.rows, q.id ≠ i → q.isPublic = true →
      (perform db (.updateStep u now i id params)).HasImage q.id := fun q hq _ hpublic' =>
    (himages q.id).mpr (published_iff.mp (h q hq hpublic')).2
  by_cases hv : project.valid = true
  · refine iff_of_true ⟨hothers, fun hpublic' => hpublished.mp ?_⟩ fun p hp _ _ => Or.inl ?_
    · by_cases hgate : (project.isPublic || project.unpublished) = true
      · rw [hpublic, if_pos (by rw [hgate]; exact hv), Bool.and_eq_true] at hpublic'
        exact hpublic'.1
      · rw [hpublic, if_neg (by rw [Bool.and_eq_true]; exact fun hc => hgate hc.1)] at hpublic'
        have hp : project.isPublic = true := hpublic'
        exact absurd (by rw [hp]; rfl) hgate
    · cases hproject.symm.trans hp
      exact hv
  · have hpublic' : (StepsController.settledRow (project.isPublic || project.unpublished)
        (db.published { project with updatedAt := now }) built now { project with updatedAt := now }).isPublic =
        project.isPublic := by
      rw [hpublic, if_neg (by rw [Bool.and_eq_true]; exact fun hc => hv hc.2)]
      rfl
    rw [hpublic', hready]
    constructor
    · rintro ⟨-, hown⟩ p hp hisPublic hremix
      cases hproject.symm.trans hp
      have hchanged := (hown hisPublic).1
      rw [if_pos hremix, bne_iff_ne] at hchanged
      exact Or.inr hchanged.symm
    · intro hstays
      refine ⟨hothers, fun hisPublic => ?_⟩
      obtain ⟨hready', himage⟩ := published_iff.mp (h project hmem hisPublic)
      refine ⟨?_, hid ▸ himage⟩
      by_cases hremix : project.isRemix = true
      · rw [if_pos hremix, bne_iff_ne]
        exact ((hstays project hproject hisPublic hremix).resolve_left hv).symm
      · rw [Project.ready, if_neg hremix] at hready'
        rw [if_neg hremix]
        exact hready'

/-- The row of the project of a deleted step; `published` is asked after the deletion, and `keeps` is what it finds. -/
theorem settledRow_stays {project : Project} {published built : Bool} {keeps : Prop} (now : Nat)
    (hready : project.isPublic = true → project.ready = true)
    (hpublished : project.isPublic = true → (published = true ↔ keeps)) :
    ((StepsController.settledRow project.isPublic published built now project).isPublic = true →
      (StepsController.settledRow project.isPublic published built now project).ready = true ∧ keeps) ↔
      (project.isPublic = true →
        if project.valid = true then keeps → project.isRemix = true → project.built ≠ some built → project.createdAt ≠ now
        else keeps) := by
  have hpublic := Project.isPublic_settledRow project.isPublic published built now project
  by_cases hp : project.isPublic = true
  · have hgate : (project.isPublic && project.valid) = project.valid := by rw [hp, Bool.true_and]
    have hrow : keeps → ((StepsController.settledRow project.isPublic published built now project).ready = true ↔
        (project.valid = true → project.isRemix = true → project.built ≠ some built → project.createdAt ≠ now)) := by
      intro hkeeps
      rw [(hpublished hp).mpr hkeeps, hp, StepsController.settledRow, if_pos rfl, Project.republished_of_public hp,
        Project.ready_built (hready hp)]
    rw [hpublic, hgate, Project.not_private_of_public hp, Bool.not_false, Bool.and_true]
    by_cases hv : project.valid = true
    · rw [if_pos hv, if_pos hv, hpublished hp]
      constructor
      · intro hall _ hkeeps
        exact (hrow hkeeps).mp (hall hkeeps).1 hv
      · intro hstays hkeeps
        exact ⟨(hrow hkeeps).mpr fun _ => hstays hp hkeeps, hkeeps⟩
    · rw [if_neg hv, if_neg hv]
      constructor
      · exact fun hall _ => (hall hp).2
      · intro hkeeps _
        exact ⟨(hrow (hkeeps hp)).mpr fun hvalid => absurd hvalid hv, hkeeps hp⟩
  · have hp' : project.isPublic = false := Bool.eq_false_of_not_eq_true hp
    rw [hp', Bool.false_and, if_neg Bool.false_ne_true] at hpublic
    rw [hp', hpublic]
    exact iff_of_true (fun hf => absurd hf Bool.false_ne_true) fun hf => absurd hf Bool.false_ne_true

theorem publicPublished_destroyStep (h : db.PublicPublished) {u : User} {now i : Nat}
    {key : StepKey} (hok : outcome db (.destroyStep u now i key) = .ok) :
    (perform db (.destroyStep u now i key)).PublicPublished ↔ StaysPublished db (.destroyStep u now i key) := by
  obtain ⟨project, d, hproject, hd, -, hrows, himages⟩ := StepsController.rows_destroy hok
  have hmem : project ∈ db.projects.rows := (Table.find?_eq_some.mp hproject).1
  have hid : project.id = i := (Table.find?_eq_some.mp hproject).2
  -- the images that stay
  have hkeeps : ∀ q, (perform db (.destroyStep u now i key)).HasImage q ↔ db.KeepsImage (db.stepImages d.id) q := by
    intro q
    unfold HasImage KeepsImage
    simp only [perform, himages, stepImages, List.mem_filter, decide_eq_true_eq, and_imp]
    constructor
    · rintro ⟨x, ⟨hx, hno⟩, hp⟩
      exact ⟨x, hx, hp, hno⟩
    · rintro ⟨x, hx, hp, hno⟩
      exact ⟨x, ⟨hx, hno⟩, hp⟩
  rw [perform, publicPublished_iff h (fun p => (StepsController.sameTitle_settledRow _ _ _ _ p).1) hrows,
    forall_project_iff hproject, ← perform]
  simp only [hkeeps]
  have hbefore : project.isPublic = true → project.ready = true := fun hp => (published_iff.mp (h project hmem hp)).1
  have hpublished : ∀ hp : project.isPublic = true, (perform db (.destroyStep u now i key)).published project = true ↔
      db.KeepsImage (db.stepImages d.id) i := by
    intro hp
    rw [published_iff, hkeeps, hid]
    exact and_iff_right (hbefore hp)
  rw [settledRow_stays now hbefore hpublished, StaysPublished]
  constructor
  · rintro ⟨hothers, hproj⟩ d' hd' p hp hisPublic
    cases hd.symm.trans hd'
    by_cases hpi : p.id = i
    · have heq : p = project := Table.eq_of_key hp hmem (hpi.trans hid.symm)
      rw [heq] at hisPublic ⊢
      have hcase := hproj hisPublic
      by_cases hv : project.valid = true
      · rw [if_pos hv] at hcase
        rw [if_pos ⟨hid, hv⟩]
        exact hcase
      · rw [if_neg hv] at hcase
        rw [if_neg fun hc => hv hc.2, hid]
        exact hcase
    · rw [if_neg fun hc => hpi hc.1]
      exact hothers p hp hpi hisPublic
  · intro hstays
    refine ⟨fun q hq hne hisPublic => ?_, fun hisPublic => ?_⟩
    · have hcase := hstays d hd q hq hisPublic
      rwa [if_neg fun hc => hne hc.1] at hcase
    · have hcase := hstays d hd project hmem hisPublic
      by_cases hv : project.valid = true
      · rw [if_pos ⟨hid, hv⟩] at hcase
        rw [if_pos hv]
        exact hcase
      · rw [if_neg fun hc => hv hc.2, hid] at hcase
        rw [if_neg hv]
        exact hcase

theorem publicPublished_destroyImage (h : db.PublicPublished) {u : User} {now : Nat} {target : Text ⊕ Nat}
    (hok : outcome db (.destroyImage u now target) = .ok) :
    (perform db (.destroyImage u now target)).PublicPublished ↔ StaysPublished db (.destroyImage u now target) := by
  obtain ⟨m, hm, himages⟩ := ImagesController.hasImage_destroy hok
  have hprojects : (perform db (.destroyImage u now target)).projects = db.projects :=
    ImagesController.touches_destroy u now target db .projects (by decide)
  have hkeeps : ∀ q, (perform db (.destroyImage u now target)).HasImage q ↔ db.KeepsImage [m] q := by
    intro q
    rw [perform, himages, KeepsImage]
    simp only [List.forall_mem_singleton]
  rw [publicPublished_of_projects h hprojects, StaysPublished]
  simp only [hkeeps]
  constructor
  · intro hall m' hm'
    cases hm.symm.trans hm'
    exact hall
  · intro hall
    exact hall m hm

/-- The row of a project that is updated; `leaves` says whether it has an image afterwards. -/
theorem rowAfter_stays {now : Nat} {params : List ProjectAttr} {project : Project} {leaves : Prop}
    (hv : (ProjectAttr.record now params project).valid = true)
    (hpublished : publishedAfter db now params project = true ↔
      (ProjectAttr.record now params project).ready = true ∧ leaves) :
    ((rowAfter db now params project).isPublic = true → (rowAfter db now params project).ready = true ∧ leaves) ↔
      let saved := ProjectAttr.record now params project
      if asks now params project = true then saved.isRemix = true → saved.updatedAt ≠ saved.createdAt →
        leaves → saved.isPrivate = false → saved.isPublic = false → saved.createdAt ≠ now
      else saved.isPublic = true → leaves ∧ (saved.isRemix = true → saved.updatedAt ≠ saved.createdAt) := by
  rw [rowAfter]
  dsimp only
  generalize hrecord : ProjectAttr.record now params project = saved at hpublished hv
  by_cases hask : asks now params project = true
  · rw [if_pos hask, if_pos hask, Project.isPublic_republished, if_pos hv, Bool.and_eq_true, Bool.not_eq_true']
    -- only a remix that is not public yet has its time written when it is published
    by_cases hpub : publishedAfter db now params project = true
    · obtain ⟨hready, hleaves⟩ := hpublished.mp hpub
      rw [hpub]
      by_cases hremix : saved.isRemix = true
      · have hchanged : saved.updatedAt ≠ saved.createdAt := by
          rw [Project.ready, if_pos hremix, bne_iff_ne] at hready
          exact hready
        constructor
        · intro hall _ _ _ hprivate hpublic
          exact (Project.ready_republished hready hv hprivate now).mp (hall ⟨rfl, hprivate⟩).1 hremix hpublic
        · rintro hstays ⟨-, hprivate⟩
          refine ⟨(Project.ready_republished hready hv hprivate now).mpr fun _ hpublic => ?_, hleaves⟩
          exact hstays hremix hchanged hleaves hprivate hpublic
      · refine iff_of_true (fun hpublished => ⟨?_, hleaves⟩) fun hr => absurd hr hremix
        exact (Project.ready_republished hready hv hpublished.2 now).mpr fun hr => absurd hr hremix
    · refine iff_of_true (fun hc => absurd hc.1 hpub) fun hremix hchanged hleaves _ _ => ?_
      exact absurd (hpublished.mpr ⟨by rw [Project.ready, if_pos hremix, bne_iff_ne]; exact hchanged, hleaves⟩) hpub
  · rw [if_neg hask, if_neg hask]
    apply imp_congr_right
    intro _
    rw [and_comm]
    apply and_congr_right
    intro _
    rw [Project.ready]
    by_cases hremix : saved.isRemix = true
    · rw [if_pos hremix, bne_iff_ne]
      exact ⟨fun hne _ => hne, fun hne => hne hremix⟩
    · rw [if_neg hremix, Bool.not_eq_true']
      refine iff_of_true ?_ fun hr => absurd hr hremix
      by_contra hstarts
      apply hask
      rw [asks, hrecord, Project.untitled_of_startsWith (Bool.eq_true_of_not_eq_false hstarts), Bool.or_true]

theorem publicPublished_updateProject (h : db.PublicPublished) {u : User} {now i : Nat} {params : List ProjectAttr}
    (hok : outcome db (.updateProject u now i params) = .ok) :
    (perform db (.updateProject u now i params)).PublicPublished ↔
      StaysPublished db (.updateProject u now i params) := by
  rcases update_saves u now i params db with ⟨-, hno, -⟩ | ⟨project, hproject, hsaves, hv, hrows, himages, -⟩
  · exact absurd hok hno
  have hmem : project ∈ db.projects.rows := (Table.find?_eq_some.mp hproject).1
  have hid : project.id = i := (Table.find?_eq_some.mp hproject).2
  have hfound : nestedImagesFound db i params = true := by
    rw [saves, hproject, Option.filter_some] at hsaves
    split at hsaves
    · rename_i hall
      rw [Bool.and_eq_true, Bool.and_eq_true] at hall
      exact hall.1.2
    · cases hsaves
  have hsaved : ((saveProject db now project params).HasImage i ↔ nestedLeaves db i params) ∧
      ∀ q, q ≠ i → db.HasImage q → (saveProject db now project params).HasImage q := hasImage_saveProject hfound hid
  obtain ⟨hown, hothers⟩ := hsaved
  have hafter : ∀ q, (perform db (.updateProject u now i params)).HasImage q ↔
      (saveProject db now project params).HasImage q := fun q => hasImage_congr himages q
  have hrows' : (perform db (.updateProject u now i params)).projects.rows = db.projects.rows.map fun p =>
      if p.id = i then { rowAfter db now params project with id := p.id } else p := by
    rw [perform, hrows]
    apply List.map_congr_left
    intro p _
    by_cases hp : p.id = i
    · have hrow : (rowAfter db now params project).id = p.id := (rowAfter_id db now params project).trans (hid.trans hp.symm)
      rw [if_pos hp, if_pos hp, ← hrow]
    · rw [if_neg hp, if_neg hp]
  -- the other projects keep their images, so the saved row decides
  refine (publicPublished_iff h (f := fun p => { rowAfter db now params project with id := p.id })
    (by intro _; rfl) hrows').trans ?_
  rw [forall_project_iff hproject]
  simp only [hafter]
  show _ ∧ ((rowAfter db now params project).isPublic = true → (rowAfter db now params project).ready = true ∧ _) ↔ _
  have hpublished : publishedAfter db now params project = true ↔
      (ProjectAttr.record now params project).ready = true ∧ nestedLeaves db i params := by
    rw [publishedAfter, published_iff, ProjectAttr.record_id, hid, hown]
  have hone : StaysPublished db (.updateProject u now i params) ↔ _ :=
    ⟨fun hall => hall project hproject, fun hp p hfind => by
      cases hproject.symm.trans hfind
      exact hp⟩
  rw [hown, rowAfter_stays hv hpublished, hone]
  exact and_iff_right fun q hq hne hpublic => hothers q.id hne (published_iff.mp (h q hq hpublic)).2

end ProjectRequest

/-- Every project that is public and published before a completed request is public and published after it
exactly when the request leaves it an image and does not stamp a remix with the time of its creation. -/
theorem public_stays_published_iff {db : Database} (h : db.PublicPublished) {r : ProjectRequest}
    (hr : ∀ u now i, r ≠ .remix u now i) (hok : r.outcome db = .ok) :
    (r.perform db).PublicPublished ↔ r.StaysPublished db := by
  cases r with
  | createStep u now html i params => exact ProjectRequest.publicPublished_createStep h hok
  | updateStep u now i id params => exact ProjectRequest.publicPublished_updateStep h hok
  | destroyStep u now i key => exact ProjectRequest.publicPublished_destroyStep h hok
  | updateProject u now i params => exact ProjectRequest.publicPublished_updateProject h hok
  | destroyImage u now target => exact ProjectRequest.publicPublished_destroyImage h hok
  | remix u now i => exact absurd rfl (hr u now i)

namespace Database

instance (db : Database) : Decidable db.PublicPublished :=
  inferInstanceAs (Decidable (∀ p ∈ db.projects.rows, p.isPublic = true → db.published p = true))

/-- A public lamp whose step has two images. -/
def twoImages : Database :=
  let db := oneImage "Lamp".toList (some "public".toList)
  ImagesController.insertImage db ⟨0, some 1, some 1, some "b.jpg".toList, none, some 1, some true, none, none, some 1,
    none, none, none⟩

end Database

theorem public_stays_published_one_left :
    (ProjectRequest.perform .twoImages (.destroyImage ada 5 (.inr 1))).PublicPublished := by
  refine (public_stays_published_iff (by decide +kernel) (by intro _ _ _; simp) (by decide +kernel)).mpr ?_
  intro m hm p hp _
  have hm1 : m.id = 1 := (Table.find?_eq_some.mp hm).2
  have hp1 : p.id = 1 := by
    revert p
    decide +kernel
  refine ⟨_, List.mem_cons_of_mem _ List.mem_cons_self, by rw [hp1], fun m' hm' hfrom => ?_⟩
  rw [List.mem_singleton.mp hm', hm1] at hfrom
  -- nothing was remixed from the first image
  rcases Database.remixedFrom_cases hfrom with hid | hcopy
  · exact absurd hid (by decide +kernel)
  · exact absurd (hcopy.imp fun _ => And.imp_right And.left) (by decide +kernel)

/-- The only image of a public project goes, and the project stays public. -/
theorem public_without_images :
    let db := Database.oneImage "Lamp".toList (some "public".toList)
    let r : ProjectRequest := .destroyImage ada 5 (.inr 1)
    db.PublicPublished ∧ r.outcome db = .ok ∧ ¬ (r.perform db).PublicPublished := by
  decide +kernel
