import BuildInProgress.Lib.Numbering
import BuildInProgress.MediaAuthorization
import BuildInProgress.RemixImages

/-!
# Positions of images

Uploads, thumbnails, deletions, sorting and remixes all write positions, each in its own way.  The images
of a step stay numbered 0, 1, 2, … as long as a deletion that closes no gap leaves none: the deletion by
the address of the file, and the cascade into remixes, renumber nothing.
-/

open Text Numbering

namespace Database

/-- The images of each step stand at 0, 1, 2, …, and nothing names a step or a project still to come. -/
structure ImagesNumbered (db : Database) : Prop where
  numbered : ∀ s ∈ db.steps.rows, Numbered Image.position (db.stepImages s.id)
  placed : ∀ m ∈ db.images.rows, ∀ t : Nat, m.stepId = some (t : Int) → t < db.steps.next
  owned : ∀ s ∈ db.steps.rows, ∀ q, s.projectId = some q → q < db.projects.next

/-- No image of its step stands behind the image. -/
def LastOfStep (db : Database) (x : Image) : Prop :=
  ∀ s ∈ db.steps.rows, x.stepId = some (s.id : Int) → ∀ y ∈ db.stepImages s.id,
    ∀ i ∈ x.position, ∀ j ∈ y.position, j ≤ i

theorem mem_stepImages {db : Database} {t : Nat} {m : Image} :
    m ∈ db.stepImages t ↔ m ∈ db.images.rows ∧ m.stepId = some (t : Int) := by
  rw [stepImages, List.mem_filter, decide_eq_true_eq]

end Database

/-- Uploads, deletions, sorting and remixes. -/
inductive ImageRequest where
  | upload (u : User) (now : Nat) (up : ImagesController.Upload)
  | video (u : User) (now : Nat) (up : VideosController.Upload)
  | destroy (u : User) (now : Nat) (target : Text ⊕ Nat)
  | sort (ids : List Nat)
  | remix (u : User) (now p : Nat)

namespace ImageRequest

open Database

variable (info : VideosController.VideoInfo)

def perform (db : Database) : ImageRequest → Database
  | upload u now up => (ImagesController.create u now up db).2
  | video u now up => (VideosController.create u now info up db).2
  | destroy u now target => (ImagesController.destroy u now target db).2
  | sort ids => (ImagesController.sort ids db).2
  | remix u now p => (db.remix u now p).2

/-- A list to sort holds the images of one step. -/
def SortsStep (db : Database) : ImageRequest → Prop
  | sort ids => ∃ s ∈ db.steps.rows, ids.Perm ((db.stepImages s.id).map Image.id)
  | _ => True

/-- Uploads are for a step that is there, a video for one whose images are all in the project of the
video, unless it is a draft; what goes without renumbering is last in its step; a remix copies the images of its
steps. -/
def LeavesNoGap (db : Database) : ImageRequest → Prop
  | upload _ _ up => ∀ i ∈ (up.image db.images.next).stepId, i < db.steps.next
  | video _ _ up => ∀ v ∈ up.video info db.videos.next, ∀ i ∈ v.stepId, i < db.steps.next ∧
      (0 ≤ i → ∀ m ∈ db.images.rows, m.stepId = some i → m.projectId = v.projectId)
  | destroy u _ target =>
    match target with
    | .inl path => ∀ m ∈ db.imageAt path, ∀ x ∈ db.images.rows, db.RemixedFrom m.id x.id → db.LastOfStep x
    | .inr i => ∀ m ∈ db.images.find? i, Ability.destroyImage db u m = some true →
        ∀ x ∈ db.images.rows, db.RemixedFrom i x.id → x.id ≠ i → db.LastOfStep x
  | sort _ => True
  | remix _ _ p => ∀ s ∈ db.projectSteps p, ∀ m ∈ db.stepImages s.id, m.projectId = some p

end ImageRequest

namespace Database

/-! ## Images that go without renumbering -/

/-- Of the images of a step only the last ones are gone. -/
structure Trims (db db' : Database) : Prop where
  steps : db'.steps = db.steps
  front : ∃ p : Image → Bool, db'.images.rows = db.images.rows.filter p ∧
    ∀ s ∈ db.steps.rows, ∀ a ∈ db.stepImages s.id, ∀ b ∈ db.stepImages s.id, p b = true →
      ∀ i j, a.position = some i → b.position = some j → i < j → p a = true

namespace Trims

variable {db db' db'' : Database}

theorem refl (db : Database) : Trims db db :=
  ⟨rfl, fun _ => true, by simp, fun _ _ _ _ _ _ _ _ _ _ _ _ => rfl⟩

theorem stepImages_eq {p : Image → Bool} (h : db'.images.rows = db.images.rows.filter p) (t : Nat) :
    db'.stepImages t = (db.stepImages t).filter p := by
  rw [stepImages, h, stepImages, List.filter_filter, List.filter_filter]
  apply List.filter_congr
  intro m _
  exact Bool.and_comm _ _

theorem trans (h : Trims db db') (h' : Trims db' db'') : Trims db db'' := by
  obtain ⟨p, hrows, hfront⟩ := h.front
  obtain ⟨p', hrows', hfront'⟩ := h'.front
  refine ⟨h'.steps.trans h.steps, fun x => p x && p' x, ?_, ?_⟩
  · rw [hrows', hrows, List.filter_filter]
    apply List.filter_congr
    intro m _
    exact Bool.and_comm _ _
  · intro s hs a ha b hb hpb i j hi hj hlt
    rw [Bool.and_eq_true] at hpb ⊢
    have hpa := hfront s hs a ha b hb hpb.1 i j hi hj hlt
    refine ⟨hpa, hfront' s (by rw [h.steps]; exact hs) a ?_ b ?_ hpb.2 i j hi hj hlt⟩
    · rw [stepImages_eq hrows]
      exact List.mem_filter.mpr ⟨ha, hpa⟩
    · rw [stepImages_eq hrows]
      exact List.mem_filter.mpr ⟨hb, hpb.1⟩

theorem subset (h : Trims db db') {x : Image} (hx : x ∈ db'.images.rows) : x ∈ db.images.rows := by
  obtain ⟨p, hrows, -⟩ := h.front
  rw [hrows] at hx
  exact List.mem_of_mem_filter hx

theorem lastOfStep (h : Trims db db') {x : Image} (hx : db.LastOfStep x) : db'.LastOfStep x := by
  intro s hs hstep y hy
  rw [h.steps] at hs
  rw [mem_stepImages] at hy
  exact hx s hs hstep y (mem_stepImages.mpr ⟨h.subset hy.1, hy.2⟩)

theorem numbered (h : Trims db db') (hn : ∀ s ∈ db.steps.rows, Numbered Image.position (db.stepImages s.id)) :
    ∀ s ∈ db'.steps.rows, Numbered Image.position (db'.stepImages s.id) := by
  obtain ⟨p, hrows, hfront⟩ := h.front
  intro s hs
  rw [h.steps] at hs
  rw [stepImages_eq hrows]
  exact (hn s hs).filter (hfront s hs)

end Trims

/-- An image and its remixes go. -/
theorem trims_destroyImage {db : Database} {i : Nat}
    (h : ∀ x ∈ db.images.rows, db.RemixedFrom i x.id → db.LastOfStep x) : Trims db (db.destroyImage i) := by
  refine ⟨touches_destroyImage db i .steps (by decide), _, rows_destroyImage db i, ?_⟩
  intro s hs a ha b hb _ i' j hi hj hlt
  rw [Bool.not_eq_true', List.contains_eq_mem, decide_eq_false_iff_not]
  intro hgone
  have ha' := mem_stepImages.mp ha
  have hle := h a ha'.1 (remixedFrom_of_mem hgone) s hs ha'.2 b hb i' hi j hj
  omega

theorem trims_of_images {db db' : Database} (hsteps : db'.steps = db.steps) (himages : db'.images = db.images) :
    Trims db db' := by
  refine ⟨hsteps, fun _ => true, ?_, fun _ _ _ _ _ _ _ _ _ _ _ _ => rfl⟩
  rw [himages]
  simp

end Database

namespace ImagesController

open Database

theorem trims_destroyRemixes {ms : List Image} {db : Database}
    (h : ∀ m ∈ ms, ∀ x ∈ db.images.rows, db.RemixedFrom m.id x.id → db.LastOfStep x) :
    Trims db (destroyRemixes ms db).2 := by
  induction ms generalizing db with
  | nil => exact .refl db
  | cons m ms ih =>
    -- what is left of the copies is still last
    have hrest : ∀ {db' : Database}, Trims db db' → MediaOf db db' → Trims db (destroyRemixes ms db').2 := by
      intro db' htrims hof
      refine htrims.trans (ih fun m' hm' x hx hfrom => ?_)
      exact htrims.lastOfStep (h m' (List.mem_cons_of_mem _ hm') x (htrims.subset hx) (hof.remixedFrom hfrom))
    have hone : ∀ {db' : Database}, db'.steps = db.steps → db'.images = db.images → MediaOf db db' →
        Trims db (db'.destroyImage m.id) := by
      intro db' hsteps himages hof
      have hsame := trims_of_images hsteps himages
      refine hsame.trans (trims_destroyImage fun x hx hfrom => ?_)
      exact hsame.lastOfStep (h m List.mem_cons_self x (hsame.subset hx) (hof.remixedFrom hfrom))
    unfold destroyRemixes
    split
    · split
      · exact .refl db
      · rename_i v _
        have hof := MediaOf.filterVideos db (·.id ≠ v.id)
        exact hrest (hone rfl rfl hof) (hof.trans (.destroyImage _ _))
    · exact hrest (hone rfl rfl (.refl db)) (.destroyImage _ _)

/-- An image that is no remix is reached from no other. -/
theorem eq_of_remixedFrom {db : Database} {m : Image} (hm : m ∈ db.images.rows) (ho : m.originalId = none) {i : Nat}
    (h : db.RemixedFrom i m.id) : i = m.id := by
  generalize hj : m.id = j at h
  cases h with
  | self => rfl
  | copy hx hox _ =>
    rw [Table.eq_of_key hm hx hj, hox] at ho
    cases ho

theorem trims_beforeDestroy {m : Image} {db : Database} (hm : m ∈ db.images.rows)
    (h : ∀ x ∈ db.images.rows, db.RemixedFrom m.id x.id → x.id ≠ m.id → db.LastOfStep x) :
    Trims db (beforeDestroy m db).2 := by
  unfold beforeDestroy
  split
  · exact .refl db
  · rename_i ho
    rw [Bool.not_eq_true, Option.isSome_eq_false_iff, Option.isNone_iff_eq_none] at ho
    refine trims_destroyRemixes fun y hy x hx hfrom => ?_
    rw [List.mem_insertionSort, List.mem_filter, decide_eq_true_eq] at hy
    refine h x hx ((RemixedFrom.copy hy.1 hy.2 .self).trans hfrom) fun hid => ?_
    -- the image itself is no copy of its copies
    rw [Table.eq_of_key hx hm hid] at hfrom
    have heq := eq_of_remixedFrom hm ho hfrom
    rw [Table.eq_of_key hy.1 hm heq, ho] at hy
    cases hy.2

/-- The row of an image when the images in `beside` behind position `k` move up. -/
def movedUp (beside : Image → Bool) (k : Int) (m : Image) : Image :=
  match m.position with
  | some x => if beside m && x > k then { m with position := some (x - 1) } else m
  | none => m

theorem rows_closeGap (beside : Image → Bool) (k : Int) (db : Database) :
    (closeGap beside k db).images.rows = db.images.rows.map (movedUp beside k) := rfl

theorem movedUp_cases (beside : Image → Bool) (k : Int) (m : Image) :
    movedUp beside k m = m ∨ ∃ x, m.position = some x ∧ beside m = true ∧ k < x ∧
      movedUp beside k m = { m with position := some (x - 1) } := by
  unfold movedUp
  split
  · rename_i x hx
    split
    · rename_i h
      rw [Bool.and_eq_true, decide_eq_true_eq] at h
      exact Or.inr ⟨x, hx, h.1, h.2, rfl⟩
    · exact Or.inl rfl
  · exact Or.inl rfl

theorem movedUp_id (beside : Image → Bool) (k : Int) (m : Image) :
    (movedUp beside k m).id = m.id ∧ (movedUp beside k m).stepId = m.stepId := by
  rcases movedUp_cases beside k m with h | ⟨x, -, -, -, h⟩
  · rw [h]
    exact ⟨rfl, rfl⟩
  · rw [h]
    exact ⟨rfl, rfl⟩

theorem movedUp_position {beside : Image → Bool} {k : Int} {m : Image} (h : beside m = true) :
    (movedUp beside k m).position = m.position.map fun x => if k < x then x - 1 else x := by
  unfold movedUp
  cases hx : m.position with
  | none => exact hx
  | some x =>
    dsimp only
    rw [h, Bool.true_and, Option.map_some]
    by_cases hlt : k < x
    · rw [if_pos (decide_eq_true hlt), if_pos hlt]
    · rw [if_neg (by simpa using hlt), if_neg hlt, hx]

theorem movedUp_of_not_beside {beside : Image → Bool} {m : Image} (h : beside m = false) (k : Int) :
    movedUp beside k m = m := by
  rcases movedUp_cases beside k m with heq | ⟨x, -, hb, -, -⟩
  · exact heq
  · rw [h] at hb
    cases hb

/-- Moving up keeps the order. -/
theorem movedUp_mono {beside : Image → Bool} {x y : Image} (hb : beside x = beside y)
    (h : ∀ i ∈ x.position, ∀ j ∈ y.position, j ≤ i) (k : Int) :
    ∀ i ∈ (movedUp beside k x).position, ∀ j ∈ (movedUp beside k y).position, j ≤ i := by
  cases hy : beside y with
  | false =>
    rw [movedUp_of_not_beside (hb.trans hy), movedUp_of_not_beside hy]
    exact h
  | true =>
    rw [movedUp_position (hb.trans hy), movedUp_position hy]
    intro i hi j hj
    obtain ⟨a, ha, rfl⟩ := Option.map_eq_some_iff.mp hi
    obtain ⟨b, hb, rfl⟩ := Option.map_eq_some_iff.mp hj
    have hle := h a ha b hb
    split_ifs <;> omega

/-- The images beside an image of an existing step are those of the step. -/
theorem siblings_of_step {db : Database} {m : Image} {s : Step} (hs : s ∈ db.steps.rows)
    (hm : m.stepId = some (s.id : Int)) : siblings db m = some fun x => x.stepId == some (s.id : Int) := by
  have hne : ¬ (m.stepId = some (-1)) := by
    rw [hm, Option.some.injEq]
    omega
  have hfind : db.steps.find? s.id = some s := Table.find?_of_mem hs
  rw [siblings, if_neg hne, hm, Option.bind_some, if_neg (by omega), Int.toNat_natCast, hfind]
  rfl

/-- The images of a step once `f` has rewritten the rows and the image `i` was destroyed. -/
theorem stepImages_destroyImage {db db' : Database} {f : Image → Image}
    (hrows : db'.images.rows = db.images.rows.map f) (hf : ∀ m, (f m).id = m.id ∧ (f m).stepId = m.stepId)
    (i t : Nat) :
    ∃ p : Image → Bool, (db'.destroyImage i).stepImages t =
        (((db.stepImages t).filter (·.id ≠ i)).map f).filter p ∧
      ∀ x, p x = false → db'.RemixedFrom i x.id := by
  have hself : i ∈ db'.remixImages db'.images.rows.length i := by
    cases db'.images.rows.length with
    | zero => exact List.mem_singleton_self i
    | succ n => exact List.mem_cons_self
  refine ⟨fun x => !(db'.remixImages db'.images.rows.length i).contains x.id, ?_, fun x hx => ?_⟩
  · rw [stepImages, rows_destroyImage]
    generalize db'.remixImages db'.images.rows.length i = gone at hself
    rw [hrows, stepImages, List.filter_filter, List.filter_map, List.filter_map, List.filter_filter,
      List.filter_filter]
    congr 1
    apply List.filter_congr
    intro x _
    simp only [Function.comp, (hf x).1, (hf x).2]
    by_cases hx : x.id = i
    · simp [hx, hself]
    · simp [hx, Bool.and_comm]
  · rw [Bool.not_eq_false', List.contains_eq_mem, decide_eq_true_eq] at hx
    exact remixedFrom_of_mem hx

/-- One image goes, and the images of its step behind it move up. -/
theorem numbered_closeGap {m : Image} {db : Database} (hm : m ∈ db.images.rows) {s : Step}
    (hs : s ∈ db.steps.rows) (hn : Numbered Image.position (db.stepImages s.id)) {beside : Image → Bool}
    (hbeside : siblings db m = some beside) {k : Int} (hk : m.position = some k) :
    ∃ c, (∀ x ∈ db.stepImages s.id, (beside x && decide (k < (db.images.rows.filter beside).length)) = c) ∧
      Numbered Image.position (((db.stepImages s.id).filter (·.id ≠ m.id)).map
        (movedUp (fun x => beside x && decide (k < (db.images.rows.filter beside).length)) k)) := by
  by_cases hms : m.stepId = some (s.id : Int)
  · rw [siblings_of_step hs hms, Option.some.injEq] at hbeside
    subst hbeside
    have hlist : (db.images.rows.filter fun x => x.stepId == some (s.id : Int)) = db.stepImages s.id := by
      apply List.filter_congr
      intro x _
      rw [Bool.eq_iff_iff, beq_iff_eq, decide_eq_true_eq]
    have hmem : m ∈ db.stepImages s.id := mem_stepImages.mpr ⟨hm, hms⟩
    obtain ⟨n, hlt, hpos⟩ := (numbered_iff.mp hn).2 m hmem
    have hkn : k = n := Option.some.inj (hk.symm.trans hpos)
    -- a numbered image has its position below the number of images of the step
    have hgap : decide (k < ((db.stepImages s.id).length : Int)) = true := decide_eq_true (by omega)
    rw [hlist]
    simp only [hgap, Bool.and_true]
    refine ⟨true, fun x hx => beq_iff_eq.mpr (mem_stepImages.mp hx).2, ?_⟩
    refine hn.closeGap hmem hk (fun a ha => ?_) fun a ha =>
      movedUp_position (beq_iff_eq.mpr (mem_stepImages.mp ha).2)
    rw [decide_eq_false_iff_not, not_not]
    constructor
    · exact fun hid => Table.eq_of_key (mem_stepImages.mp ha).1 hm hid
    · exact fun heq => congrArg Image.id heq
  · -- nothing of the step is beside the image
    have hoff : ∀ x ∈ db.stepImages s.id, beside x = false := by
      intro x hx
      by_contra hb
      rw [Bool.not_eq_false] at hb
      exact hms ((stepId_of_siblings hbeside hb).symm.trans (mem_stepImages.mp hx).2)
    have hother : (db.stepImages s.id).filter (·.id ≠ m.id) = db.stepImages s.id := by
      rw [List.filter_eq_self]
      intro x hx
      refine decide_eq_true fun hid => hms ?_
      rw [← Table.eq_of_key (mem_stepImages.mp hx).1 hm hid]
      exact (mem_stepImages.mp hx).2
    refine ⟨false, fun x hx => by rw [hoff x hx, Bool.false_and], ?_⟩
    rw [hother, List.map_eq_self_of_forall fun x hx => movedUp_of_not_beside (by rw [hoff x hx, Bool.false_and]) k]
    exact hn

/-- The deletion by id closes the gap that it makes itself. -/
theorem numbered_destroyById {m : Image} {db : Database} (hm : m ∈ db.images.rows)
    (hn : ∀ s ∈ db.steps.rows, Numbered Image.position (db.stepImages s.id))
    (h : ∀ x ∈ db.images.rows, db.RemixedFrom m.id x.id → x.id ≠ m.id → db.LastOfStep x) (now : Nat) :
    ∀ s ∈ db.steps.rows, Numbered Image.position ((destroyById now m db).2.stepImages s.id) := by
  have htrims := trims_beforeDestroy hm h
  have hof := mediaOf_beforeDestroy m db
  have hn' := htrims.numbered hn
  have hm' := mem_beforeDestroy hm
  rcases destroyById_cases hm now with ⟨-, heq⟩ | ⟨beside, k, hbeside, hk, -, heq⟩
  · rw [heq]
    intro s hs
    exact hn' s (by rw [htrims.steps]; exact hs)
  · rw [heq]
    generalize (beforeDestroy m db).2 = db₁ at *
    intro s hs
    rw [← htrims.steps] at hs
    obtain ⟨c, hconst, hclosed⟩ := numbered_closeGap hm' hs (hn' s hs) hbeside hk
    -- the rows before the image itself goes
    have hrows : (if k < ((db₁.images.rows.filter beside).length : Int) then closeGap beside k db₁
        else db₁).images.rows = db₁.images.rows.map
          (movedUp (fun x => beside x && decide (k < ((db₁.images.rows.filter beside).length : Int))) k) := by
      by_cases hgap : k < ((db₁.images.rows.filter beside).length : Int)
      · rw [if_pos hgap, decide_eq_true hgap, rows_closeGap]
        simp only [Bool.and_true]
      · rw [if_neg hgap, decide_eq_false hgap, List.map_eq_self_of_forall fun x _ =>
          movedUp_of_not_beside (Bool.and_false _) k]
    have hmedia : MediaOf db₁ (if k < ((db₁.images.rows.filter beside).length : Int) then closeGap beside k db₁
        else db₁) := by
      split
      · exact mediaOf_closeGap _ _ _
      · exact .refl db₁
    generalize (if k < ((db₁.images.rows.filter beside).length : Int) then closeGap beside k db₁ else db₁) = db₂
      at hrows hmedia
    obtain ⟨p, hstep, hgone⟩ := stepImages_destroyImage hrows (movedUp_id _ k) m.id s.id
    rw [hstep]
    refine hclosed.filter fun a ha b hb _ i j hi hj hlt => ?_
    by_contra hpa
    obtain ⟨x, hx, rfl⟩ := List.mem_map.mp ha
    obtain ⟨y, hy, rfl⟩ := List.mem_map.mp hb
    rw [List.mem_filter, decide_eq_true_eq] at hx hy
    -- a remix that goes now was last in its step from the start
    have hfrom := hof.remixedFrom (hmedia.remixedFrom (hgone _ (by simpa using hpa)))
    rw [(movedUp_id _ _ _).1] at hfrom
    have hx' := mem_stepImages.mp hx.1
    have hlast := htrims.lastOfStep (h x (htrims.subset hx'.1) hfrom hx.2) s hs hx'.2 y hy.1
    have hle := movedUp_mono ((hconst x hx.1).trans (hconst y hy.1).symm) hlast k i hi j hj
    omega

end ImagesController

namespace ImagesController

open Database

theorem mediaOf_destroy (u : User) (now : Nat) (target : Text ⊕ Nat) (db : Database) :
    MediaOf db (destroy u now target db).2 := by
  unfold destroy
  cases target with
  | inl path =>
    dsimp only
    split
    · exact .refl db
    · exact .destroyImage db _
  | inr i =>
    dsimp only
    split
    · exact .refl db
    · rename_i m hfind
      rcases authorize_cases (Ability.destroyImage db u m) db (destroyById now m db) with ⟨-, heq⟩ | ⟨-, heq⟩
      · rw [heq]
        have hfirst := mediaOf_beforeDestroy m db
        rcases destroyById_cases (Table.find?_eq_some.mp hfind).1 now with ⟨-, heq⟩ | ⟨beside, k, -, -, -, heq⟩
        · rw [heq]
          exact hfirst
        · rw [heq]
          refine hfirst.trans (.trans ?_ (.destroyImage _ _))
          split
          · exact mediaOf_closeGap _ _ _
          · exact .refl _
      · rw [heq]
        exact .refl db

/-- A deletion leaves no gap when what it does not renumber was last. -/
theorem numbered_destroy {info : VideosController.VideoInfo} {u : User} {target : Text ⊕ Nat} {db : Database}
    (hn : ∀ s ∈ db.steps.rows, Numbered Image.position (db.stepImages s.id)) (now : Nat)
    (h : (ImageRequest.destroy u now target).LeavesNoGap info db) :
    ∀ s ∈ db.steps.rows, Numbered Image.position ((destroy u now target db).2.stepImages s.id) := by
  unfold destroy
  cases target with
  | inl path =>
    have hlast : ∀ m ∈ db.imageAt path, ∀ x ∈ db.images.rows, db.RemixedFrom m.id x.id → db.LastOfStep x := h
    dsimp only
    rw [← imageAt]
    cases hat : db.imageAt path with
    | none => exact hn
    | some m =>
      have htrims := trims_destroyImage (hlast m hat)
      intro s hs
      exact htrims.numbered hn s (by rw [htrims.steps]; exact hs)
  | inr i =>
    dsimp only
    cases hfind : db.images.find? i with
    | none => exact hn
    | some m =>
      obtain ⟨hm, hid⟩ := Table.find?_eq_some.mp hfind
      dsimp only
      rcases authorize_cases (Ability.destroyImage db u m) db (destroyById now m db) with ⟨hauth, heq⟩ | ⟨-, heq⟩
      · rw [heq]
        have hmid : m.id = i := hid
        refine numbered_destroyById hm hn (fun x hx hfrom hne => ?_) now
        rw [hmid] at hfrom hne
        exact h m hfind hauth x hx hfrom hne
      · rw [heq]
        exact hn

end ImagesController

/-! ## Images that come -/

namespace Database

theorem stepImages_concat {db db' : Database} {ms : List Image} (h : db'.images.rows = db.images.rows ++ ms)
    (t : Nat) : db'.stepImages t = db.stepImages t ++ ms.filter (·.stepId = some (t : Int)) := by
  rw [stepImages, h, List.filter_append, stepImages]

/-- A new image that stands behind the images of its step. -/
theorem ImagesNumbered.concat {db db' : Database} (h : ImagesNumbered db) (hsteps : db'.steps = db.steps)
    (hprojects : db'.projects.next = db.projects.next) {x : Image}
    (himages : db'.images.rows = db.images.rows ++ [x])
    (hplaced : ∀ t : Nat, x.stepId = some (t : Int) → t < db.steps.next)
    (hlast : ∀ s ∈ db.steps.rows, x.stepId = some (s.id : Int) →
      x.position = some ((db.stepImages s.id).length : Int)) : ImagesNumbered db' := by
  refine ⟨fun s hs => ?_, fun m hm t ht => ?_, fun s hs q hq => ?_⟩
  · rw [hsteps] at hs
    rw [stepImages_concat himages]
    by_cases hx : x.stepId = some (s.id : Int)
    · rw [List.filter_cons_of_pos (by simpa using hx), List.filter_nil]
      exact (h.numbered s hs).concat (hlast s hs hx)
    · rw [List.filter_cons_of_neg (by simpa using hx), List.filter_nil, List.append_nil]
      exact h.numbered s hs
  · rw [himages, List.mem_append, List.mem_singleton] at hm
    rw [hsteps]
    rcases hm with hm | rfl
    · exact h.placed m hm t ht
    · exact hplaced t ht
  · rw [hsteps] at hs
    rw [hprojects]
    exact h.owned s hs q hq

end Database

namespace ImagesController

open Database

theorem uploaded_position {db : Database} {up : Upload} {s : Step} (hs : s ∈ db.steps.rows)
    (hup : (uploaded db up).stepId = some (s.id : Int)) :
    (uploaded db up).position = some ((db.stepImages s.id).length : Int) := by
  have hid := up.image_id db.images.next
  have hstep : (up.image db.images.next).stepId = some (s.id : Int) := hup
  rw [uploaded]
  generalize up.image db.images.next = m at hid hstep
  have hne : ¬ (m.stepId = some (-1)) := by
    rw [hstep, Option.some.injEq]
    omega
  have hfind : (insertImage db m).steps.find? s.id = some s := Table.find?_of_mem hs
  have hcount : ((insertImage db m).stepImages s.id).length = (db.stepImages s.id).length + 1 := by
    have himages : (insertImage db m).images.rows = db.images.rows ++ [m] := by
      rw [insertImage, Table.rows_insert, ← hid]
    rw [stepImages_concat himages, List.filter_cons_of_pos (by simpa using hstep), List.filter_nil,
      List.length_append, List.length_singleton]
  dsimp only
  rw [siblingCount, if_neg hne, hstep, Option.bind_some, if_neg (by omega), Int.toNat_natCast, hfind,
    Option.map_some, Option.map_some, hcount]
  congr 1
  omega

theorem imagesNumbered_create {db : Database} (h : ImagesNumbered db) (u : User) (now : Nat) {up : Upload}
    (hup : ∀ i ∈ (up.image db.images.next).stepId, i < db.steps.next) :
    ImagesNumbered (create u now up db).2 := by
  rcases create_cases u now up db with ⟨-, heq⟩ | ⟨-, himages, -, -, hprojects, htouch⟩
  · rw [heq]
    exact h
  · refine h.concat (htouch .steps (by decide)) hprojects himages (fun t ht => ?_) fun s hs hstep =>
      uploaded_position hs hstep
    exact Int.ofNat_lt.mp (hup t ht)

/-! ## Sorting -/

theorem images_sortFrom (index : Nat) (ids : List Nat) (db : Database) :
    (sortFrom index ids db).images =
      db.images.modifyFrom (fun k m => { m with position := some (k : Int) }) (fun _ _ => rfl) index ids := by
  induction ids generalizing index db with
  | nil => rfl
  | cons i ids ih => exact ih (index + 1) _

theorem rows_sortFrom {ids : List Nat} (hn : ids.Nodup) (index : Nat) (db : Database) :
    (sortFrom index ids db).images.rows = db.images.rows.map fun m =>
      if m.id ∈ ids then { m with position := some ((index + ids.idxOf m.id : Nat) : Int) } else m := by
  rw [images_sortFrom, Table.rows_modifyFrom _ hn]
  rfl

theorem imagesNumbered_sort {db : Database} (h : ImagesNumbered db) {ids : List Nat} {s : Step}
    (hids : ids.Perm ((db.stepImages s.id).map Image.id)) :
    ImagesNumbered (sort ids db).2 := by
  have hnodup : ids.Nodup := hids.nodup_iff.mpr (db.images.nodup.sublist (List.filter_sublist.map _))
  have htouch := touches_sortImages 0 ids db
  have hrows := rows_sortFrom hnodup 0 db
  rw [sort]
  generalize sortFrom 0 ids db = db' at htouch hrows
  dsimp only
  have hsteps : db'.steps = db.steps := htouch .steps (by decide)
  have hstepId : ∀ m : Image, (if m.id ∈ ids then { m with position := some ((0 + ids.idxOf m.id : Nat) : Int) }
      else m).stepId = m.stepId := by
    intro m
    split <;> rfl
  -- `sort` writes positions only
  refine ⟨fun t ht => ?_, fun m' hm' t ht => ?_, fun t ht q hq => ?_⟩
  · rw [hsteps] at ht
    have hlist : db'.stepImages t.id = (db.stepImages t.id).map fun m =>
        if m.id ∈ ids then { m with position := some ((0 + ids.idxOf m.id : Nat) : Int) } else m := by
      rw [stepImages, hrows, List.filter_map, stepImages]
      congr 1
      apply List.filter_congr
      intro m _
      rw [Function.comp, hstepId]
    rw [hlist]
    by_cases hts : t.id = s.id
    · -- the sorted step: the new position is the index in the list
      rw [hts]
      have hmem : ∀ m ∈ db.stepImages s.id, m.id ∈ ids := fun m hm =>
        hids.mem_iff.mpr (List.mem_map_of_mem hm)
      refine Numbered.map (numbered_iff.mpr ⟨?_, fun m hm => ⟨ids.idxOf m.id, ?_, ?_⟩⟩)
      · refine List.Nodup.map_on ?_ (List.Nodup.of_map _ (hids.nodup_iff.mp hnodup))
        intro a ha b hb heq
        rw [if_pos (hmem a ha), if_pos (hmem b hb), Option.some.injEq, Int.natCast_inj, Nat.zero_add,
          Nat.zero_add] at heq
        exact Table.eq_of_key (mem_stepImages.mp ha).1 (mem_stepImages.mp hb).1
          ((List.idxOf_inj (hmem a ha)).mp heq)
      · rw [← List.length_map Image.id, ← hids.length_eq]
        exact List.idxOf_lt_length_iff.mpr (hmem m hm)
      · rw [if_pos (hmem m hm), Nat.zero_add]
    · rw [List.map_eq_self_of_forall fun m hm => if_neg fun hmem => hts ?_]
      · exact h.numbered t ht
      · obtain ⟨x, hx, hxid⟩ := List.mem_map.mp (hids.mem_iff.mp hmem)
        have hm' := mem_stepImages.mp hm
        have hx' := mem_stepImages.mp hx
        have hsame := hx'.2
        rw [Table.eq_of_key hx'.1 hm'.1 hxid, hm'.2, Option.some.injEq, Int.natCast_inj] at hsame
        exact hsame
  · rw [hrows] at hm'
    obtain ⟨m, hm, rfl⟩ := List.mem_map.mp hm'
    rw [hstepId] at ht
    rw [hsteps]
    exact h.placed m hm t ht
  · rw [hsteps] at ht
    rw [(htouch .projects (by decide) : _ = _)]
    exact h.owned t ht q hq

end ImagesController

namespace VideosController

open Database

theorem imagesNumbered_create {db : Database} (h : ImagesNumbered db) (u : User) (now : Nat) (info : VideoInfo)
    {up : Upload} (hup : ∀ v ∈ up.video info db.videos.next, ∀ i ∈ v.stepId, i < db.steps.next ∧
      (0 ≤ i → ∀ m ∈ db.images.rows, m.stepId = some i → m.projectId = v.projectId)) :
    ImagesNumbered (create u now info up db).2 := by
  rcases create_cases u now info up db with
    ⟨-, heq⟩ | ⟨v, hv, ⟨-, heq⟩ | ⟨p, project, hp, -, -, himages, -, -, hprojects, htouch⟩⟩
  · rw [heq]
    exact h
  · rw [heq]
    exact ⟨h.numbered, h.placed, h.owned⟩
  · refine h.concat (htouch .steps (by decide)) hprojects himages
      (fun t ht => Int.ofNat_lt.mp (hup v hv t ht).1) fun s _ hstep => ?_
    have hall := (hup v hv s.id hstep).2 (Int.natCast_nonneg s.id)
    have hcount : ((db.projectImages p).filter (·.stepId = v.stepId)).length = (db.stepImages s.id).length := by
      rw [projectImages, List.filter_filter, stepImages]
      congr 1
      apply List.filter_congr
      intro m hm
      rw [show v.stepId = some (s.id : Int) from hstep]
      by_cases hms : m.stepId = some (s.id : Int)
      · have hmp := (hall m hm hms).trans hp
        simp [hms, hmp]
      · simp [hms]
    show some ((((db.projectImages p).filter (·.stepId = v.stepId)).length : Nat) : Int) = _
    rw [hcount]

end VideosController

/-! ## Remixing -/

namespace Database

theorem ImagesNumbered.new_project {db : Database} (h : ImagesNumbered db) :
    db.projectSteps db.projects.next = [] := by
  rw [projectSteps, List.filter_eq_nil_iff]
  intro s hs heq
  rw [decide_eq_true_eq] at heq
  exact Nat.lt_irrefl _ (h.owned s hs _ heq)

theorem copiedStepId_eq_some {hash : Nat → Option Nat} {c : Option Int} {t : Int}
    (h : copiedStepId hash c = some t) : ∃ i j : Nat, c = some (i : Int) ∧ hash i = some j ∧ t = j := by
  cases c with
  | none => cases h
  | some i =>
    rw [copiedStepId] at h
    split at h
    · cases h
    · obtain ⟨j, hj, rfl⟩ := Option.map_eq_some_iff.mp h
      exact ⟨i.toNat, j, by rw [Int.toNat_of_nonneg (by omega)], hj, rfl⟩

theorem copiedStepId_of_hash {hash : Nat → Option Nat} {i j : Nat} (h : hash i = some j) :
    copiedStepId hash (some (i : Int)) = some (j : Int) := by
  rw [copiedStepId, if_neg (by omega), Int.toNat_natCast, h]
  rfl

/-- The copies that go to the copy of step `i`, with the positions of the originals. -/
theorem position_copies {hash : Nat → Option Nat} {i t : Nat} (hi : hash i = some t)
    (hinj : ∀ j, hash j = some t → j = i) (q next : Nat) (ms : List Image) :
    ((ms.zipIdx.map fun e => imageCopy q hash e.1 (next + e.2)).filter (·.stepId = some (t : Int))).map
        Image.position = (ms.filter (·.stepId = some (i : Int))).map Image.position := by
  have hstep : ∀ m : Image, copiedStepId hash m.stepId = some (t : Int) ↔ m.stepId = some (i : Int) := by
    intro m
    constructor
    · intro hm
      obtain ⟨j, k, hj, hk, heq⟩ := copiedStepId_eq_some hm
      rw [Int.natCast_inj] at heq
      rw [hj, hinj j (heq ▸ hk)]
    · intro hm
      rw [hm, copiedStepId_of_hash hi]
  have hfst : ms = ms.zipIdx.map Prod.fst := (List.zipIdx_map_fst 0 ms).symm
  rw [List.filter_map, List.map_map]
  conv_rhs => rw [hfst, List.filter_map, List.map_map]
  congr 1
  apply List.filter_congr
  intro e _
  rw [Function.comp, Function.comp, Bool.eq_iff_iff, decide_eq_true_eq, decide_eq_true_eq]
  exact hstep e.1

theorem imagesNumbered_remix {db : Database} (h : ImagesNumbered db) (u : User) (now : Nat) {p : Nat}
    (hp : ∀ s ∈ db.projectSteps p, ∀ m ∈ db.stepImages s.id, m.projectId = some p) :
    ImagesNumbered (db.remix u now p).2 := by
  rcases remix_cases h.new_project u now p with ⟨-, heq⟩ | ⟨project, hash, hproject, -, -, hrows⟩
  · rw [heq]
    exact h
  · have hid : project.id = p := (Table.find?_eq_some.mp hproject).2
    generalize (db.remix u now p).2 = db' at hrows
    refine ⟨fun t ht => ?_, fun m hm t ht => ?_, fun t ht q hq => ?_⟩
    · rw [stepImages_concat hrows.images]
      rcases hrows.step_cases ht with ⟨s, hs, hts, -⟩ | ⟨s, hs, hhash, -⟩
      · -- no copy goes to an old step
        rw [hts, List.filter_eq_nil_iff.mpr, List.append_nil]
        · exact h.numbered s hs
        · intro x hx heq
          obtain ⟨e, -, rfl⟩ := List.mem_map.mp hx
          rw [decide_eq_true_eq] at heq
          obtain ⟨i, j, -, hj, hsj⟩ := copiedStepId_eq_some heq
          obtain ⟨-, -, -, hge⟩ := hrows.known hj
          have hb : s.id < db.steps.next := (db.steps.bound s hs).2
          omega
      · -- the images of a new step are the copies of those of its original
        have hnone : db.stepImages t.id = [] := by
          rw [stepImages, List.filter_eq_nil_iff]
          intro x hx heq
          rw [decide_eq_true_eq] at heq
          have hlt := h.placed x hx t.id heq
          obtain ⟨-, -, -, hge⟩ := hrows.known hhash
          omega
        rw [hid] at hs
        -- the copies are made in the order of the project, not of the step
        have hperm : ((db.orderedImages p).filter (·.stepId = some (s.id : Int))).Perm (db.stepImages s.id) := by
          refine ((List.perm_insertionSort _ _).filter _).trans (List.Perm.of_eq ?_)
          rw [projectImages, List.filter_filter, stepImages]
          apply List.filter_congr
          intro m hm
          by_cases hms : m.stepId = some (s.id : Int)
          · simp [hms, hp s hs m (mem_stepImages.mpr ⟨hm, hms⟩)]
          · simp [hms]
        have hold := (h.numbered s (mem_projectSteps.mp hs).1).of_perm hperm
        rw [hnone, List.nil_append, hid]
        exact hold.congr (position_copies hhash (fun j hj => hrows.injective j s.id t.id hj hhash) _ _ _)
    · rw [hrows.images, List.mem_append] at hm
      rcases hm with hm | hm
      · exact Nat.lt_of_lt_of_le (h.placed m hm t ht) hrows.nextStep
      · obtain ⟨e, -, rfl⟩ := List.mem_map.mp hm
        obtain ⟨i, j, -, hj, htj⟩ := copiedStepId_eq_some ht
        rw [Int.natCast_inj] at htj
        obtain ⟨r, hr, hrid⟩ := hrows.exists_step hj
        rw [htj, ← hrid]
        exact (db'.steps.bound r hr).2
    · rw [hrows.nextProject]
      rcases hrows.step_cases ht with ⟨s, hs, -, hts⟩ | ⟨s, -, -, hts⟩
      · have hlt := h.owned s hs q (hts.symm.trans hq)
        omega
      · rw [hts, Option.some.injEq] at hq
        omega

end Database

/-! ## Runs -/

theorem ImageRequest.imagesNumbered_perform {info : VideosController.VideoInfo} {db : Database}
    (h : db.ImagesNumbered) {r : ImageRequest} (hsort : r.SortsStep db) (hgap : r.LeavesNoGap info db) :
    (r.perform info db).ImagesNumbered := by
  cases r with
  | upload u now up => exact ImagesController.imagesNumbered_create h u now hgap
  | video u now up => exact VideosController.imagesNumbered_create h u now info hgap
  | sort ids =>
    obtain ⟨s, -, hids⟩ := hsort
    exact ImagesController.imagesNumbered_sort h hids
  | remix u now p => exact Database.imagesNumbered_remix h u now hgap
  | destroy u now target =>
    have htouch := ImagesController.touches_destroy u now target db
    have hof := ImagesController.mediaOf_destroy u now target db
    refine ⟨?_, fun m' hm' t ht => ?_, ?_⟩
    · show ∀ s ∈ (ImagesController.destroy u now target db).2.steps.rows, _
      rw [(htouch .steps (by decide) : _ = _)]
      exact ImagesController.numbered_destroy h.numbered now hgap
    · obtain ⟨m, hm, -, -, -, hstep⟩ := hof.1 m' hm'
      show t < (ImagesController.destroy u now target db).2.steps.next
      rw [(htouch .steps (by decide) : _ = _)]
      exact h.placed m hm t (hstep.trans ht)
    · show ∀ s ∈ (ImagesController.destroy u now target db).2.steps.rows, ∀ q, s.projectId = some q →
        q < (ImagesController.destroy u now target db).2.projects.next
      rw [(htouch .steps (by decide) : _ = _), (htouch .projects (by decide) : _ = _)]
      exact h.owned

/-- Along every run of uploads, deletions, sorting and remixes that leaves no gap, the images of every
step are numbered. -/
theorem images_numbered (info : VideosController.VideoInfo) (db : Database) (h : db.ImagesNumbered)
    (rs : List ImageRequest)
    (hsort : Run.Along (ImageRequest.perform info) ImageRequest.SortsStep db rs)
    (hgap : Run.Along (ImageRequest.perform info) (ImageRequest.LeavesNoGap info) db rs) :
    (Run.after (ImageRequest.perform info) db rs).ImagesNumbered :=
  Run.invariant (I := Database.ImagesNumbered)
    (fun _ _ h (hr : _ ∧ _) => ImageRequest.imagesNumbered_perform h hr.1 hr.2) h (hsort.and hgap)

/-! ## Examples of runs -/

namespace Database

/-- The project of `oneProject` with a step and no image. -/
def oneStep : Database :=
  { oneProject "Lamp".toList none with
    steps := .ofRows [{ StepsController.blankStep 1 1 0 with name := "Saw".toList }] 2 (by decide) }

theorem imagesNumbered_oneStep : ImagesNumbered oneStep :=
  ⟨by decide +kernel, fun _ hm => absurd hm List.not_mem_nil, by
    intro s hs q hq
    rw [List.mem_singleton.mp hs] at hq
    cases hq
    decide⟩

end Database

/-- Two images of step 1. -/
def twoUploads : List ImageRequest :=
  [.upload ada 1 (.web 1 1 1 "a.jpg".toList), .upload ada 2 (.web 1 1 1 "b.jpg".toList)]

/-- Two images are sorted and remixed, the first copy is deleted by its id and another image comes. -/
theorem images_numbered_after_copy_goes :
    let rs := twoUploads ++ [.sort [2, 1], .remix ada 3 1, .destroy ada 4 (.inr 3),
      .upload ada 5 (.web 2 2 1 "c.jpg".toList)]
    let db := Run.after (ImageRequest.perform MediaAction.noInfo) .oneStep rs
    db.images.rows.map (fun m => (m.id, m.stepId, m.position)) =
      [(1, some 1, some 1), (2, some 1, some 0), (4, some 2, some 0), (5, some 2, some 1)] ∧
    db.ImagesNumbered := by
  refine ⟨by decide +kernel, images_numbered MediaAction.noInfo _ Database.imagesNumbered_oneStep _ ?_ ?_⟩
  · refine ⟨trivial, trivial, ?_, trivial, trivial, trivial, trivial⟩
    rw [ImageRequest.SortsStep]
    decide +kernel
  · refine ⟨?_, ?_, trivial, ?_, ?_, ?_, trivial⟩
    · rw [ImageRequest.LeavesNoGap]
      decide +kernel
    · rw [ImageRequest.LeavesNoGap]
      decide +kernel
    · rw [ImageRequest.LeavesNoGap]
      decide +kernel
    · -- nothing was remixed from the copy
      intro m _ _ x _ hfrom hne
      rcases Database.remixedFrom_cases hfrom with hid | hcopy
      · exact absurd hid hne
      · exact absurd (hcopy.imp fun _ => And.imp_right And.left) (by decide +kernel)
    · rw [ImageRequest.LeavesNoGap]
      decide +kernel

/-- The deletion by the address of the file renumbers nothing. -/
theorem deletion_by_path_leaves_gap :
    let rs := twoUploads ++ [.destroy ada 3 (.inl "a.jpg".toList)]
    let db := Run.after (ImageRequest.perform MediaAction.noInfo) .oneStep rs
    Database.oneStep.ImagesNumbered ∧
    Run.Along (ImageRequest.perform MediaAction.noInfo) ImageRequest.SortsStep .oneStep rs ∧
    db.images.rows.map (fun m => (m.id, m.stepId, m.position)) = [(2, some 1, some 1)] ∧
    ¬ db.ImagesNumbered := by
  refine ⟨Database.imagesNumbered_oneStep, ⟨trivial, trivial, trivial, trivial⟩, by decide +kernel, ?_⟩
  intro h
  exact absurd h.numbered (by decide +kernel)
