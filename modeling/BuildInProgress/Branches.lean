import BuildInProgress.Lib.Branching
import BuildInProgress.Lib.Rows
import BuildInProgress.StepRuns
import Mathlib.Data.Finset.Card

/-!
# The number of branches

`tree_width` and `num_branches` of a project count the steps whose ancestry another step has too.  Where the steps
form a tree this can be compared with the branches that are drawn.
-/

open Text Ancestry

namespace Database

/-- The loop over the ancestries that occur more than once. -/
def repeatedAncestries (db : Database) (p : Nat) : Nat :=
  let ancestry := (db.projectSteps p).map Step.ancestry
  let repeatAncestry := ancestry.dedup.filter fun v => 1 < (ancestry.filter (· = v)).length
  repeatAncestry.foldl (fun numBranches value => numBranches + (ancestry.filter (· = value)).length) 0

/-- `Project#tree_width`, which is the width of the page for phones. -/
def treeWidth (db : Database) (p : Nat) : Nat := db.repeatedAncestries p

/-- `Project#num_branches`, which decides whether branches are explained to the author. -/
def numBranches (db : Database) (p : Nat) : Nat := db.repeatedAncestries p

end Database

/-! ## The tree -/

/-- The steps that are drawn below `q`. -/
def nextSteps (ns : List Step) (q : Step) : List Step :=
  ns.filter fun s => s.topLevel = false ∧ s.ancestry.map getParent = some (toS q.id)

/-- The steps that end a branch. -/
def lastSteps (ns : List Step) : List Step := ns.filter fun q => (nextSteps ns q).length = 0

/-- The steps below which several branches begin. -/
def forkingSteps (ns : List Step) : List Step := ns.filter fun q => 1 < (nextSteps ns q).length

/-- Two steps are drawn below the same one. -/
def Siblings (s t : Step) : Prop :=
  s ≠ t ∧ s.topLevel = false ∧ t.topLevel = false ∧ s.ancestry.map getParent = t.ancestry.map getParent

namespace Database

variable {db : Database} {p : Nat}

/-- The steps that share their ancestry are counted, each once. -/
theorem repeatedAncestries_eq (db : Database) (p : Nat) : db.repeatedAncestries p =
    (db.projectSteps p).countP fun s =>
      decide (1 < ((db.projectSteps p).filter fun t => t.ancestry = s.ancestry).length) := by
  rw [repeatedAncestries, Rows.foldl_add_eq, Nat.zero_add, Rows.sum_repeated, List.countP_map]
  apply List.countP_congr
  intro s _
  rw [Function.comp, List.filter_map, List.length_map]
  rfl

end Database

namespace StepTree

variable {ns : List Step}

theorem mem_nextSteps (h : StepTree ns.length ns) {q s : Step} (hs : s ∈ ns) :
    s ∈ nextSteps ns q ↔ s.position ≠ 0 ∧ s.ancestry.map getParent = some (toS q.id) := by
  rw [nextSteps, List.mem_filter, decide_eq_true_iff, and_iff_right hs, ← Bool.not_eq_true,
    h.topLevel_iff_position hs]

/-- A step below the root is drawn below its parent and no other step. -/
theorem exists_parent (h : StepTree ns.length ns) {s : Step} (hs : s ∈ ns) (hp : s.position ≠ 0) :
    ∃ q ∈ ns, s ∈ nextSteps ns q ∧ ∀ q' ∈ ns, s ∈ nextSteps ns q' → q' = q := by
  obtain ⟨q, hq, -, hc⟩ := h.child s hs hp
  refine ⟨q, hq, (h.mem_nextSteps hs).mpr ⟨hp, hc.getParent_eq⟩, fun q' hq' hnext => ?_⟩
  have hsame := ((h.mem_nextSteps hs).mp hnext).2
  rw [hc.getParent_eq, Option.some.injEq, toS_inj] at hsame
  exact h.eq_of_id hq' hq hsame.symm

/-- The step below which `s` is drawn. -/
def parentStep (ns : List Step) (s : Step) : Step := (ns.find? fun q => decide (s ∈ nextSteps ns q)).getD s

theorem parentStep_eq (h : StepTree ns.length ns) {q s : Step} (hq : q ∈ ns) (hs : s ∈ ns) (hp : s.position ≠ 0) :
    parentStep ns s = q ↔ s ∈ nextSteps ns q := by
  obtain ⟨r, hr, hnext, hunique⟩ := h.exists_parent hs hp
  have hfind : parentStep ns s = r := by
    rw [parentStep]
    cases hf : ns.find? fun q => decide (s ∈ nextSteps ns q) with
    | none => exact absurd (by simpa using hnext) (List.find?_eq_none.mp hf r hr)
    | some x =>
      exact hunique x (List.mem_of_find?_eq_some hf) (by simpa using List.find?_some hf)
  rw [hfind]
  constructor
  · rintro rfl
    exact hnext
  · exact fun hin => (hunique q hq hin).symm

/-- Steps with one ancestry are drawn below one step. -/
theorem siblings_of_ancestry_eq (h : StepTree ns.length ns) {s t : Step} (hs : s ∈ ns) (ht : t ∈ ns) (hne : t ≠ s)
    (heq : t.ancestry = s.ancestry) : Siblings s t := by
  have htop : t.topLevel = s.topLevel := by rw [Step.topLevel, Step.topLevel, heq]
  have hnot : s.topLevel = false := by
    rw [← Bool.not_eq_true]
    intro hstop
    -- there is one step at the top
    refine hne (h.eq_of_position ht hs ?_)
    rw [(h.topLevel_iff_position ht).mp (htop.trans hstop), (h.topLevel_iff_position hs).mp hstop]
  exact ⟨hne.symm, hnot, htop.trans hnot, by rw [heq]⟩

/-! ## Counting -/

section Counting

variable (h : StepTree ns.length ns) {root : Step} (hroot : root ∈ ns) (h0 : root.position = 0)
include h hroot h0

theorem mem_erase {s : Step} : s ∈ ns.toFinset.erase root ↔ s ∈ ns ∧ s.position ≠ 0 := by
  rw [Finset.mem_erase, List.mem_toFinset, and_comm]
  refine and_congr_right fun hs => not_congr ⟨fun heq => by rw [heq, h0], fun hs0 => ?_⟩
  exact h.eq_of_position hs hroot (hs0.trans h0.symm)

theorem children_eq {q : Step} (hq : q ∈ ns) :
    Branching.children ns.toFinset root (parentStep ns) q = (nextSteps ns q).toFinset := by
  ext s
  rw [Branching.children, Finset.mem_filter, h.mem_erase hroot h0, List.mem_toFinset]
  constructor
  · rintro ⟨⟨hs, hp⟩, heq⟩
    exact (h.parentStep_eq hq hs hp).mp heq
  · intro hnext
    have hs : s ∈ ns := (List.mem_filter.mp hnext).1
    have hp := ((h.mem_nextSteps hs).mp hnext).1
    exact ⟨⟨hs, hp⟩, (h.parentStep_eq hq hs hp).mpr hnext⟩

theorem card_children {q : Step} (hq : q ∈ ns) :
    (Branching.children ns.toFinset root (parentStep ns) q).card = (nextSteps ns q).length := by
  rw [h.children_eq hroot h0 hq]
  exact List.toFinset_card_of_nodup ((List.Nodup.of_map _ h.ids).filter _)

theorem parentStep_mem {s : Step} (hs : s ∈ ns.toFinset.erase root) : parentStep ns s ∈ ns.toFinset := by
  obtain ⟨hmem, hp⟩ := (h.mem_erase hroot h0).mp hs
  obtain ⟨q, hq, hnext, -⟩ := h.exists_parent hmem hp
  rw [(h.parentStep_eq hq hmem hp).mpr hnext]
  exact List.mem_toFinset.mpr hq

theorem card_leaves : (Branching.leaves ns.toFinset root (parentStep ns)).card = (lastSteps ns).length := by
  have heq : Branching.leaves ns.toFinset root (parentStep ns) = (lastSteps ns).toFinset := by
    rw [Branching.leaves, lastSteps, List.toFinset_filter]
    apply Finset.filter_congr
    intro q hq
    rw [h.card_children hroot h0 (List.mem_toFinset.mp hq), decide_eq_true_iff]
  rw [heq]
  exact List.toFinset_card_of_nodup ((List.Nodup.of_map _ h.ids).filter _)

theorem card_forks : (Branching.forks ns.toFinset root (parentStep ns)).card = (forkingSteps ns).length := by
  have heq : Branching.forks ns.toFinset root (parentStep ns) = (forkingSteps ns).toFinset := by
    rw [Branching.forks, forkingSteps, List.toFinset_filter]
    apply Finset.filter_congr
    intro q hq
    rw [h.card_children hroot h0 (List.mem_toFinset.mp hq), decide_eq_true_iff]
  rw [heq]
  exact List.toFinset_card_of_nodup ((List.Nodup.of_map _ h.ids).filter _)

/-- The steps with siblings, seen from their parents. -/
theorem mem_siblings {s : Step} : s ∈ Branching.siblings ns.toFinset root (parentStep ns) ↔
    s ∈ ns ∧ ∃ t ∈ ns, Siblings s t := by
  rw [Branching.siblings, Finset.mem_filter, h.mem_erase hroot h0, and_assoc]
  refine and_congr_right fun hs => ?_
  have hnodup : ns.Nodup := List.Nodup.of_map _ h.ids
  constructor
  · rintro ⟨hp, hmany⟩
    obtain ⟨q, hq, hnext, -⟩ := h.exists_parent hs hp
    rw [(h.parentStep_eq hq hs hp).mpr hnext, h.card_children hroot h0 hq, nextSteps,
      Rows.one_lt_length_filter hnodup hs (List.of_mem_filter hnext)] at hmany
    obtain ⟨t, ht, hts, hsame⟩ := hmany
    have hbelow := List.of_mem_filter hnext
    rw [decide_eq_true_iff] at hsame hbelow
    exact ⟨t, ht, hts.symm, hbelow.1, hsame.1, hbelow.2.trans hsame.2.symm⟩
  · rintro ⟨t, ht, hne, hstop, httop, hsame⟩
    have hp : s.position ≠ 0 := fun hs0 => by
      rw [(h.topLevel_iff_position hs).mpr hs0] at hstop
      cases hstop
    obtain ⟨q, hq, hnext, -⟩ := h.exists_parent hs hp
    refine ⟨hp, ?_⟩
    rw [(h.parentStep_eq hq hs hp).mpr hnext, h.card_children hroot h0 hq, nextSteps,
      Rows.one_lt_length_filter hnodup hs (List.of_mem_filter hnext)]
    have hbelow := List.of_mem_filter hnext
    rw [decide_eq_true_iff] at hbelow
    exact ⟨t, ht, hne.symm, by rw [decide_eq_true_iff]; exact ⟨httop, hsame.symm.trans hbelow.2⟩⟩

end Counting

end StepTree

/-- On a project whose `n` steps form a tree and are at the positions 0 to `n - 1`, `tree_width` and `num_branches` and
one are together at most the steps that end a branch and those at which branches begin.  They are as many exactly when
no step has siblings of which none has its ancestry, which a root with the ancestry `"0"` may have below it. -/
theorem branches_of_tree {db : Database} {p : Nat}
    (h : StepTree (db.projectSteps p).length (db.projectSteps p)) (hne : db.projectSteps p ≠ []) :
    db.treeWidth p = db.numBranches p ∧
    db.treeWidth p + 1 ≤ (lastSteps (db.projectSteps p)).length + (forkingSteps (db.projectSteps p)).length ∧
    (db.treeWidth p + 1 = (lastSteps (db.projectSteps p)).length + (forkingSteps (db.projectSteps p)).length ↔
      ∀ s ∈ db.projectSteps p, ∀ t ∈ db.projectSteps p, Siblings s t →
        ∃ u ∈ db.projectSteps p, u ≠ s ∧ u.ancestry = s.ancestry) := by
  refine ⟨rfl, ?_⟩
  rw [Database.treeWidth, Database.repeatedAncestries_eq]
  generalize db.projectSteps p = ns at h hne
  obtain ⟨root, hroot, h0⟩ := h.exists_position (List.length_pos_of_ne_nil hne)
  have hroot0 : root.position = 0 := h0
  have hnodup : ns.Nodup := List.Nodup.of_map _ h.ids
  have htree := Branching.card_leaves_add_card_forks (List.mem_toFinset.mpr hroot)
    fun s hs => h.parentStep_mem hroot hroot0 hs
  rw [h.card_leaves hroot hroot0, h.card_forks hroot hroot0] at htree
  -- the counted steps are among those with siblings
  let shared := ns.toFinset.filter fun s => 1 < (ns.filter fun t => t.ancestry = s.ancestry).length
  have hcount : (ns.countP fun s => decide (1 < (ns.filter fun t => t.ancestry = s.ancestry).length)) =
      shared.card := by
    rw [List.countP_eq_length_filter, ← List.toFinset_card_of_nodup (hnodup.filter _), List.toFinset_filter]
    simp only [decide_eq_true_iff, shared]
  have hmem : ∀ s, s ∈ shared ↔ s ∈ ns ∧ ∃ u ∈ ns, u ≠ s ∧ u.ancestry = s.ancestry := by
    intro s
    rw [Finset.mem_filter, List.mem_toFinset]
    refine and_congr_right fun hs => ?_
    rw [Rows.one_lt_length_filter hnodup hs (by simp)]
    simp only [decide_eq_true_iff]
  have hsub : shared ⊆ Branching.siblings ns.toFinset root (StepTree.parentStep ns) := by
    intro s hs
    obtain ⟨hsns, u, hu, hus, heq⟩ := (hmem s).mp hs
    exact (h.mem_siblings hroot hroot0).mpr ⟨hsns, u, hu, h.siblings_of_ancestry_eq hsns hu hus heq⟩
  rw [hcount, htree]
  refine ⟨Nat.succ_le_succ (Finset.card_le_card hsub), ?_⟩
  rw [Nat.add_right_cancel_iff]
  constructor
  · intro hcard s hs t ht hst
    have hall := Finset.eq_of_subset_of_card_le hsub hcard.ge
    have hin : s ∈ shared := by
      rw [hall]
      exact (h.mem_siblings hroot hroot0).mpr ⟨hs, t, ht, hst⟩
    exact ((hmem s).mp hin).2
  · intro hshared
    congr 1
    refine Finset.Subset.antisymm hsub fun s hs => ?_
    obtain ⟨hsns, t, ht, hst⟩ := (h.mem_siblings hroot hroot0).mp hs
    exact (hmem s).mpr ⟨hsns, hshared s hsns t ht hst⟩

/-- Step 11 is followed by two steps, and one of these by a third. -/
def fourStepsProject : Database := Run.after (StepRequest.perform 1) .stepless fourSteps

theorem branches_of_fourSteps : fourStepsProject.treeWidth 1 + 1 ≤ 3 := by
  have hstart : StepTree (Database.stepless.projectSteps 1).length (Database.stepless.projectSteps 1) := StepTree.empty
  have htree : StepTree (fourStepsProject.projectSteps 1).length (fourStepsProject.projectSteps 1) :=
    hstart.after_run (by decide +kernel) (by decide +kernel) (by decide +kernel) (by decide +kernel)
  have hle := (branches_of_tree htree (by decide +kernel)).2.1
  have hlast : (lastSteps (fourStepsProject.projectSteps 1)).length = 2 := by decide +kernel
  have hforks : (forkingSteps (fourStepsProject.projectSteps 1)).length = 1 := by decide +kernel
  rw [hlast, hforks] at hle
  exact hle
