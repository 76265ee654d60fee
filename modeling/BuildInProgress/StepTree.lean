import BuildInProgress.Lib.Numbering
import BuildInProgress.StepRows

/-!
# The step tree

What the ancestries and positions of a project's steps have in common after any run of creates,
saves of the process map and destroys: positions without a gap, the root first, every other step
after its parent and with the ancestry its parent hands down.  The children of a root are written in
two ways, as the root's id alone or, below a root with the ancestry `"0"`, as `"0/"` and the id.
-/

open Text Ancestry StepsController

/-- The ancestry of `s` is the one `q` gives to its children, in either encoding. -/
def ChildOf (q s : Step) : Prop :=
  (∃ l, l ≠ [] ∧ q.ancestry = some (render l) ∧ s.ancestry = some (render (l ++ [q.id]))) ∨
    (q.topLevel = true ∧ s.ancestry = some (render [q.id]))

/-- The steps form a tree, and their positions are the numbers up to their count but for `free`. -/
structure StepTree (free : Int) (ns : List Step) : Prop where
  ids : (ns.map Step.id).Nodup
  pos : ∀ s ∈ ns, 0 < s.id
  named : ∀ s ∈ ns, blank s.name = false
  positions : (ns.map Step.position).Nodup
  range : ∀ s ∈ ns, 0 ≤ s.position ∧ s.position ≤ ns.length ∧ s.position ≠ free
  root : ∀ s ∈ ns, s.position = 0 → s.topLevel = true
  child : ∀ s ∈ ns, s.position ≠ 0 → ∃ q ∈ ns, q.position < s.position ∧ ChildOf q s

theorem topLevel_iff {s : Step} :
    s.topLevel = true ↔ s.ancestry = none ∨ s.ancestry = some [] ∨ s.ancestry = some ['0'] := by
  simp [Step.topLevel, or_assoc]

/-- A rendered path at the top is the path `0`. -/
theorem path_of_topLevel {s : Step} {l : List Nat} (hs : s.topLevel = true) (hl : l ≠ [])
    (ha : s.ancestry = some (render l)) : l = [0] := by
  rcases topLevel_iff.mp hs with h | h | h
  · rw [h] at ha
    cases ha
  · rw [h, Option.some.injEq, eq_comm, render_eq_nil] at ha
    exact absurd ha hl
  · rw [h, ← render_zero, Option.some.injEq, render_inj] at ha
    exact ha.symm

/-- `t` is the step `s` once `i` has left its path.  A step with nothing left of its path stands at the
top. -/
structure Step.Erased (i : Nat) (s t : Step) : Prop where
  id : t.id = s.id
  top : s.topLevel = true → t.topLevel = true
  emptied : ∀ l, s.ancestry = some (render l) → l.filter (· ≠ i) = [] → t.topLevel = true
  path : ∀ l, s.ancestry = some (render l) → l.filter (· ≠ i) ≠ [] →
    t.ancestry = some (render (l.filter (· ≠ i)))

/-- What is erased depends on the id and the ancestry only. -/
theorem Step.Erased.congr {i : Nat} {s t t' : Step} (h : s.Erased i t) (hid : t'.id = t.id)
    (hanc : t'.ancestry = t.ancestry) : s.Erased i t' where
  id := hid.trans h.id
  top hs := by simpa only [Step.topLevel, hanc] using h.top hs
  emptied l hl hnil := by simpa only [Step.topLevel, hanc] using h.emptied l hl hnil
  path l hl hne := hanc.trans (h.path l hl hne)

/-- A step below the root, whose path may become empty. -/
theorem Step.Erased.of_path {i : Nat} {s t : Step} (hid : t.id = s.id) (hs : s.topLevel = false)
    (hanc : ∀ l, s.ancestry = some (render l) → t.ancestry = some (render (l.filter (· ≠ i)))) :
    s.Erased i t where
  id := hid
  top ht := by
    rw [hs] at ht
    cases ht
  emptied l hl hnil := by
    have ha := hanc l hl
    rw [hnil, render_nil] at ha
    exact topLevel_iff.mpr (Or.inr (Or.inl ha))
  path l hl _ := hanc l hl

/-- A step at the top has no id in its path but the zero. -/
theorem Step.Erased.of_topLevel {i : Nat} {s : Step} (hs : s.topLevel = true) (hi : 0 < i) : s.Erased i s where
  id := rfl
  top _ := hs
  emptied _ _ _ := hs
  path l hl hne := by
    have hl0 : l = [0] := path_of_topLevel hs (by rintro rfl; exact hne rfl) hl
    have hi0 : (0 : Nat) ≠ i := by omega
    rw [hl, hl0]
    simp [hi0]

theorem filter_ne_of_notMem {i : Nat} {l : List Nat} (h : i ∉ l) : l.filter (· ≠ i) = l := by
  rw [List.filter_eq_self]
  intro j hj
  rw [decide_eq_true_eq]
  rintro rfl
  exact h hj

namespace ChildOf

variable {q s : Step}

/-- A child has a path, which ends in its parent. -/
theorem path (h : ChildOf q s) : ∃ l, s.ancestry = some (render (l ++ [q.id])) := by
  rcases h with ⟨l, -, -, hs⟩ | ⟨-, hs⟩
  · exact ⟨l, hs⟩
  · exact ⟨[], hs⟩

theorem getParent_eq (h : ChildOf q s) : s.ancestry.map getParent = some (toS q.id) := by
  obtain ⟨l, hl⟩ := h.path
  rw [hl, Option.map_some, getParent, afterLast_render_concat]

theorem not_topLevel (h : ChildOf q s) (hq : 0 < q.id) : s.topLevel = false := by
  obtain ⟨l, hl⟩ := h.path
  by_contra hc
  have h0 := path_of_topLevel (by simpa using hc) (by simp) hl
  have hlast := congrArg List.getLast? h0
  simp at hlast
  omega

/-- The step a new row is created below is its parent in the tree. -/
theorem of_childAncestry (hs : s.ancestry = some q.childAncestry)
    (hq : q.topLevel = true ∨ ∃ l, l ≠ [] ∧ q.ancestry = some (render l)) : ChildOf q s := by
  by_cases hb : blankColumn q.ancestry = true
  · refine Or.inr ⟨?_, by rw [hs, Step.childAncestry, childAncestry_blank hb]⟩
    rcases hq with ht | ⟨l, hl, ha⟩
    · exact ht
    · rw [ha, blankColumn, blank_render hl] at hb
      cases hb
  · have hl : ∃ l, l ≠ [] ∧ q.ancestry = some (render l) := by
      rcases hq with ht | hl
      · rcases topLevel_iff.mp ht with h | h | h
        · rw [h] at hb
          exact absurd rfl hb
        · rw [h] at hb
          exact absurd rfl hb
        · exact ⟨[0], by simp, h⟩
      · exact hl
    obtain ⟨l, hne, ha⟩ := hl
    refine Or.inl ⟨l, hne, ha, ?_⟩
    rw [hs, Step.childAncestry, ha, childAncestry_render hne]

variable {i : Nat} {d q' s' : Step}

/-- A parent other than `i` stays the parent when `i` leaves every path. -/
theorem erase (h : ChildOf q s) (hqi : q.id ≠ i) (hq : q.Erased i q') (hs : s.Erased i s') : ChildOf q' s' := by
  have hfilter (l : List Nat) : (l ++ [q.id]).filter (· ≠ i) = l.filter (· ≠ i) ++ [q'.id] := by
    rw [List.filter_append, hq.id]
    simp [hqi]
  rcases h with ⟨l, -, hqa, hsa⟩ | ⟨hqt, hsa⟩
  · have hsa' := hs.path _ hsa (by rw [hfilter]; simp)
    rw [hfilter] at hsa'
    by_cases hnil : l.filter (· ≠ i) = []
    · refine Or.inr ⟨hq.emptied l hqa hnil, ?_⟩
      rw [hsa', hnil, List.nil_append]
    · exact Or.inl ⟨_, hnil, hq.path l hqa hnil, hsa'⟩
  · have hsa' := hs.path ([] ++ [q.id]) hsa (by rw [hfilter]; simp)
    rw [hfilter] at hsa'
    exact Or.inr ⟨hq.top hqt, hsa'⟩

/-- The children of a step below another one go to its parent when the step leaves every path. -/
theorem erase_middle (hqd : ChildOf q d) (hds : ChildOf d s) (hd : d.topLevel = false)
    (hnot : ∀ l, d.ancestry = some (render l) → d.id ∉ l) (hq : q.Erased d.id q') (hs : s.Erased d.id s') :
    ChildOf q' s' := by
  obtain ⟨l, hda⟩ := hqd.path
  have hnotl := hnot _ hda
  have hsa : s.ancestry = some (render (l ++ [q.id] ++ [d.id])) := by
    rcases hds with ⟨l', -, hda', hsa⟩ | ⟨hdt, -⟩
    · rw [hda, Option.some.injEq, render_inj] at hda'
      rw [hsa, hda']
    · rw [hd] at hdt
      cases hdt
  have hfilter : (l ++ [q.id] ++ [d.id]).filter (· ≠ d.id) = l ++ [q'.id] := by
    rw [List.filter_append, filter_ne_of_notMem hnotl, hq.id]
    simp
  have hsa' := hs.path _ hsa (by rw [hfilter]; simp)
  rw [hfilter] at hsa'
  rcases hqd with ⟨l', hl', hqa, hda'⟩ | ⟨hqt, hda'⟩
  · rw [hda, Option.some.injEq, render_inj, List.append_cancel_right_eq] at hda'
    subst hda'
    have hkeep : l.filter (· ≠ d.id) = l := filter_ne_of_notMem fun hm => hnotl (List.mem_append_left _ hm)
    have hqa' := hq.path l hqa (by rw [hkeep]; exact hl')
    rw [hkeep] at hqa'
    exact Or.inl ⟨l, hl', hqa', hsa'⟩
  · rw [hda, Option.some.injEq, render_inj] at hda'
    have hnil : l = [] := by simpa using congrArg List.length hda'
    rw [hnil] at hsa'
    exact Or.inr ⟨hq.top hqt, hsa'⟩

/-- A child of a step at the top stands at the top when that step leaves every path. -/
theorem erase_root (h : ChildOf d s) (hd : d.topLevel = true) (hpos : 0 < d.id) (hs : s.Erased d.id s') :
    s'.topLevel = true := by
  rcases h with ⟨l, hl, hda, hsa⟩ | ⟨-, hsa⟩
  · have hfilter : (l ++ [d.id]).filter (· ≠ d.id) = [0] := by
      have hne : (0 : Nat) ≠ d.id := by omega
      simp [path_of_topLevel hd hl hda, hne]
    have hsa' := hs.path _ hsa (by rw [hfilter]; simp)
    rw [hfilter, render_zero] at hsa'
    exact topLevel_iff.mpr (Or.inr (Or.inr hsa'))
  · exact hs.emptied [d.id] hsa (by simp)

end ChildOf

namespace StepTree

variable {free : Int} {ns : List Step}

theorem empty : StepTree 0 [] where
  ids := List.nodup_nil
  pos := by simp
  named := by simp
  positions := List.nodup_nil
  range := by simp
  root := by simp
  child := by simp

theorem eq_of_id (h : StepTree free ns) {s t : Step} (hs : s ∈ ns) (ht : t ∈ ns) (he : s.id = t.id) :
    s = t := List.inj_on_of_nodup_map h.ids hs ht he

theorem eq_of_position (h : StepTree free ns) {s t : Step} (hs : s ∈ ns) (ht : t ∈ ns)
    (he : s.position = t.position) : s = t := List.inj_on_of_nodup_map h.positions hs ht he

/-- Only the step at position 0 stands at the top. -/
theorem topLevel_iff_position (h : StepTree free ns) {s : Step} (hs : s ∈ ns) :
    s.topLevel = true ↔ s.position = 0 := by
  constructor
  · intro ht
    by_contra hp
    obtain ⟨q, hq, -, hc⟩ := h.child s hs hp
    rw [hc.not_topLevel (h.pos q hq)] at ht
    cases ht
  · exact h.root s hs

/-- Distinct numbers below the count are all numbers below the count. -/
theorem perm_positions (h : StepTree ns.length ns) :
    (ns.map Step.position).Perm ((List.range ns.length).map Int.ofNat) := by
  refine (List.subperm_of_subset h.positions ?_).perm_of_length_le (by simp)
  intro x hx
  obtain ⟨s, hs, rfl⟩ := List.mem_map.mp hx
  have hr := h.range s hs
  rw [List.mem_map]
  exact ⟨s.position.toNat, List.mem_range.mpr (by omega), Int.toNat_of_nonneg hr.1⟩

theorem exists_position (h : StepTree ns.length ns) {i : Nat} (hi : i < ns.length) :
    ∃ s ∈ ns, s.position = i := by
  have hmem : (i : Int) ∈ ns.map Step.position :=
    h.perm_positions.mem_iff.mpr (List.mem_map.mpr ⟨i, List.mem_range.mpr hi, rfl⟩)
  exact List.mem_map.mp hmem

/-- Induction along the positions: what holds of a step as soon as it holds of its parent. -/
theorem parent_induction (h : StepTree free ns) {P : Step → Prop}
    (hroot : ∀ s ∈ ns, s.position = 0 → P s)
    (hchild : ∀ s ∈ ns, s.position ≠ 0 → ∀ q ∈ ns, q.position < s.position → ChildOf q s → P q → P s)
    {s : Step} (hs : s ∈ ns) : P s := by
  have key : ∀ n : Nat, ∀ s ∈ ns, s.position = n → P s := by
    intro n
    induction n using Nat.strong_induction_on with
    | _ n ih =>
      intro s hs hn
      by_cases hp : s.position = 0
      · exact hroot s hs hp
      · obtain ⟨q, hq, hlt, hc⟩ := h.child s hs hp
        have hq0 := (h.range q hq).1
        exact hchild s hs hp q hq hlt hc (ih q.position.toNat (by omega) q hq (by omega))
  have h0 := (h.range s hs).1
  exact key s.position.toNat s hs (by omega)

/-- Below the root every step has a path of earlier steps, perhaps after a zero. -/
theorem path (h : StepTree free ns) {s : Step} (hs : s ∈ ns) (hp : s.position ≠ 0) :
    ∃ l, l ≠ [] ∧ s.ancestry = some (render l) ∧
      ∀ i ∈ l, i = 0 ∨ ∃ t ∈ ns, t.id = i ∧ t.position < s.position := by
  revert hp
  refine h.parent_induction
    (P := fun s => s.position ≠ 0 → ∃ l, l ≠ [] ∧ s.ancestry = some (render l) ∧
      ∀ i ∈ l, i = 0 ∨ ∃ t ∈ ns, t.id = i ∧ t.position < s.position) ?_ ?_ hs
  · intro s _ h0 hp
    exact absurd h0 hp
  · intro s hs _ q hq hlt hc ih _
    rcases hc with ⟨l, hl, hqa, hsa⟩ | ⟨-, hsa⟩
    · refine ⟨l ++ [q.id], by simp, hsa, ?_⟩
      intro i hi
      rcases List.mem_append.mp hi with hi | hi
      · by_cases hq0 : q.position = 0
        · rw [path_of_topLevel (h.root q hq hq0) hl hqa] at hi
          exact Or.inl (List.mem_singleton.mp hi)
        · obtain ⟨l', -, hl', hmem⟩ := ih hq0
          rw [hqa, Option.some.injEq, render_inj] at hl'
          rcases hmem i (hl' ▸ hi) with h0 | ⟨t, ht, hti, htq⟩
          · exact Or.inl h0
          · exact Or.inr ⟨t, ht, hti, by omega⟩
      · exact Or.inr ⟨q, hq, (List.mem_singleton.mp hi).symm, hlt⟩
    · refine ⟨[q.id], by simp, hsa, ?_⟩
      intro i hi
      exact Or.inr ⟨q, hq, (List.mem_singleton.mp hi).symm, hlt⟩

/-- No step is on its own path. -/
theorem notMem_path (h : StepTree free ns) {s : Step} (hs : s ∈ ns) (hp : s.position ≠ 0)
    {l : List Nat} (ha : s.ancestry = some (render l)) : s.id ∉ l := by
  obtain ⟨l', -, hl', hmem⟩ := h.path hs hp
  rw [ha, Option.some.injEq, render_inj] at hl'
  subst hl'
  intro hi
  have hpos := h.pos s hs
  rcases hmem s.id hi with h0 | ⟨t, ht, hti, hlt⟩
  · omega
  · rw [h.eq_of_id ht hs hti] at hlt
    exact absurd hlt (lt_irrefl _)

/-- Every step below the root passes the validations. -/
theorem valid (h : StepTree free ns) {s : Step} (hs : s ∈ ns) (hp : s.position ≠ 0) :
    s.valid = true := by
  obtain ⟨l, hl, ha, -⟩ := h.path hs hp
  have hfmt : pattern (render l) = true := pattern_render hl
  have hid := h.notMem_path hs hp ha
  simp [Step.valid, Step.validNew, ha, h.named s hs, validFormat, hfmt, hid]

theorem column (h : StepTree free ns) {s : Step} (hs : s ∈ ns) :
    s.topLevel = true ∨ ∃ l, l ≠ [] ∧ s.ancestry = some (render l) := by
  by_cases hp : s.position = 0
  · exact Or.inl (h.root s hs hp)
  · obtain ⟨l, hl, ha, -⟩ := h.path hs hp
    exact Or.inr ⟨l, hl, ha⟩

/-! ## Adding a step -/

theorem concat (h : StepTree free ns) {s : Step} (hid : ∀ t ∈ ns, t.id ≠ s.id) (hpos : 0 < s.id)
    (hname : blank s.name = false) (hfree : s.position = free) (h0 : 0 ≤ free)
    (hle : free ≤ ns.length) (hroot : free = 0 → s.topLevel = true)
    (hchild : free ≠ 0 → ∃ q ∈ ns, q.position < free ∧ ChildOf q s) :
    StepTree (ns.length + 1) (ns ++ [s]) where
  ids := by
    rw [List.map_append, List.nodup_append]
    refine ⟨h.ids, List.nodup_singleton _, ?_⟩
    intro i hi j hj
    obtain ⟨t, ht, rfl⟩ := List.mem_map.mp hi
    rw [List.map_singleton, List.mem_singleton] at hj
    rw [hj]
    exact hid t ht
  pos := by
    intro t ht
    rcases List.mem_append.mp ht with ht | ht
    · exact h.pos t ht
    · rw [List.mem_singleton.mp ht]
      exact hpos
  named := by
    intro t ht
    rcases List.mem_append.mp ht with ht | ht
    · exact h.named t ht
    · rw [List.mem_singleton.mp ht]
      exact hname
  positions := by
    rw [List.map_append, List.nodup_append]
    refine ⟨h.positions, List.nodup_singleton _, ?_⟩
    intro i hi j hj
    obtain ⟨t, ht, rfl⟩ := List.mem_map.mp hi
    rw [List.map_singleton, List.mem_singleton] at hj
    rw [hj, hfree]
    exact (h.range t ht).2.2
  range := by
    intro t ht
    rw [List.length_append, List.length_singleton]
    rcases List.mem_append.mp ht with ht | ht
    · have hr := h.range t ht
      push_cast
      omega
    · rw [List.mem_singleton.mp ht]
      push_cast
      omega
  root := by
    intro t ht hp
    rcases List.mem_append.mp ht with ht | ht
    · exact h.root t ht hp
    · rw [List.mem_singleton.mp ht] at hp ⊢
      exact hroot (by omega)
  child := by
    intro t ht hp
    rcases List.mem_append.mp ht with ht | ht
    · obtain ⟨q, hq, hlt, hc⟩ := h.child t ht hp
      exact ⟨q, List.mem_append_left _ hq, hlt, hc⟩
    · rw [List.mem_singleton.mp ht] at hp ⊢
      obtain ⟨q, hq, hlt, hc⟩ := hchild (by omega)
      exact ⟨q, List.mem_append_left _ hq, by omega, hc⟩

/-! ## Removing a step -/

section Remove

variable {d : Step} {ld : List Nat}

/-- A step on a path is there with its own path before it. -/
theorem prefix_of_mem (h : StepTree free ns) (hd : d ∈ ns) (hd0 : d.position ≠ 0)
    (hld : d.ancestry = some (render ld)) {s : Step} (hs : s ∈ ns) (hs0 : s.position ≠ 0)
    {l : List Nat} (hl : s.ancestry = some (render l)) (hmem : d.id ∈ l) : ld ++ [d.id] <+: l := by
  revert hs0 l
  refine h.parent_induction
    (P := fun s => s.position ≠ 0 → ∀ {l : List Nat}, s.ancestry = some (render l) → d.id ∈ l →
      ld ++ [d.id] <+: l) ?_ ?_ hs
  · intro s _ h0 hp
    exact absurd h0 hp
  · intro s _ _ q hq _ hc ih _ l hl hmem
    have hdpos := h.pos d hd
    rcases hc with ⟨lq, hlq, hqa, hsa⟩ | ⟨hq0, hsa⟩
    · rw [hl, Option.some.injEq, render_inj] at hsa
      subst hsa
      rcases List.mem_append.mp hmem with hm | hm
      · -- the step is further up, so the parent is not the root
        have hqp : q.position ≠ 0 := fun h0 => by
          rw [path_of_topLevel (h.root q hq h0) hlq hqa, List.mem_singleton] at hm
          omega
        exact (ih hqp hqa hm).trans (List.prefix_append _ _)
      · have hqd : d = q := h.eq_of_id hd hq (List.mem_singleton.mp hm)
        subst hqd
        rw [hld, Option.some.injEq, render_inj] at hqa
        rw [hqa]
    · rw [hl, Option.some.injEq, render_inj] at hsa
      subst hsa
      have hqd : d = q := h.eq_of_id hd hq (List.mem_singleton.mp hmem)
      subst hqd
      exact absurd ((h.topLevel_iff_position hd).mp hq0) hd0

theorem isDescendant_iff (h : StepTree free ns) (hd : d ∈ ns) (hd0 : d.position ≠ 0)
    (hne : ld ≠ []) (hld : d.ancestry = some (render ld)) {s : Step} (hs : s ∈ ns)
    (hs0 : s.position ≠ 0) {l : List Nat} (hl : s.ancestry = some (render l)) :
    d.isDescendant s = true ↔ d.id ∈ l := by
  rw [Step.isDescendant, Step.childAncestry, hld, childAncestry_render hne, hl,
    descendant_render (by simp)]
  constructor
  · intro hp
    exact hp.subset (by simp)
  · exact h.prefix_of_mem hd hd0 hld hs hs0 hl

/-- The root is below nothing. -/
theorem not_isDescendant_root (hne : ld ≠ []) (hld : d.ancestry = some (render ld)) {s : Step}
    (hs : s.topLevel = true) : d.isDescendant s = false := by
  have hchild : d.childAncestry = render (ld ++ [d.id]) := by
    rw [Step.childAncestry, hld, childAncestry_render hne]
  rw [Step.isDescendant, hchild]
  rcases topLevel_iff.mp hs with ha | ha | ha
  · rw [ha]
    rfl
  · rw [ha, ← render_nil, Bool.eq_false_iff, ne_eq, descendant_render (by simp)]
    simp
  · rw [ha, ← render_zero, Bool.eq_false_iff, ne_eq, descendant_render (by simp)]
    intro hp
    have hlen := hp.length_le
    have hpos := List.length_pos_iff.mpr hne
    rw [List.length_append, List.length_singleton, List.length_singleton] at hlen
    omega

theorem length_filter_ne (h : StepTree free ns) (hd : d ∈ ns) :
    ((ns.filter (·.id ≠ d.id)).length : Int) = (ns.length : Int) - 1 := by
  have hlen := Numbering.length_filter_all_but (List.Nodup.of_map _ h.ids) hd
    (p := fun s => decide (s.id ≠ d.id)) fun s hs => by
      rw [decide_eq_false_iff_not, not_not]
      exact ⟨h.eq_of_id hs hd, congrArg Step.id⟩
  omega

/-- The steps that stay, rewritten. -/
theorem mem_remaining (h : StepTree free ns) (hd : d ∈ ns) {g : Step → Step} {x : Step} :
    x ∈ (ns.filter (·.id ≠ d.id)).map g ↔ ∃ s ∈ ns, s ≠ d ∧ g s = x := by
  rw [List.mem_map]
  constructor
  · rintro ⟨s, hs, rfl⟩
    obtain ⟨hs, hsd⟩ := List.mem_filter.mp hs
    refine ⟨s, hs, ?_, rfl⟩
    rintro rfl
    simp at hsd
  · rintro ⟨s, hs, hsd, rfl⟩
    refine ⟨s, ?_, rfl⟩
    rw [List.mem_filter, decide_eq_true_eq]
    exact ⟨hs, fun he => hsd (h.eq_of_id hs hd he)⟩

theorem ids_remaining (h : StepTree free ns) {g : Step → Step} (hid : ∀ s ∈ ns, s ≠ d → (g s).id = s.id) :
    (((ns.filter (·.id ≠ d.id)).map g).map Step.id).Nodup := by
  have hsame : ((ns.filter (·.id ≠ d.id)).map g).map Step.id = (ns.filter (·.id ≠ d.id)).map Step.id := by
    rw [List.map_map]
    refine List.map_congr_left fun s hs => ?_
    obtain ⟨hs, hsd⟩ := List.mem_filter.mp hs
    exact hid s hs (by rintro rfl; simp at hsd)
  rw [hsame]
  exact h.ids.sublist (List.filter_sublist.map _)

/-- Positions that stay apart stay distinct. -/
theorem positions_remaining (h : StepTree free ns) {g : Step → Step}
    (hinj : ∀ s ∈ ns, ∀ t ∈ ns, s ≠ d → t ≠ d → (g s).position = (g t).position → s.position = t.position) :
    (((ns.filter (·.id ≠ d.id)).map g).map Step.position).Nodup := by
  rw [List.map_map]
  apply List.Nodup.map_on _ (List.Nodup.filter _ (List.Nodup.of_map _ h.ids))
  intro s hs t ht heq
  obtain ⟨hs, hsd⟩ := List.mem_filter.mp hs
  obtain ⟨ht, htd⟩ := List.mem_filter.mp ht
  apply h.eq_of_position hs ht
  exact hinj s hs t ht (by rintro rfl; simp at hsd) (by rintro rfl; simp at htd) heq

/-- Below a root with one child, the step at position 1 is that child. -/
theorem childOf_first (h : StepTree free ns) (hd : d ∈ ns) (hd0 : d.position = 0) {s : Step} (hs : s ∈ ns)
    (h1 : s.position = 1) : ChildOf d s := by
  obtain ⟨q, hq, hlt, hc⟩ := h.child s hs (by omega)
  have hr := (h.range q hq).1
  rw [h.eq_of_position hd hq (by omega)]
  exact hc

/-- After the removal of `d` a step is a child of its old parent, or of the parent of `d`.  Below a root
with one child only that child loses its parent. -/
theorem exists_parent_remaining (h : StepTree ns.length ns) (hd : d ∈ ns)
    (hone : d.position = 0 → ∀ s ∈ ns, ∀ t ∈ ns, ChildOf d s → ChildOf d t → s = t) {g : Step → Step}
    (hg : ∀ s ∈ ns, s ≠ d → s.Erased d.id (g s)) {s : Step} (hs : s ∈ ns) (hsd : s ≠ d)
    (hs0 : s.position ≠ 0) (hs1 : d.position = 0 → s.position ≠ 1) :
    ∃ q ∈ ns, q ≠ d ∧ q.position < s.position ∧ ChildOf (g q) (g s) := by
  obtain ⟨q, hq, hlt, hc⟩ := h.child s hs hs0
  by_cases hqd : q = d
  · subst hqd
    by_cases hq0 : q.position = 0
    · -- the child of the root is the step at position 1, not `s`
      have hr := h.range s hs
      obtain ⟨t, ht, ht1⟩ := h.exists_position (i := 1) (by omega)
      have hst := hone hq0 s hs t ht hc (h.childOf_first hq hq0 ht (by omega))
      exact absurd (hst ▸ ht1) (hs1 hq0)
    · obtain ⟨r, hr, hrlt, hrc⟩ := h.child q hq hq0
      have hrq : r ≠ q := by
        rintro rfl
        exact absurd hrlt (lt_irrefl _)
      have hqt : q.topLevel = false := hrc.not_topLevel (h.pos r hr)
      refine ⟨r, hr, hrq, by omega, ?_⟩
      exact hrc.erase_middle hc hqt (fun l hl => h.notMem_path hq hq0 hl) (hg r hr hrq) (hg s hs hsd)
  · have hqid : q.id ≠ d.id := fun he => hqd (h.eq_of_id hq hd he)
    exact ⟨q, hq, hqd, hlt, hc.erase hqid (hg q hq hqd) (hg s hs hsd)⟩

/-- When a step leaves every path its children go to its parent, the only child of a root takes the root's
place, and the positions close up. -/
theorem remove (h : StepTree ns.length ns) (hd : d ∈ ns)
    (hone : d.position = 0 → ∀ s ∈ ns, ∀ t ∈ ns, ChildOf d s → ChildOf d t → s = t) {g : Step → Step}
    (hg : ∀ s ∈ ns, s ≠ d → s.Erased d.id (g s)) (hname : ∀ s ∈ ns, s ≠ d → (g s).name = s.name)
    (hpos : ∀ s ∈ ns, s ≠ d →
      (g s).position = if d.position < s.position then s.position - 1 else s.position) :
    StepTree ((ns.length : Int) - 1) ((ns.filter (·.id ≠ d.id)).map g) := by
  have hlen : (((ns.filter (·.id ≠ d.id)).map g).length : Int) = (ns.length : Int) - 1 := by
    rw [List.length_map]
    exact h.length_filter_ne hd
  have hposd : ∀ s ∈ ns, s ≠ d → s.position ≠ d.position := fun s hs hsd he =>
    hsd (h.eq_of_position hs hd he)
  have hdr := h.range d hd
  refine ⟨h.ids_remaining fun s hs hsd => (hg s hs hsd).id, ?_, ?_, h.positions_remaining ?_, ?_, ?_, ?_⟩
  · intro x hx
    obtain ⟨s, hs, hsd, rfl⟩ := (h.mem_remaining hd).mp hx
    rw [(hg s hs hsd).id]
    exact h.pos s hs
  · intro x hx
    obtain ⟨s, hs, hsd, rfl⟩ := (h.mem_remaining hd).mp hx
    rw [hname s hs hsd]
    exact h.named s hs
  · intro s hs t ht hsd htd heq
    have hs' := hposd s hs hsd
    have ht' := hposd t ht htd
    rw [hpos s hs hsd, hpos t ht htd] at heq
    split at heq <;> split at heq <;> omega
  · intro x hx
    obtain ⟨s, hs, hsd, rfl⟩ := (h.mem_remaining hd).mp hx
    have hr := h.range s hs
    have hsp := hposd s hs hsd
    rw [hpos s hs hsd, hlen]
    split <;> omega
  · intro x hx h0
    obtain ⟨s, hs, hsd, rfl⟩ := (h.mem_remaining hd).mp hx
    have hr := h.range s hs
    rw [hpos s hs hsd] at h0
    -- only the step behind a deleted root moves to the first place, and it is its child
    by_cases hlt : d.position < s.position
    · rw [if_pos hlt] at h0
      have hd0 : d.position = 0 := by omega
      exact (h.childOf_first hd hd0 hs (by omega)).erase_root (h.root d hd hd0) (h.pos d hd) (hg s hs hsd)
    · rw [if_neg hlt] at h0
      exact (hg s hs hsd).top (h.root s hs h0)
  · intro x hx hx0
    obtain ⟨s, hs, hsd, rfl⟩ := (h.mem_remaining hd).mp hx
    have hr := h.range s hs
    have hsp := hposd s hs hsd
    rw [hpos s hs hsd] at hx0
    -- the parent is the old one, or the parent of the deleted step
    obtain ⟨q, hq, hqd, hlt, hc⟩ := h.exists_parent_remaining hd hone hg hs hsd
      (by split at hx0 <;> omega) (by split at hx0 <;> omega)
    refine ⟨g q, (h.mem_remaining hd).mpr ⟨q, hq, hqd, rfl⟩, ?_, hc⟩
    have hqp := hposd q hq hqd
    rw [hpos q hq hqd, hpos s hs hsd]
    split <;> split <;> omega

end Remove

/-! ## Writing a map with one root -/

/-- The position an item of the map is written with when the item at index `gap` is no step. -/
def skip (gap i : Nat) : Int := if i < gap then i else i + 1

theorem skip_lt_skip {gap i j : Nat} : skip gap i < skip gap j ↔ i < j := by
  unfold skip
  split <;> split <;> omega

theorem skip_inj {gap i j : Nat} : skip gap i = skip gap j ↔ i = j := by
  unfold skip
  split <;> split <;> omega

theorem skip_eq_zero {gap i : Nat} (hgap : 0 < gap) : skip gap i = 0 ↔ i = 0 := by
  unfold skip
  split <;> omega

/-- Below the first item of a map with one root every path starts at the root. -/
theorem paths_one_root {r : Nat} {k : Forest Nat} {i a : Nat} {l : List Nat} (hi : i ≠ 0)
    (h : ((Forest.node r k .nil).paths [])[i]? = some (a, l)) : l ≠ [] := by
  obtain ⟨j, rfl⟩ := Nat.exists_eq_succ_of_ne_zero hi
  have hmem : (a, l) ∈ k.paths [r] := by
    apply List.mem_of_getElem?
    simpa [Forest.paths] using h
  obtain ⟨q, hq, -⟩ := Forest.mem_paths_prefix hmem
  dsimp only at hq
  simp [hq]

/-- Every step has its place in the map. -/
theorem exists_path {ns : List Step} {f : Forest Nat} (hf : f.labels.Perm (ns.map Step.id)) {s : Step} (hs : s ∈ ns) :
    ∃ i l, i < ns.length ∧ (f.paths [])[i]? = some (s.id, l) := by
  have hmem : s.id ∈ (f.paths []).map Prod.fst := by
    rw [Forest.map_fst_paths]
    exact hf.mem_iff.mpr (List.mem_map_of_mem hs)
  obtain ⟨e, he, heq⟩ := List.mem_map.mp hmem
  obtain ⟨i, hi⟩ := List.mem_iff_getElem?.mp he
  have hlt := (List.getElem?_eq_some_iff.mp hi).1
  rw [← List.length_map (f := Prod.fst), Forest.map_fst_paths, hf.length_eq, List.length_map] at hlt
  refine ⟨i, e.2, hlt, ?_⟩
  rw [hi, ← heq]

/-- Below a step with the path `l`, the map writes `l` and the id of the step. -/
theorem childOf_written {q s : Step} {l : List Nat} (hq : q.ancestry = some (Dom.ancestryText l))
    (hs : s.ancestry = some (Dom.ancestryText (l ++ [q.id]))) : ChildOf q s := by
  have htext : Dom.ancestryText (l ++ [q.id]) = render (l ++ [q.id]) := if_neg (by simp)
  rw [htext] at hs
  by_cases hl : l = []
  · subst hl
    exact Or.inr ⟨by simp [Step.topLevel, hq, Dom.ancestryText], hs⟩
  · exact Or.inl ⟨l, hl, by simp [hq, Dom.ancestryText, hl], hs⟩

/-- The steps written from a map with one root form a tree. -/
theorem of_map {ns : List Step} (hids : (ns.map Step.id).Nodup) (hpos : ∀ s ∈ ns, 0 < s.id)
    (hname : ∀ s ∈ ns, blank s.name = false) {r : Nat} {k : Forest Nat}
    (hg : (Forest.node r k .nil).labels.Perm (ns.map Step.id)) {gap : Nat} (hgap : 0 < gap)
    {row : Step → Step}
    (hrow : ∀ s ∈ ns, ∀ i l, ((Forest.node r k .nil).paths [])[i]? = some (s.id, l) →
      row s = { s with position := skip gap i, ancestry := some (Dom.ancestryText l) }) :
    StepTree gap (ns.map row) := by
  have hplace : ∀ s ∈ ns, ∃ i l, i < ns.length ∧ ((Forest.node r k .nil).paths [])[i]? = some (s.id, l) ∧
      row s = { s with position := skip gap i, ancestry := some (Dom.ancestryText l) } := by
    intro s hs
    obtain ⟨i, l, hlt, hi⟩ := exists_path hg hs
    exact ⟨i, l, hlt, hi, hrow s hs i l hi⟩
  have hrowid : ∀ s ∈ ns, (row s).id = s.id ∧ (row s).name = s.name := by
    intro s hs
    obtain ⟨i, l, -, -, heq⟩ := hplace s hs
    rw [heq]
    exact ⟨rfl, rfl⟩
  refine ⟨?_, ?_, ?_, ?_, ?_, ?_, ?_⟩
  · rw [List.map_map]
    have hcongr : ns.map (Step.id ∘ row) = ns.map Step.id :=
      List.map_congr_left fun s hs => (hrowid s hs).1
    rw [hcongr]
    exact hids
  · intro x hx
    obtain ⟨s, hs, rfl⟩ := List.mem_map.mp hx
    rw [(hrowid s hs).1]
    exact hpos s hs
  · intro x hx
    obtain ⟨s, hs, rfl⟩ := List.mem_map.mp hx
    rw [(hrowid s hs).2]
    exact hname s hs
  · rw [List.map_map]
    apply List.Nodup.map_on _ (List.Nodup.of_map _ hids)
    intro s hs t ht heq
    obtain ⟨i, l, -, hi, hrs⟩ := hplace s hs
    obtain ⟨j, m, -, hj, hrt⟩ := hplace t ht
    rw [Function.comp, Function.comp, hrs, hrt] at heq
    have hij : i = j := skip_inj.mp heq
    subst hij
    have hid : s.id = t.id := by
      rw [hi] at hj
      simp only [Option.some.injEq, Prod.mk.injEq] at hj
      exact hj.1
    exact List.inj_on_of_nodup_map hids hs ht hid
  · intro x hx
    obtain ⟨s, hs, rfl⟩ := List.mem_map.mp hx
    obtain ⟨i, l, hlt, -, heq⟩ := hplace s hs
    rw [heq, List.length_map]
    dsimp only
    unfold skip
    split <;> omega
  · intro x hx h0
    obtain ⟨s, hs, rfl⟩ := List.mem_map.mp hx
    obtain ⟨i, l, -, hi, heq⟩ := hplace s hs
    rw [heq] at h0 ⊢
    have hi0 : i = 0 := (skip_eq_zero hgap).mp h0
    subst hi0
    have hl : l = [] := by
      simp only [Forest.paths, List.getElem?_cons_zero, Option.some.injEq, Prod.mk.injEq] at hi
      exact hi.2.symm
    simp [Step.topLevel, Dom.ancestryText, hl]
  · intro x hx h0
    obtain ⟨s, hs, rfl⟩ := List.mem_map.mp hx
    obtain ⟨i, l, -, hi, heq⟩ := hplace s hs
    have hi0 : i ≠ 0 := fun h => h0 (by rw [heq]; exact (skip_eq_zero hgap).mpr h)
    obtain ⟨j, hj, q, t, rfl, hq⟩ := (Forest.paths_parent hi).resolve_left (paths_one_root hi0 hi)
    -- the row of the parent
    have hqmem : q ∈ ns.map Step.id :=
      hg.mem_iff.mp (Forest.fst_mem_labels (List.mem_of_getElem? hq))
    obtain ⟨u, hu, rfl⟩ := List.mem_map.mp hqmem
    have hru := hrow u hu j t hq
    refine ⟨row u, List.mem_map_of_mem hu, ?_, ?_⟩
    · rw [heq, hru]
      exact skip_lt_skip.mpr hj
    · exact childOf_written (l := t) (by rw [hru]) (by rw [heq, hru])

end StepTree
