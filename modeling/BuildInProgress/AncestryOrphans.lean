import BuildInProgress.AncestryQueries

/-!
# Orphan strategies

What `ancestry-2.1.0` does with the descendants of a node before the node is destroyed.  Each strategy leaves a table
whose check stays quiet, but for one case: `:adopt` writes an empty text, not null, into the children of a root.
`restore_ancestry_integrity!` then makes of it what `:rootify` had made.
-/

namespace Ancestry.Nodes

open Text Relation Lineage

inductive OrphanStrategy where
  | rootify
  | destroy
  | adopt
  | restrict
  deriving DecidableEq, Repr

/-- `gsub(/^#{child_ancestry}\//, '')`, or null for `child_ancestry` itself, of a column without a line break in
front of its end. -/
def rootified (childAncestry : Text) (column : Option Text) : Option Text :=
  if column = some childAncestry then none else column.map (·.drop (childAncestry.length + 1))

/-- `update_attribute` of each descendant. -/
def rewriteDescendant (node : Node) (column : Option Text → Option Text) (d : Node) : Node :=
  if descendant node.childAncestry d.ancestry then { d with ancestry := column d.ancestry } else d

theorem key_rewriteDescendant (node : Node) (column : Option Text → Option Text) (d : Node) :
    Keyed.key (rewriteDescendant node column d) = Keyed.key d := by
  rw [rewriteDescendant]
  split <;> rfl

/-- `apply_orphan_strategy`, which raises under `:restrict` when there are children. -/
def applyOrphanStrategy (strategy : OrphanStrategy) (t : Table Node) (node : Node) : Option (Table Node) :=
  match strategy with
  | .rootify =>
    some (t.map (rewriteDescendant node (rootified node.childAncestry)) (key_rewriteDescendant node _))
  | .destroy => some (t.filter fun d => !descendant node.childAncestry d.ancestry)
  | .adopt =>
    some (t.map (rewriteDescendant node fun column => some (Ancestry.adopt node.id column))
      (key_rewriteDescendant node _))
  | .restrict => if isChildless t node then some t else none

/-- `node.destroy` -/
def destroyNode (strategy : OrphanStrategy) (t : Table Node) (node : Node) : Option (Table Node) :=
  (applyOrphanStrategy strategy t node).map (·.filter (·.id ≠ node.id))

/-! ## What a destruction leaves -/

section Destroyed

variable {t t' : Table Node} {node : Node} {strategy : OrphanStrategy}

/-- The ancestors of a descendant after the destruction of `node`; nothing when it is gone. -/
def passedOn (node d : Node) : OrphanStrategy → Option (List Nat)
  | .rootify => some (d.ancestorIds.drop node.pathIds.length)
  | .destroy => none
  | .adopt => some (d.ancestorIds.filter (· ≠ node.id))
  | .restrict => none

/-- The ancestors of a row after the destruction of `node`. -/
def heir (strategy : OrphanStrategy) (node d : Node) : Option (List Nat) :=
  if d.id = node.id then none
  else if node.id ∈ d.ancestorIds then passedOn node d strategy
  else some d.ancestorIds

/-- `:adopt` writes a text into each descendant, even an empty one. -/
def heirColumn (strategy : OrphanStrategy) (node d : Node) (l : List Nat) : Option Text :=
  if strategy = .adopt ∧ node.id ∈ d.ancestorIds then some (render l) else written l

theorem ancestorIds_heirColumn (strategy : OrphanStrategy) (node d : Node) (l : List Nat) :
    ancestorIds (heirColumn strategy node d l) = l := by
  rw [heirColumn]
  split
  · exact ancestorIds_render l
  · exact ancestorIds_written l

theorem rootified_render {l : List Nat} (hl : l ≠ []) (s : List Nat) :
    rootified (render l) (some (render (l ++ s))) = written s := by
  by_cases hs : s = []
  · rw [hs, List.append_nil, rootified, if_pos rfl]
    rfl
  · have hne : some (render (l ++ s)) ≠ some (render l) := by
      rw [ne_eq, Option.some.injEq, render_inj, List.append_right_eq_self]
      exact hs
    rw [rootified, if_neg hne, Option.map_some, render_append hl hs, written_of_ne_nil hs,
      List.drop_length_add_append, List.drop_succ_cons, List.drop_zero]

/-- What the strategies that write make of one row. -/
theorem Intact.rewriteDescendant_eq (h : Intact t) (hw : Written t) (hnode : node ∈ t.rows) {d : Node} (hd : d ∈ t.rows)
    {column : Option Text → Option Text} {target : List Nat → Option Text}
    (hcolumn : ∀ s, column (some (render (node.pathIds ++ s))) = target s) :
    (∀ s, d.ancestorIds = node.pathIds ++ s → rewriteDescendant node column d = ⟨d.id, target s⟩) ∧
      (node.id ∉ d.ancestorIds → rewriteDescendant node column d = d) := by
  have hiff := (hw.descendant_iff hnode hd).trans (h.pathIds_prefix hnode hd)
  constructor
  · intro s hs
    have hmem : node.id ∈ d.ancestorIds := by
      rw [hs]
      simp [Node.pathIds]
    rw [rewriteDescendant, if_pos (hiff.mpr hmem), hw d hd, hs, written_of_ne_nil (by simp [Node.pathIds]), hcolumn]
  · intro hmem
    rw [rewriteDescendant, if_neg fun hc => hmem (hiff.mp hc)]

theorem Intact.notMem_split (h : Intact t) {d : Node} (hd : d ∈ t.rows) {s : List Nat}
    (hs : d.ancestorIds = node.pathIds ++ s) : node.id ∉ node.ancestorIds ∧ node.id ∉ s := by
  have hn := h.sound.nodup (paths_of_mem hd)
  rw [hs, Node.pathIds, List.append_assoc, List.singleton_append, List.nodup_append, List.nodup_cons] at hn
  exact ⟨fun hm => hn.2.2 _ hm _ List.mem_cons_self rfl, hn.2.1.1⟩

/-- What is left of the ancestors below the node. -/
theorem Intact.heir_below (h : Intact t) {d : Node} (hd : d ∈ t.rows) {s : List Nat}
    (hs : d.ancestorIds = node.pathIds ++ s) :
    heir strategy node d = match strategy with
      | .rootify => some s
      | .destroy => none
      | .adopt => some (node.ancestorIds ++ s)
      | .restrict => none := by
  have hmem : node.id ∈ d.ancestorIds := by
    rw [hs]
    simp [Node.pathIds]
  have hid : d.id ≠ node.id := by
    intro heq
    exact h.sound.notMem (paths_of_mem hd) (heq ▸ hmem)
  obtain ⟨hanc, hrest⟩ := h.notMem_split hd hs
  rw [heir, if_neg hid, if_pos hmem]
  cases strategy with
  | rootify => rw [passedOn, hs, List.drop_left]
  | adopt =>
    show some (d.ancestorIds.filter (· ≠ node.id)) = some (node.ancestorIds ++ s)
    have hfilter : ∀ {l : List Nat}, node.id ∉ l → l.filter (fun i => decide (i ≠ node.id)) = l := by
      intro l hl
      rw [List.filter_eq_self]
      intro i hi
      rw [decide_eq_true_eq]
      rintro rfl
      exact hl hi
    rw [hs, Node.pathIds, List.append_assoc, List.filter_append, List.filter_append, hfilter hanc, hfilter hrest]
    simp
  | destroy => rfl
  | restrict => rfl

theorem heir_apart {d : Node} (hid : d.id ≠ node.id) (hmem : node.id ∉ d.ancestorIds) :
    heir strategy node d = some d.ancestorIds := by
  rw [heir, if_neg hid, if_neg hmem]

theorem Written.eq_mk (hw : Written t) {d : Node} (hd : d ∈ t.rows) : (⟨d.id, written d.ancestorIds⟩ : Node) = d := by
  rw [← hw d hd]

/-- The ancestors of a descendant start with the path of the node. -/
theorem Intact.exists_split (h : Intact t) (hnode : node ∈ t.rows) {d : Node} (hd : d ∈ t.rows)
    (hmem : node.id ∈ d.ancestorIds) : ∃ s, d.ancestorIds = node.pathIds ++ s := by
  obtain ⟨s, hs⟩ := (h.pathIds_prefix hnode hd).mpr hmem
  exact ⟨s, hs.symm⟩

/-- The rows of a strategy that rewrites the descendants. -/
theorem Intact.rows_rewritten (h : Intact t) (hw : Written t) (hnode : node ∈ t.rows)
    {column : Option Text → Option Text} (target : List Nat → Option Text)
    (hcolumn : ∀ s, column (some (render (node.pathIds ++ s))) = target s)
    (htarget : ∀ d ∈ t.rows, ∀ s, d.ancestorIds = node.pathIds ++ s →
      (heir strategy node d).map (fun l => heirColumn strategy node d l) = some (target s)) :
    (t.rows.map (rewriteDescendant node column)).filter (fun d => decide (d.id ≠ node.id)) =
      t.rows.filterMap fun d => (heir strategy node d).map fun l => ⟨d.id, heirColumn strategy node d l⟩ := by
  rw [← List.filterMap_eq_filter, List.filterMap_map]
  apply List.filterMap_congr
  intro d hd
  obtain ⟨hbelow, hapart⟩ := h.rewriteDescendant_eq hw hnode hd hcolumn
  rw [Function.comp]
  by_cases hmem : node.id ∈ d.ancestorIds
  · obtain ⟨s, hs⟩ := h.exists_split hnode hd hmem
    have hid : d.id ≠ node.id := fun heq => h.sound.notMem (paths_of_mem hd) (heq ▸ hmem)
    obtain ⟨l, hl, hcol⟩ := Option.map_eq_some_iff.mp (htarget d hd s hs)
    rw [hbelow s hs, hl, Option.map_some, hcol]
    simp [hid]
  · rw [hapart hmem]
    by_cases hid : d.id = node.id
    · rw [heir, if_pos hid]
      simp [hid]
    · rw [heir_apart hid hmem, Option.map_some, heirColumn, if_neg fun hc => hmem hc.2, hw.eq_mk hd]
      simp [hid]

/-- The rows of a strategy that only takes rows out. -/
theorem Written.rows_taken (hw : Written t) {p : Node → Bool}
    (hp : ∀ d ∈ t.rows, p d = decide ((heir strategy node d).isSome = true))
    (hs : strategy = .destroy ∨ strategy = .restrict) :
    t.rows.filter p = t.rows.filterMap fun d =>
      (heir strategy node d).map fun l => ⟨d.id, heirColumn strategy node d l⟩ := by
  rw [← List.filterMap_eq_filter]
  apply List.filterMap_congr
  intro d hd
  rw [Option.guard, hp d hd]
  cases hl : heir strategy node d with
  | none => rfl
  | some l =>
    have hla : l = d.ancestorIds := by
      rw [heir] at hl
      split at hl
      · cases hl
      · split at hl
        · rcases hs with rfl | rfl <;> cases hl
        · exact (Option.some.inj hl).symm
    have hcolumn : heirColumn strategy node d l = written l := if_neg fun hc => by rcases hs with rfl | rfl <;> cases hc.1
    rw [Option.map_some, hcolumn, hla, hw.eq_mk hd]
    rfl

/-- The rows after the destruction. -/
theorem Intact.rows_destroyNode (h : Intact t) (hw : Written t) (hnode : node ∈ t.rows)
    (ht' : destroyNode strategy t node = some t') :
    t'.rows = t.rows.filterMap fun d =>
      (heir strategy node d).map fun l => ⟨d.id, heirColumn strategy node d l⟩ := by
  obtain ⟨applied, happlied, rfl⟩ := Option.map_eq_some_iff.mp ht'
  rw [Table.rows_filter]
  cases strategy with
  | rootify =>
    obtain rfl := Option.some.inj happlied
    refine h.rows_rewritten hw hnode written (fun s => ?_) (fun d hd s hs => ?_)
    · rw [hw.childAncestry_eq hnode]
      exact rootified_render (pathIds_ne_nil node) s
    · rw [h.heir_below hd hs]
      exact congrArg some (if_neg fun hc => by cases hc.1)
  | adopt =>
    obtain rfl := Option.some.inj happlied
    refine h.rows_rewritten hw hnode
      (fun s => some (render ((node.pathIds ++ s).filter (· ≠ node.id)))) (fun s => ?_) (fun d hd s hs => ?_)
    · rw [adopt_render]
    · have hmem : node.id ∈ d.ancestorIds := by
        rw [hs]
        simp [Node.pathIds]
      have hid : d.id ≠ node.id := fun heq => h.sound.notMem (paths_of_mem hd) (heq ▸ hmem)
      rw [heir, if_neg hid, if_pos hmem, passedOn, Option.map_some, heirColumn, if_pos ⟨rfl, hmem⟩, hs]
  | destroy =>
    obtain rfl := Option.some.inj happlied
    rw [Table.rows_filter, List.filter_filter]
    refine hw.rows_taken (fun d hd => ?_) (Or.inl rfl)
    have hiff := (hw.descendant_iff hnode hd).trans (h.pathIds_prefix hnode hd)
    by_cases hid : d.id = node.id
    · rw [heir, if_pos hid]
      simp [hid]
    · by_cases hmem : node.id ∈ d.ancestorIds
      · rw [heir, if_neg hid, if_pos hmem, hiff.mpr hmem, passedOn]
        simp
      · have hno : descendant node.childAncestry d.ancestry = false := by
          rw [← Bool.not_eq_true]
          exact fun hc => hmem (hiff.mp hc)
        rw [heir_apart hid hmem, hno]
        simp [hid]
  | restrict =>
    rw [applyOrphanStrategy] at happlied
    split at happlied
    · rename_i hchildless
      obtain rfl := Option.some.inj happlied
      have hno := (h.isChildless_iff hw hnode).mp hchildless
      refine hw.rows_taken (fun d hd => ?_) (Or.inr rfl)
      by_cases hid : d.id = node.id
      · rw [heir, if_pos hid]
        simp [hid]
      · rw [heir_apart hid (hno d hd)]
        simp [hid]
    · cases happlied

/-- The paths after the destruction. -/
theorem Intact.paths_destroyNode (h : Intact t) (hw : Written t) (hnode : node ∈ t.rows)
    (ht' : destroyNode strategy t node = some t') (id : Nat) :
    paths t' id = (t.find? id).bind (heir strategy node) := by
  have hrows := h.rows_destroyNode hw hnode ht'
  apply Option.ext
  intro l
  rw [paths_eq_some, Option.bind_eq_some_iff, hrows]
  constructor
  · rintro ⟨n, hn, rfl, rfl⟩
    obtain ⟨d, hd, heq⟩ := List.mem_filterMap.mp hn
    obtain ⟨l, hl, rfl⟩ := Option.map_eq_some_iff.mp heq
    refine ⟨d, Table.find?_of_mem hd, ?_⟩
    rw [hl, Node.ancestorIds, ancestorIds_heirColumn]
  · rintro ⟨d, hfind, hl⟩
    obtain ⟨hd, hid⟩ := Table.find?_eq_some.mp hfind
    have hid : d.id = id := hid
    refine ⟨⟨d.id, heirColumn strategy node d l⟩, List.mem_filterMap.mpr ⟨d, hd, by rw [hl, Option.map_some]⟩, hid, ?_⟩
    rw [Node.ancestorIds, ancestorIds_heirColumn]

theorem Intact.paths_of_heir (h : Intact t) (hw : Written t) (hnode : node ∈ t.rows)
    (ht' : destroyNode strategy t node = some t') {d : Node} (hd : d ∈ t.rows) :
    paths t' d.id = heir strategy node d := by
  have hfind : t.find? d.id = some d := Table.find?_of_mem hd
  rw [h.paths_destroyNode hw hnode ht', hfind, Option.bind_some]

/-- Adopted descendants have the paths without the node. -/
theorem Intact.paths_adopt (h : Intact t) (hw : Written t) (hnode : node ∈ t.rows)
    (ht' : destroyNode .adopt t node = some t') :
    paths t' = restrict (fun i => decide (i ≠ node.id)) (paths t) := by
  funext b
  rw [h.paths_destroyNode hw hnode ht', restrict, paths]
  cases hfind : t.find? b with
  | none => simp
  | some d =>
    obtain ⟨hd, hid⟩ := Table.find?_eq_some.mp hfind
    have hid : d.id = b := hid
    rw [Option.bind_some, heir, hid]
    by_cases hb : b = node.id
    · simp [hb]
    · rw [if_neg hb, if_pos (show decide (b ≠ node.id) = true by simpa using hb), Option.map_some]
      split
      · rfl
      · rename_i hmem
        congr 1
        symm
        rw [List.filter_eq_self]
        intro i hi
        rw [decide_eq_true_eq]
        rintro rfl
        exact hmem hi

/-- The paths agree after the destruction, whatever the strategy. -/
theorem Intact.sound_destroyNode (h : Intact t) (hw : Written t) (hnode : node ∈ t.rows)
    (ht' : destroyNode strategy t node = some t') : Sound (paths t') := by
  have hrow : ∀ b q, paths t b = some q →
      ∃ d ∈ t.rows, d.id = b ∧ d.ancestorIds = q ∧ paths t' b = heir strategy node d := by
    intro b q hb
    obtain ⟨d, hd, rfl, rfl⟩ := paths_eq_some.mp hb
    exact ⟨d, hd, rfl, rfl, h.paths_of_heir hw hnode ht' hd⟩
  have hkeep : ∀ b q, paths t b = some q → node.id ≠ b → node.id ∉ q → paths t' b = some q := by
    intro b q hb hne hmem
    obtain ⟨d, -, rfl, rfl, hheir⟩ := hrow b q hb
    rw [hheir, heir_apart (Ne.symm hne) hmem]
  have honly : ∀ b, (paths t' b).isSome = true → (paths t b).isSome = true ∧ node.id ≠ b := by
    intro b hb
    obtain ⟨l, hl⟩ := Option.isSome_iff_exists.mp hb
    rw [h.paths_destroyNode hw hnode ht'] at hl
    obtain ⟨d, hfind, hheir⟩ := Option.bind_eq_some_iff.mp hl
    have hid : d.id = b := (Table.find?_eq_some.mp hfind).2
    refine ⟨by rw [isSome_paths, found, hfind]; rfl, ?_⟩
    rintro rfl
    rw [heir, if_pos hid] at hheir
    cases hheir
  have hprune : (∀ d ∈ t.rows, node.id ∈ d.ancestorIds → heir strategy node d = none) → Sound (paths t') := by
    intro hgone
    refine h.sound.prune (a := node.id) hkeep fun b q hb => ?_
    obtain ⟨hsome, hne⟩ := honly b (by rw [hb]; rfl)
    obtain ⟨q', hq'⟩ := Option.isSome_iff_exists.mp hsome
    obtain ⟨d, hd, rfl, rfl, hheir⟩ := hrow b q' hq'
    by_cases hmem : node.id ∈ d.ancestorIds
    · rw [hheir, hgone d hd hmem] at hb
      cases hb
    · rw [hkeep _ _ hq' hne hmem, Option.some.injEq] at hb
      exact ⟨hb ▸ hq', hne, hb ▸ hmem⟩
  cases strategy with
  | rootify =>
    refine h.sound.cut (a := node.id) (fun b l r hb => ?_) hkeep honly
    obtain ⟨d, hd, -, hanc, hheir⟩ := hrow b _ hb
    have hl := h.sound.path_of_mem hb
    rw [paths_of_mem hnode, Option.some.injEq] at hl
    have hs : d.ancestorIds = node.pathIds ++ r := by
      rw [hanc, Node.pathIds, hl, List.append_assoc, List.singleton_append]
    rw [hheir, h.heir_below hd hs]
  | adopt =>
    rw [h.paths_adopt hw hnode ht']
    exact h.sound.restrict _
  | destroy =>
    refine hprune fun d hd hmem => ?_
    obtain ⟨s, hs⟩ := h.exists_split hnode hd hmem
    exact h.heir_below hd hs
  | restrict =>
    refine hprune fun d hd hmem => ?_
    obtain ⟨s, hs⟩ := h.exists_split hnode hd hmem
    exact h.heir_below hd hs

theorem destroyNode_eq_none :
    destroyNode strategy t node = none ↔ strategy = .restrict ∧ isChildless t node = false := by
  rw [destroyNode, Option.map_eq_none_iff]
  cases strategy with
  | rootify => exact iff_of_false (by simp [applyOrphanStrategy]) fun h => by cases h.1
  | destroy => exact iff_of_false (by simp [applyOrphanStrategy]) fun h => by cases h.1
  | adopt => exact iff_of_false (by simp [applyOrphanStrategy]) fun h => by cases h.1
  | restrict =>
    rw [applyOrphanStrategy, and_iff_right rfl]
    split
    · rename_i hchildless
      exact iff_of_false (by simp) (by simp [hchildless])
    · rename_i hchildren
      exact iff_of_true rfl (by simpa using hchildren)

/-- Each row that is left comes from one row, with the path that is left of its own. -/
theorem Intact.row_destroyNode (h : Intact t) (hw : Written t) (hnode : node ∈ t.rows)
    (ht' : destroyNode strategy t node = some t') {n : Node} (hn : n ∈ t'.rows) :
    ∃ d ∈ t.rows, ∃ l, heir strategy node d = some l ∧ n = ⟨d.id, heirColumn strategy node d l⟩ := by
  rw [h.rows_destroyNode hw hnode ht'] at hn
  obtain ⟨d, hd, heq⟩ := List.mem_filterMap.mp hn
  obtain ⟨l, hl, rfl⟩ := Option.map_eq_some_iff.mp heq
  exact ⟨d, hd, l, hl, rfl⟩

/-- The only columns that break the format are empty ones. -/
theorem Intact.format_destroyNode (h : Intact t) (hw : Written t) (hnode : node ∈ t.rows)
    (ht' : destroyNode strategy t node = some t') {n : Node} (hn : n ∈ t'.rows) :
    validFormat n.ancestry = true ∨ n.ancestorIds = [] := by
  obtain ⟨d, -, l, -, rfl⟩ := h.row_destroyNode hw hnode ht' hn
  rw [Node.ancestorIds, ancestorIds_heirColumn, heirColumn]
  by_cases hl : l = []
  · exact Or.inr hl
  · left
    split
    · exact pattern_render hl
    · exact validFormat_written l

theorem Intact.intact_destroyNode_iff (h : Intact t) (hw : Written t) (hnode : node ∈ t.rows)
    (ht' : destroyNode strategy t node = some t') :
    Intact t' ↔ ¬ (strategy = .adopt ∧ node.isRoot = true ∧ isChildless t node = false) := by
  constructor
  · rintro hi ⟨rfl, hroot, hchildren⟩
    -- a child of the root gets an empty text
    have hne : children t node ≠ [] := by simpa [isChildless] using hchildren
    obtain ⟨child, hmem⟩ := List.exists_mem_of_ne_nil _ hne
    obtain ⟨hrow, hparent⟩ := (h.mem_children hw hnode).mp hmem
    have hanc := (h.parentId_eq_some hnode hrow).mp hparent
    have hnil : node.ancestorIds = [] := List.getLast?_eq_none_iff.mp ((hw.isRoot_iff hnode).mp hroot)
    have hheir : heir .adopt node child = some (node.ancestorIds ++ []) :=
      h.heir_below hrow (by rw [hanc, List.append_nil])
    rw [List.append_nil, hnil] at hheir
    have hin : (⟨child.id, heirColumn .adopt node child []⟩ : Node) ∈ t'.rows := by
      rw [h.rows_destroyNode hw hnode ht']
      exact List.mem_filterMap.mpr ⟨child, hrow, by rw [hheir, Option.map_some]⟩
    have hbad : validFormat (heirColumn .adopt node child []) = true := hi.format _ hin
    rw [heirColumn, if_pos ⟨rfl, by rw [hanc]; simp [Node.pathIds]⟩] at hbad
    exact absurd hbad (by decide)
  · intro hno
    refine ⟨fun n hn => ?_, h.sound_destroyNode hw hnode ht'⟩
    obtain ⟨d, hd, l, hl, rfl⟩ := h.row_destroyNode hw hnode ht' hn
    show validFormat (heirColumn strategy node d l) = true
    rw [heirColumn]
    split
    · rename_i hadopt
      refine pattern_render fun hnil => hno ⟨hadopt.1, ?_, ?_⟩
      · obtain ⟨s, hs⟩ := h.exists_split hnode hd hadopt.2
        rw [hadopt.1, h.heir_below hd hs, hnil, Option.some.injEq, List.append_eq_nil_iff] at hl
        rw [hw.isRoot_iff hnode, Node.parentId, hl.1, List.getLast?_nil]
      · rw [← Bool.not_eq_true]
        exact fun hchildless => (h.isChildless_iff hw hnode).mp hchildless d hd hadopt.2
    · exact validFormat_written l

/-- The rows that are left. -/
theorem Intact.found_destroyNode (h : Intact t) (hw : Written t) (hnode : node ∈ t.rows)
    (ht' : destroyNode strategy t node = some t') (id : Nat) :
    found t' id = true ↔ found t id = true ∧ id ≠ node.id ∧
      (strategy = .destroy → ¬ TransGen (fun a b => parentOf t a = some b) id node.id) := by
  rw [← isSome_paths, h.paths_destroyNode hw hnode ht', found]
  cases hfind : t.find? id with
  | none => simp
  | some d =>
    obtain ⟨hd, hid⟩ := Table.find?_eq_some.mp hfind
    have hid : d.id = id := hid
    rw [Option.bind_some, ← hid, ← h.mem_ancestorIds hd, and_iff_right (show (some d).isSome = true from rfl), heir]
    by_cases hne : d.id = node.id
    · rw [if_pos hne]
      exact iff_of_false (by decide) fun hc => hc.1 hne
    · rw [if_neg hne, and_iff_right hne]
      split
      · rename_i hmem
        cases strategy with
        | rootify => exact iff_of_true rfl fun hc => by cases hc
        | destroy => exact iff_of_false (by simp [passedOn]) fun hc => hc rfl hmem
        | adopt => exact iff_of_true rfl fun hc => by cases hc
        | restrict =>
          -- it would have raised
          have hchildless : isChildless t node = true := by
            by_contra hc
            rw [destroyNode_eq_none.mpr ⟨rfl, by simpa using hc⟩] at ht'
            cases ht'
          exact absurd hmem ((h.isChildless_iff hw hnode).mp hchildless d hd)
      · rename_i hmem
        exact iff_of_true rfl fun _ => hmem

/-- Who is whose parent among the rows that are left. -/
theorem Intact.parentOf_destroyNode (h : Intact t) (hw : Written t) (hnode : node ∈ t.rows)
    (ht' : destroyNode strategy t node = some t') {id : Nat} (hid : found t' id = true) :
    parentOf t' id = if parentOf t id = some node.id then if strategy = .adopt then node.parentId else none
      else parentOf t id := by
  rw [← isSome_paths, h.paths_destroyNode hw hnode ht'] at hid
  obtain ⟨l, hl⟩ := Option.isSome_iff_exists.mp hid
  obtain ⟨d, hfind, hheir⟩ := Option.bind_eq_some_iff.mp hl
  obtain ⟨hd, rfl⟩ := Table.find?_eq_some.mp hfind
  have hpath : paths t' d.id = some l := (h.paths_of_heir hw hnode ht' hd).trans hheir
  show parentOf t' d.id = if parentOf t d.id = some node.id then _ else parentOf t d.id
  rw [parentOf_of_mem hd, ← up_paths, up, hpath, Option.bind_some, Node.parentId]
  by_cases hmem : node.id ∈ d.ancestorIds
  · obtain ⟨s, hs⟩ := (h.pathIds_prefix hnode hd).mpr hmem
    have hs := hs.symm
    obtain ⟨-, hnot⟩ := h.notMem_split hd hs
    rw [h.heir_below hd hs] at hheir
    rw [hs]
    rcases List.eq_nil_or_concat s with rfl | ⟨r, c, rfl⟩
    · rw [List.append_nil, Node.pathIds, List.getLast?_concat, if_pos rfl]
      cases strategy with
      | rootify => rw [← Option.some.inj hheir]; rfl
      | destroy => cases hheir
      | adopt => rw [← Option.some.inj hheir, List.append_nil]; rfl
      | restrict => cases hheir
    · rw [List.concat_eq_append] at hheir hnot ⊢
      have hc : c ≠ node.id := by
        rintro rfl
        exact hnot (by simp)
      rw [← List.append_assoc, List.getLast?_concat, if_neg (by simpa using hc)]
      cases strategy with
      | rootify => rw [← Option.some.inj hheir, List.getLast?_concat]
      | destroy => cases hheir
      | adopt => rw [← Option.some.inj hheir, ← List.append_assoc, List.getLast?_concat]
      | restrict => cases hheir
  · have hne : d.id ≠ node.id := by
      intro heq
      rw [heir, if_pos heq] at hheir
      cases hheir
    rw [heir_apart hne hmem, Option.some.injEq] at hheir
    rw [← hheir, if_neg fun hc => hmem (List.mem_of_getLast? hc)]

end Destroyed

/-- Only `:restrict` refuses, and then because of children.  The check stays quiet after every destruction but that
of a root with children under `:adopt`.  The others lose their parent when it was the node, and under `:adopt` have
the parent of the node in its place. -/
theorem destroy_keeps_integrity_iff {t : Table Node} (h : listAncestryIntegrity t = []) (hw : Written t) {node : Node}
    (hnode : node ∈ t.rows) (strategy : OrphanStrategy) :
    (destroyNode strategy t node = none ↔ strategy = .restrict ∧ isChildless t node = false) ∧
      ∀ t', destroyNode strategy t node = some t' →
        (listAncestryIntegrity t' = [] ↔
          ¬ (strategy = .adopt ∧ node.isRoot = true ∧ isChildless t node = false)) ∧
        (∀ id, found t' id = true ↔ found t id = true ∧ id ≠ node.id ∧
          (strategy = .destroy → ¬ TransGen (fun a b => parentOf t a = some b) id node.id)) ∧
        ∀ id, found t' id = true → parentOf t' id =
          if parentOf t id = some node.id then if strategy = .adopt then node.parentId else none
          else parentOf t id := by
  rw [listAncestryIntegrity_iff] at h
  refine ⟨destroyNode_eq_none, fun t' ht' => ⟨?_, h.found_destroyNode hw hnode ht', ?_⟩⟩
  · rw [listAncestryIntegrity_iff]
    exact h.intact_destroyNode_iff hw hnode ht'
  · exact fun id hid => h.parentOf_destroyNode hw hnode ht' hid

/-- The grandchild is adopted. -/
theorem destroy_threeGenerations :
    ∃ t', destroyNode .adopt threeGenerations ⟨2, some "1".toList⟩ = some t' ∧ listAncestryIntegrity t' = [] ∧
      parentOf t' 3 = some 1 :=
  have h := @destroy_keeps_integrity_iff threeGenerations (by decide +kernel) (by decide +kernel) ⟨2, some "1".toList⟩
    (by decide +kernel) .adopt
  have hsome := Option.ne_none_iff_exists'.mp fun hnone => OrphanStrategy.noConfusion (h.1.mp hnone).1
  hsome.imp fun t' ht' =>
    have hleft := (h.2 t' ht').2.1 3
    ⟨ht', (h.2 t' ht').1.mpr (by decide +kernel), by
      rw [(h.2 t' ht').2.2 3 (hleft.mpr ⟨by decide +kernel, by decide, fun hs => OrphanStrategy.noConfusion hs⟩)]
      decide +kernel⟩

/-- Restoring the integrity after `:adopt` has taken a root leaves what `:rootify` would have left. -/
theorem restore_after_adopt {t : Table Node} (h : listAncestryIntegrity t = []) (hw : Written t) {node : Node}
    (hnode : node ∈ t.rows) (hroot : node.isRoot = true) :
    ((destroyNode .adopt t node).bind restoreAncestryIntegrity).map Table.rows =
      (destroyNode .rootify t node).map Table.rows := by
  rw [listAncestryIntegrity_iff] at h
  have hnil : node.ancestorIds = [] := List.getLast?_eq_none_iff.mp ((hw.isRoot_iff hnode).mp hroot)
  have hsome : ∀ strategy, strategy ≠ .restrict → ∃ t', destroyNode strategy t node = some t' := by
    intro strategy hs
    rw [← Option.isSome_iff_exists, Option.isSome_iff_ne_none]
    exact fun hnone => hs (destroyNode_eq_none.mp hnone).1
  obtain ⟨adopted, hadopted⟩ := hsome .adopt (by decide)
  obtain ⟨rooted, hrooted⟩ := hsome .rootify (by decide)
  rw [hadopted, hrooted, Option.bind_some, Option.map_some,
    restore_of_sound (h.sound_destroyNode hw hnode hadopted) fun n hn => h.format_destroyNode hw hnode hadopted hn,
    h.rows_destroyNode hw hnode hadopted, h.rows_destroyNode hw hnode hrooted, List.map_filterMap]
  congr 1
  apply List.filterMap_congr
  intro d hd
  -- below a root both strategies leave the same path
  have hsame : heir .adopt node d = heir .rootify node d := by
    by_cases hmem : node.id ∈ d.ancestorIds
    · obtain ⟨s, hs⟩ := (h.pathIds_prefix hnode hd).mpr hmem
      rw [h.heir_below hd hs.symm, h.heir_below hd hs.symm, hnil, List.nil_append]
    · rw [heir, heir, if_neg hmem, if_neg hmem]
  rw [hsame]
  cases heir .rootify node d with
  | none => rfl
  | some l =>
    have hcolumn : heirColumn .rootify node d l = written l := if_neg fun hc => absurd hc.1 (by decide)
    rw [Option.map_some, Option.map_some, Option.map_some, Node.ancestorIds, ancestorIds_heirColumn, hcolumn]

theorem restore_after_adopted_children :
    ((destroyNode .adopt threeGenerations ⟨1, none⟩).bind restoreAncestryIntegrity).map Table.rows =
      (destroyNode .rootify threeGenerations ⟨1, none⟩).map Table.rows :=
  @restore_after_adopt threeGenerations (by decide +kernel) (by decide +kernel) ⟨1, none⟩ (by decide +kernel) rfl

end Ancestry.Nodes
