import BuildInProgress.AncestryRestore

/-!
# Tree queries

The queries of `ancestry-2.1.0` compare texts and ids with the ancestry columns.  On a table whose check reports
nothing and whose columns are as the gem writes them, they answer what the parents say.
-/

namespace Ancestry.Nodes

open Text Relation

namespace Node

/-- `child_ancestry` of a saved row. -/
def childAncestry (node : Node) : Text := Ancestry.childAncestry node.ancestry node.id

/-- `root_id` -/
def rootId (node : Node) : Nat := node.ancestorIds.head?.getD node.id

/-- `depth` -/
def depth (node : Node) : Nat := node.ancestorIds.length

/-- `is_root?` -/
def isRoot (node : Node) : Bool := blankColumn node.ancestry

end Node

/-- `ancestors` -/
def ancestors (t : Table Node) (node : Node) : List Node := t.rows.filter (·.id ∈ node.ancestorIds)

/-- `path` -/
def path (t : Table Node) (node : Node) : List Node := t.rows.filter (·.id ∈ node.pathIds)

/-- `children` -/
def children (t : Table Node) (node : Node) : List Node := t.rows.filter (·.ancestry = some node.childAncestry)

/-- `siblings`; a null column asks for null columns. -/
def siblings (t : Table Node) (node : Node) : List Node := t.rows.filter (·.ancestry = node.ancestry)

/-- `descendants` -/
def descendants (t : Table Node) (node : Node) : List Node :=
  t.rows.filter fun d => descendant node.childAncestry d.ancestry

/-- `subtree` -/
def subtree (t : Table Node) (node : Node) : List Node :=
  t.rows.filter fun d => d.id = node.id || descendant node.childAncestry d.ancestry

/-- `is_childless?` -/
def isChildless (t : Table Node) (node : Node) : Bool := (children t node).isEmpty

/-! ## Paths and parents -/

section Parents

variable {t : Table Node} {node other : Node}

theorem parentOf_of_mem (h : node ∈ t.rows) : parentOf t node.id = node.parentId := by
  have hfind : t.find? node.id = some node := Table.find?_of_mem h
  rw [parentOf, hfind, Option.bind_some]

theorem Intact.mem_ancestorIds (h : Intact t) (hnode : node ∈ t.rows) {id : Nat} :
    id ∈ node.ancestorIds ↔ TransGen (fun a b => parentOf t a = some b) node.id id := by
  rw [← up_paths]
  exact h.sound.mem_path_iff (paths_of_mem hnode)

theorem Intact.mem_pathIds (h : Intact t) (hnode : node ∈ t.rows) {id : Nat} :
    id ∈ node.pathIds ↔ ReflTransGen (fun a b => parentOf t a = some b) node.id id := by
  rw [Node.pathIds, List.mem_append, List.mem_singleton, h.mem_ancestorIds hnode, reflTransGen_iff_eq_or_transGen,
    or_comm]

/-- Below a node are those that have it on their path. -/
theorem Intact.pathIds_prefix (h : Intact t) (hnode : node ∈ t.rows) (hother : other ∈ t.rows) :
    node.pathIds <+: other.ancestorIds ↔ node.id ∈ other.ancestorIds := by
  constructor
  · intro hpre
    exact hpre.subset (by simp [Node.pathIds])
  · intro hmem
    obtain ⟨q, r, hq, hsplit⟩ := h.sound.exists_path (paths_of_mem hother) hmem
    rw [paths_of_mem hnode, Option.some.injEq] at hq
    exact ⟨r, by rw [Node.pathIds, hq, hsplit, List.append_assoc, List.singleton_append]⟩

/-- The path of the parent and the parent make up the ancestors. -/
theorem Intact.parentId_eq_some (h : Intact t) (hnode : node ∈ t.rows) (hother : other ∈ t.rows) :
    other.parentId = some node.id ↔ other.ancestorIds = node.pathIds := by
  constructor
  · intro hparent
    obtain ⟨q, hq⟩ := List.getLast?_eq_some_iff.mp hparent
    have hpath := h.sound.path_of_mem (r := []) ((paths_of_mem hother).trans (congrArg some hq))
    rw [paths_of_mem hnode, Option.some.injEq] at hpath
    rw [hq, Node.pathIds, hpath]
  · intro heq
    rw [Node.parentId, heq, Node.pathIds, List.getLast?_concat]

/-- Nodes with one parent have one ancestry. -/
theorem Intact.ancestorIds_inj (h : Intact t) (hnode : node ∈ t.rows) (hother : other ∈ t.rows) :
    other.ancestorIds = node.ancestorIds ↔ other.parentId = node.parentId := by
  constructor
  · intro heq
    rw [Node.parentId, Node.parentId, heq]
  · intro heq
    cases hparent : node.parentId with
    | none =>
      rw [hparent] at heq
      rw [List.getLast?_eq_none_iff.mp hparent, List.getLast?_eq_none_iff.mp heq]
    | some p =>
      rw [hparent] at heq
      obtain ⟨parent, hrow, rfl⟩ := found_iff.mp (h.found_ancestor hnode (List.mem_of_getLast? hparent))
      rw [(h.parentId_eq_some hrow hother).mp heq, (h.parentId_eq_some hrow hnode).mp hparent]

end Parents

/-! ## Columns -/

section Columns

variable {t : Table Node} {node other : Node}

theorem Written.childAncestry_eq (hw : Written t) (hnode : node ∈ t.rows) :
    node.childAncestry = render node.pathIds := by
  rw [Node.childAncestry, hw node hnode, written, Node.pathIds]
  split
  · rename_i hnil
    rw [childAncestry_blank (by rfl), hnil, List.nil_append]
  · rename_i hne
    exact childAncestry_render hne node.id

theorem Written.ancestry_inj (hw : Written t) (hnode : node ∈ t.rows) (hother : other ∈ t.rows) :
    other.ancestry = node.ancestry ↔ other.ancestorIds = node.ancestorIds := by
  constructor
  · intro heq
    rw [Node.ancestorIds, Node.ancestorIds, heq]
  · intro heq
    rw [hw node hnode, hw other hother, heq]

theorem pathIds_ne_nil (node : Node) : node.pathIds ≠ [] := by
  rw [Node.pathIds]
  simp

theorem Written.child_iff (hw : Written t) (hnode : node ∈ t.rows) (hother : other ∈ t.rows) :
    other.ancestry = some node.childAncestry ↔ other.ancestorIds = node.pathIds := by
  rw [hw.childAncestry_eq hnode, hw other hother, written]
  split
  · rename_i hnil
    rw [hnil]
    exact iff_of_false (by simp) (Ne.symm (pathIds_ne_nil node))
  · rw [Option.some.injEq, render_inj]

theorem Written.descendant_iff (hw : Written t) (hnode : node ∈ t.rows) (hother : other ∈ t.rows) :
    descendant node.childAncestry other.ancestry = true ↔ node.pathIds <+: other.ancestorIds := by
  rw [hw.childAncestry_eq hnode, hw other hother, written]
  split
  · rename_i hnil
    rw [hnil, List.prefix_nil]
    exact iff_of_false (by simp [descendant]) (pathIds_ne_nil node)
  · exact descendant_render (pathIds_ne_nil node)

theorem Written.isRoot_iff (hw : Written t) (hnode : node ∈ t.rows) : node.isRoot = true ↔ node.parentId = none := by
  rw [Node.isRoot, hw node hnode, Node.parentId, List.getLast?_eq_none_iff, written]
  split
  · rename_i hnil
    exact iff_of_true rfl hnil
  · rename_i hne
    exact iff_of_false (by simp [blankColumn, blank_render hne]) hne

end Columns

/-! ## Answers -/

section Answers

variable {t : Table Node} {node : Node}

theorem Intact.mem_descendants (h : Intact t) (hw : Written t) (hnode : node ∈ t.rows) {d : Node} :
    d ∈ descendants t node ↔ d ∈ t.rows ∧ node.id ∈ d.ancestorIds := by
  rw [descendants, List.mem_filter]
  exact and_congr_right fun hd => (hw.descendant_iff hnode hd).trans (h.pathIds_prefix hnode hd)

theorem Intact.mem_children (h : Intact t) (hw : Written t) (hnode : node ∈ t.rows) {d : Node} :
    d ∈ children t node ↔ d ∈ t.rows ∧ d.parentId = some node.id := by
  rw [children, List.mem_filter, decide_eq_true_eq]
  exact and_congr_right fun hd => (hw.child_iff hnode hd).trans (h.parentId_eq_some hnode hd).symm

/-- A node has descendants when it has children. -/
theorem Intact.isChildless_iff (h : Intact t) (hw : Written t) (hnode : node ∈ t.rows) :
    isChildless t node = true ↔ ∀ d ∈ t.rows, node.id ∉ d.ancestorIds := by
  rw [isChildless, List.isEmpty_iff, List.eq_nil_iff_forall_not_mem]
  constructor
  · intro hno d hd hmem
    -- the next one on the path is a child
    obtain ⟨r, hr⟩ := (h.pathIds_prefix hnode hd).mpr hmem
    cases r with
    | nil =>
      rw [List.append_nil] at hr
      exact hno d ((h.mem_children hw hnode).mpr ⟨hd, (h.parentId_eq_some hnode hd).mpr hr.symm⟩)
    | cons c r =>
      have hc : c ∈ d.ancestorIds := by
        rw [← hr]
        simp
      obtain ⟨child, hrow, rfl⟩ := found_iff.mp (h.found_ancestor hd hc)
      have hpath := h.sound.path_of_mem ((paths_of_mem hd).trans (congrArg some hr.symm))
      rw [paths_of_mem hrow, Option.some.injEq] at hpath
      exact hno child ((h.mem_children hw hnode).mpr ⟨hrow, (h.parentId_eq_some hnode hrow).mpr hpath⟩)
  · intro hno d hd
    obtain ⟨hrow, hparent⟩ := (h.mem_children hw hnode).mp hd
    exact hno d hrow (List.mem_of_getLast? hparent)

theorem Intact.length_ancestors (h : Intact t) (hnode : node ∈ t.rows) : (ancestors t node).length = node.depth := by
  have hn : ((ancestors t node).map Node.id).Nodup := t.nodup.sublist (List.filter_sublist.map _)
  have hperm : ((ancestors t node).map Node.id).Perm node.ancestorIds := by
    rw [List.perm_ext_iff_of_nodup hn (h.sound.nodup (paths_of_mem hnode))]
    intro id
    rw [List.mem_map]
    constructor
    · rintro ⟨n, hn, rfl⟩
      exact of_decide_eq_true (List.mem_filter.mp hn).2
    · intro hid
      obtain ⟨n, hn, rfl⟩ := found_iff.mp (h.found_ancestor hnode hid)
      exact ⟨n, List.mem_filter.mpr ⟨hn, by simpa using hid⟩, rfl⟩
  rw [← List.length_map, hperm.length_eq, Node.depth]

theorem Intact.rootId_iff (h : Intact t) (hnode : node ∈ t.rows) {r : Node} (hr : r ∈ t.rows) :
    r.id = node.rootId ↔ r.id ∈ node.pathIds ∧ r.parentId = none := by
  rw [Node.rootId, Node.pathIds, List.mem_append, List.mem_singleton]
  constructor
  · intro heq
    cases hl : node.ancestorIds with
    | nil =>
      rw [hl, List.head?_nil, Option.getD_none] at heq
      have hsame : r = node := Table.eq_of_key hr hnode heq
      exact ⟨Or.inr heq, by rw [hsame, Node.parentId, hl, List.getLast?_nil]⟩
    | cons a l =>
      rw [hl, List.head?_cons, Option.getD_some] at heq
      have hpath := h.sound.path_of_mem (q := []) ((paths_of_mem hnode).trans (congrArg some hl))
      rw [← heq, paths_of_mem hr, Option.some.injEq] at hpath
      exact ⟨Or.inl (heq ▸ List.mem_cons_self), by rw [Node.parentId, hpath, List.getLast?_nil]⟩
  · rintro ⟨hmem, hparent⟩
    have hnil : r.ancestorIds = [] := List.getLast?_eq_none_iff.mp hparent
    rcases hmem with hmem | heq
    · obtain ⟨k, hk⟩ := (h.pathIds_prefix hr hnode).mpr hmem
      rw [← hk, Node.pathIds, hnil]
      rfl
    · have hsame : r = node := Table.eq_of_key hr hnode heq
      rw [← hsame, hnil]
      rfl

end Answers

/-- Each query answers what the parents say: `ancestors` and `path` climb them, `descendants` and `subtree` are what
climbs to the node, `children` and `siblings` are those with the node, or its own parent, as their parent, and
`root` is where climbing ends. -/
theorem queries_follow_parents {t : Table Node} (h : listAncestryIntegrity t = []) (hw : Written t) {node other : Node}
    (hnode : node ∈ t.rows) (hother : other ∈ t.rows) :
    (other ∈ ancestors t node ↔ TransGen (fun a b => parentOf t a = some b) node.id other.id) ∧
      (other ∈ path t node ↔ ReflTransGen (fun a b => parentOf t a = some b) node.id other.id) ∧
      (other ∈ descendants t node ↔ TransGen (fun a b => parentOf t a = some b) other.id node.id) ∧
      (other ∈ subtree t node ↔ ReflTransGen (fun a b => parentOf t a = some b) other.id node.id) ∧
      (other ∈ children t node ↔ parentOf t other.id = some node.id) ∧
      (other ∈ siblings t node ↔ parentOf t other.id = parentOf t node.id) ∧
      (other.id = node.rootId ↔
        ReflTransGen (fun a b => parentOf t a = some b) node.id other.id ∧ parentOf t other.id = none) ∧
      (ancestors t node).length = node.depth := by
  rw [listAncestryIntegrity_iff] at h
  refine ⟨?_, ?_, ?_, ?_, ?_, ?_, ?_, h.length_ancestors hnode⟩
  · rw [ancestors, List.mem_filter, and_iff_right hother, decide_eq_true_eq, h.mem_ancestorIds hnode]
  · rw [path, List.mem_filter, and_iff_right hother, decide_eq_true_eq, h.mem_pathIds hnode]
  · rw [h.mem_descendants hw hnode, and_iff_right hother, h.mem_ancestorIds hother]
  · rw [subtree, List.mem_filter, and_iff_right hother, Bool.or_eq_true, decide_eq_true_eq,
      hw.descendant_iff hnode hother, h.pathIds_prefix hnode hother, ← h.mem_pathIds hother, Node.pathIds,
      List.mem_append, List.mem_singleton, or_comm, eq_comm]
  · rw [h.mem_children hw hnode, and_iff_right hother, parentOf_of_mem hother]
  · rw [siblings, List.mem_filter, and_iff_right hother, decide_eq_true_eq, hw.ancestry_inj hnode hother,
      h.ancestorIds_inj hnode hother, parentOf_of_mem hother, parentOf_of_mem hnode]
  · rw [h.rootId_iff hnode hother, h.mem_pathIds hnode, parentOf_of_mem hother]

/-- From the third generation climbing ends at the first. -/
theorem queries_threeGenerations :
    (1 = (⟨3, some "1/2".toList⟩ : Node).rootId) ∧ (ancestors threeGenerations ⟨3, some "1/2".toList⟩).length = 2 ∧
      TransGen (fun a b => parentOf threeGenerations a = some b) 3 1 :=
  have h := @queries_follow_parents threeGenerations (by decide +kernel) (by decide +kernel) ⟨3, some "1/2".toList⟩
    ⟨1, none⟩ (by decide +kernel) (by decide +kernel)
  have hclimb := h.1.mp (by decide +kernel)
  ⟨h.2.2.2.2.2.2.1.mpr ⟨hclimb.to_reflTransGen, by decide +kernel⟩, h.2.2.2.2.2.2.2.trans (by decide +kernel), hclimb⟩

end Ancestry.Nodes
