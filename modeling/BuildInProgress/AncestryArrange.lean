import BuildInProgress.AncestryRestore
import BuildInProgress.Lib.Preorder

/-!
# Arranging nodes

`arrange_nodes` of `ancestry-2.1.0` nests a list of nodes in hashes, `sort_by_ancestry` lists them with the children
behind their parents.  Both look an ancestor up only in the hash they have come to, so they depend on the order of
the list: ancestors have to come first, as the orders they ask for put them.
-/

namespace Ancestry.Nodes

open Text

/-! ## The nested hash -/

/-- `insertion_point[node] = {}`: a key that is there keeps its place. -/
def put (node : Node) : Forest Node → Forest Node
  | .nil => Forest.leaf node
  | .node a kids rest => if a.id = node.id then .node a .nil rest else .node a kids (put node rest)

/-- The children of the key with the id `id` change. -/
def below (id : Nat) (change : Forest Node → Forest Node) : Forest Node → Forest Node
  | .nil => .nil
  | .node a kids rest => if a.id = id then .node a (change kids) rest else .node a kids (below id change rest)

/-- The insertion point moves below each ancestor that is a key of the hash it has come to. -/
def insertAt (node : Node) : List Nat → Forest Node → Forest Node
  | [], arranged => put node arranged
  | id :: ids, arranged =>
    if id ∈ arranged.roots.map Node.id then below id (insertAt node ids) arranged else insertAt node ids arranged

/-- `arrange_nodes` -/
def arrangeNodes (nodes : List Node) : Forest Node :=
  nodes.foldl (fun arranged node => insertAt node node.ancestorIds arranged) .nil

/-- `sort_by_ancestry` of a nested hash. -/
def sortArranged : Forest Node → List Node
  | .nil => []
  | .node a kids rest => a :: (sortArranged kids ++ sortArranged rest)

theorem sortArranged_eq (f : Forest Node) : sortArranged f = f.labels := by
  induction f with
  | nil => rfl
  | node a k r ihk ihr => rw [sortArranged, ihk, ihr, Forest.labels]

/-! ## One insertion -/

section Insertion

variable {node : Node}

theorem put_of_notMem {f : Forest Node} (h : node.id ∉ f.roots.map Node.id) : put node f = f.append (.leaf node) := by
  induction f with
  | nil => rfl
  | node a k r _ ihr =>
    rw [Forest.roots, List.map_cons, List.mem_cons, not_or] at h
    rw [put, if_neg (Ne.symm h.1), ihr h.2]
    rfl

theorem roots_subset_labels (f : Forest Node) : f.roots ⊆ f.labels := by
  induction f with
  | nil => exact List.Subset.refl _
  | node a k r _ ihr =>
    rw [Forest.roots, Forest.labels]
    exact List.cons_subset_cons a (List.Subset.trans ihr (List.subset_append_right _ _))

/-- Without an ancestor in the hash the node comes in at the top, behind the others. -/
theorem insertAt_top {ids : List Nat} {f : Forest Node} (hids : ∀ id ∈ ids, id ∉ f.labels.map Node.id)
    (hnode : node.id ∉ f.labels.map Node.id) : insertAt node ids f = f.append (.leaf node) := by
  have hroots : ∀ {id : Nat}, id ∉ f.labels.map Node.id → id ∉ f.roots.map Node.id := fun h hr =>
    h (List.map_subset _ (roots_subset_labels f) hr)
  induction ids with
  | nil => exact put_of_notMem (hroots hnode)
  | cons id ids ih =>
    obtain ⟨hid, hids⟩ := List.forall_mem_cons.mp hids
    rw [insertAt, if_neg (hroots hid), ih hids]

/-- Each insertion brings in the node and loses none. -/
theorem labels_insertAt (ids : List Nat) {f : Forest Node} (hnode : node.id ∉ f.labels.map Node.id) :
    (insertAt node ids f).labels.Perm (node :: f.labels) := by
  induction ids generalizing f with
  | nil =>
    have h := put_of_notMem fun hr => hnode (List.map_subset _ (roots_subset_labels f) hr)
    rw [insertAt, h, Forest.labels_append, Forest.labels_leaf]
    exact List.perm_append_singleton node f.labels
  | cons id ids ih =>
    rw [insertAt]
    split
    · rename_i hid
      induction f with
      | nil => cases hid
      | node a k r _ ihr =>
        rw [Forest.labels, List.map_cons, List.map_append, List.mem_cons, List.mem_append, not_or, not_or] at hnode
        rw [below]
        split
        · rw [Forest.labels, Forest.labels]
          exact (((ih hnode.2.1).append_right r.labels).cons a).trans (List.Perm.swap _ _ _)
        · rename_i hne
          rw [Forest.roots, List.map_cons, List.mem_cons] at hid
          have hrest := ihr hnode.2.2 (hid.resolve_left (Ne.symm hne))
          rw [Forest.labels, Forest.labels]
          exact (((hrest.append_left k.labels).trans List.perm_middle).cons a).trans (List.Perm.swap _ _ _)
    · exact ih hnode

/-- The ids of a nested hash. -/
def idsOf (f : Forest Node) : Forest Nat := f.map Node.id

theorem idsOf_node (a : Node) (k r : Forest Node) : idsOf (.node a k r) = .node a.id (idsOf k) (idsOf r) := rfl

theorem idsOf_append (f g : Forest Node) : idsOf (f.append g) = (idsOf f).append (idsOf g) := Forest.map_append _ f g

theorem labels_idsOf (f : Forest Node) : (idsOf f).labels = f.labels.map Node.id := Forest.labels_map _ f

theorem roots_idsOf (f : Forest Node) : (idsOf f).roots = f.roots.map Node.id := Forest.roots_map _ f

/-- What is on the way to a label, and the label itself, are labels. -/
theorem path_subset_labels {α : Type} {f : Forest α} {p : α} {q : List α} (hp : (p, q) ∈ f.paths []) :
    q ++ [p] ⊆ f.labels := by
  intro x hx
  rcases List.mem_append.mp hx with hx | hx
  · obtain ⟨q', hq', hsub⟩ := Forest.mem_paths_prefix hp
    have hq' : q = q' := hq'
    exact hsub (hq' ▸ hx)
  · rw [List.mem_singleton.mp hx]
    exact Forest.fst_mem_labels hp

/-- The ids that make up a path are also those that are labels of the forest with the path. -/
theorem filter_labels {α : Type} [DecidableEq α] {f : Forest α} {ids L : List α} {p : α} {q : List α}
    (hL : f.labels ⊆ L) (hp : (p, q) ∈ f.paths []) (hq : ids.filter (· ∈ L) = q ++ [p]) :
    ids.filter (· ∈ f.labels) = q ++ [p] := by
  have hall : (q ++ [p]).filter (· ∈ f.labels) = q ++ [p] := by
    rw [List.filter_eq_self]
    intro x hx
    exact decide_eq_true (path_subset_labels hp hx)
  rw [← hall, ← hq, List.filter_filter]
  apply List.filter_congr
  intro x _
  by_cases hx : x ∈ f.labels
  · simp [hx, hL hx]
  · simp [hx]

/-- The insertion point moves below the first ancestor that is in the hash; `hkids` is what is known about the
ancestors behind it. -/
theorem below_graft {ids L : List Nat} {id : Nat} {f : Forest Node} {p : Nat} {q : List Nat}
    (hkids : ∀ {k : Forest Node} {q : List Nat}, (idsOf k).labels.Nodup → node.id ∉ (idsOf k).labels →
      (p, q) ∈ (idsOf k).paths [] → ids.filter (· ∈ (idsOf k).labels) = q ++ [p] →
        idsOf (insertAt node ids k) = (idsOf k).graft p (.leaf node.id))
    (hL : (idsOf f).labels ⊆ L) (hn : (idsOf f).labels.Nodup) (hnode : node.id ∉ (idsOf f).labels)
    (hp : (p, q) ∈ (idsOf f).paths []) (hq : id :: ids.filter (· ∈ L) = q ++ [p]) :
    idsOf (below id (insertAt node ids) f) = (idsOf f).graft p (.leaf node.id) := by
  induction f with
  | nil => cases hp
  | node a k r _ ihr =>
    rw [idsOf_node] at hn hnode hp hL ⊢
    simp only [Forest.labels, List.nodup_cons, List.mem_append, not_or, List.nodup_append, List.mem_cons] at hn hnode
    obtain ⟨⟨hak, har⟩, hk, hr, hkr⟩ := hn
    obtain ⟨-, hnk, hnr⟩ := hnode
    have hsubk : (idsOf k).labels ⊆ L := fun x hx => hL (by simp [Forest.labels, hx])
    have hsubr : (idsOf r).labels ⊆ L := fun x hx => hL (by simp [Forest.labels, hx])
    rw [Forest.paths, List.nil_append, List.mem_cons, List.mem_append] at hp
    rw [below, Forest.graft]
    by_cases ha : a.id = id
    · rw [if_pos ha, idsOf_node]
      cases q with
      | nil =>
        -- the last ancestor that is in the hash
        rw [List.nil_append, List.cons.injEq] at hq
        have hap : a.id = p := ha.trans hq.1
        have htop : insertAt node ids k = k.append (.leaf node) := by
          apply insertAt_top
          · intro i hi hmem
            have hne := List.filter_eq_nil_iff.mp hq.2 i hi
            rw [← labels_idsOf] at hmem
            exact hne (by simpa using hsubk hmem)
          · rw [← labels_idsOf]
            exact hnk
        rw [htop, idsOf_append, if_pos hap, Forest.graft_of_notMem (hap ▸ hak), Forest.graft_of_notMem (hap ▸ har)]
        rfl
      | cons b q =>
        rw [List.cons_append, List.cons.injEq] at hq
        obtain ⟨rfl, hq⟩ := hq
        have hpk : (p, q) ∈ (idsOf k).paths [] := by
          rcases hp with hp | hp | hp
          · simp at hp
          · rw [← List.append_nil [a.id], Forest.paths_prefix, List.mem_map] at hp
            obtain ⟨e, he, heq⟩ := hp
            rw [Prod.mk.injEq, List.singleton_append, List.cons.injEq] at heq
            rw [← heq.1, ← heq.2.2]
            exact he
          · have hin := path_subset_labels hp (List.mem_append_left [p] List.mem_cons_self)
            exact absurd hin (ha ▸ har)
        have hpl := Forest.fst_mem_labels hpk
        have hfilter := filter_labels hsubk hpk hq
        have hap : a.id ≠ p := fun h => hak (h ▸ hpl)
        have hpr : p ∉ (idsOf r).labels := fun h => hkr p hpl p h rfl
        rw [if_neg hap, Forest.graft_of_notMem hpr, hkids hk hnk hpk hfilter]
    · rw [if_neg ha, idsOf_node]
      -- the path starts with the id, so it is in the rest
      have hpr : (p, q) ∈ (idsOf r).paths [] := by
        rcases hp with hp | hp | hp
        · rw [Prod.mk.injEq] at hp
          rw [hp.1, hp.2, List.nil_append, List.cons.injEq] at hq
          exact absurd hq.1.symm ha
        · obtain ⟨q', hq', -⟩ := Forest.mem_paths_prefix hp
          have hq' : q = [a.id] ++ q' := hq'
          rw [hq', List.append_assoc, List.singleton_append, List.cons.injEq] at hq
          exact absurd hq.1.symm ha
        · exact hp
      have hpl := Forest.fst_mem_labels hpr
      have hap : a.id ≠ p := fun h => har (h ▸ hpl)
      have hpk : p ∉ (idsOf k).labels := fun h => hkr p h p hpl rfl
      rw [if_neg hap, Forest.graft_of_notMem hpk, ihr hsubr hr hnr hpr]

/-- When the ancestors in the hash are the path of the last of them, and this one, the node comes in below it. -/
theorem insertAt_graft {ids : List Nat} {f : Forest Node} {p : Nat} {q : List Nat} (hn : (idsOf f).labels.Nodup)
    (hnode : node.id ∉ (idsOf f).labels) (hp : (p, q) ∈ (idsOf f).paths [])
    (hq : ids.filter (· ∈ (idsOf f).labels) = q ++ [p]) :
    idsOf (insertAt node ids f) = (idsOf f).graft p (.leaf node.id) := by
  induction ids generalizing f q with
  | nil => simp at hq
  | cons id ids ih =>
    rw [insertAt]
    by_cases hid : id ∈ (idsOf f).labels
    · rw [List.filter_cons_of_pos (by simpa using hid)] at hq
      have hroot : id ∈ f.roots.map Node.id := by
        rw [← roots_idsOf]
        exact Forest.head_mem_roots hp (by rw [← hq, List.head?_cons])
      rw [if_pos hroot]
      exact below_graft ih (List.Subset.refl _) hn hnode hp hq
    · rw [List.filter_cons_of_neg (by simpa using hid)] at hq
      have hroot : id ∉ f.roots.map Node.id := fun h =>
        hid (labels_idsOf f ▸ List.map_subset _ (roots_subset_labels f) h)
      rw [if_neg hroot]
      exact ih hn hnode hp hq

end Insertion

/-! ## The whole list -/

/-- The ancestors of a node that are in the list. -/
def selected (nodes : List Node) (node : Node) : List Nat := node.ancestorIds.filter (· ∈ nodes.map Node.id)

/-- The list has each ancestor before its descendants. -/
def AncestorsFirst (nodes : List Node) : Prop := nodes.Pairwise fun node later => later.id ∉ node.ancestorIds

/-- Each node of the list is nested once, below exactly its ancestors in the list, and the keys of one hash have
the order of the list. -/
structure Arranged (nodes : List Node) (arranged : Forest Node) : Prop where
  once : arranged.labels.Perm nodes
  below : ∀ e ∈ arranged.paths [], e.2.map Node.id = selected nodes e.1
  order : ∀ path : List Nat,
    ((arranged.paths []).filter (·.2.map Node.id = path)).map Prod.fst = nodes.filter (selected nodes · = path)

theorem arrangeNodes_concat (nodes : List Node) (node : Node) :
    arrangeNodes (nodes ++ [node]) = insertAt node node.ancestorIds (arrangeNodes nodes) := by
  rw [arrangeNodes, List.foldl_append]
  rfl

theorem labels_arrangeNodes {nodes : List Node} (hn : (nodes.map Node.id).Nodup) :
    (arrangeNodes nodes).labels.Perm nodes := by
  induction nodes using List.reverseRecOn with
  | nil => exact List.Perm.refl _
  | append_singleton nodes node ih =>
    rw [List.map_append, List.nodup_append] at hn
    have hperm := ih hn.1
    have hnode : node.id ∉ (arrangeNodes nodes).labels.map Node.id := by
      rw [(hperm.map Node.id).mem_iff]
      exact fun h => hn.2.2 _ h _ (by simp) rfl
    rw [arrangeNodes_concat]
    exact ((labels_insertAt _ hnode).trans (hperm.cons node)).trans (List.perm_append_singleton node nodes).symm

section Arrange

variable {t : Table Node} {nodes : List Node}

theorem nodup_ids (hsub : ∀ node ∈ nodes, node ∈ t.rows) (hn : nodes.Nodup) : (nodes.map Node.id).Nodup :=
  List.Nodup.map_on (fun _ ha _ hb h => Table.eq_of_key (hsub _ ha) (hsub _ hb) h) hn

/-- The last selected ancestor has the selected ancestors before it. -/
theorem Intact.selected_last (h : Intact t) (hsub : ∀ node ∈ nodes, node ∈ t.rows) {node : Node} (hnode : node ∈ nodes)
    {q : List Nat} {p : Nat} (hq : selected nodes node = q ++ [p]) :
    ∃ parent ∈ nodes, parent.id = p ∧ selected nodes parent = q := by
  have hmem : p ∈ selected nodes node := by
    rw [hq]
    simp
  obtain ⟨hanc, hp⟩ := List.mem_filter.mp hmem
  obtain ⟨parent, hparent, rfl⟩ := List.mem_map.mp (of_decide_eq_true hp)
  refine ⟨parent, hparent, rfl, ?_⟩
  have hsound := h.sound.restrict fun id => decide (id ∈ nodes.map Node.id)
  have hpath : ∀ n ∈ nodes, Lineage.restrict (fun id => decide (id ∈ nodes.map Node.id)) (paths t) n.id =
      some (selected nodes n) := by
    intro n hn
    have hid : n.id ∈ nodes.map Node.id := List.mem_map_of_mem hn
    rw [Lineage.restrict, if_pos (by simpa using hid), paths_of_mem (hsub n hn)]
    rfl
  have hlast := hsound.path_of_mem (r := []) ((hpath node hnode).trans (congrArg some hq))
  rw [hpath parent hparent, Option.some.injEq] at hlast
  exact hlast

/-- The ancestors of a node in the list are all before it. -/
theorem Intact.filter_before (h : Intact t) (hsub : ∀ node ∈ nodes, node ∈ t.rows) (hfirst : AncestorsFirst nodes)
    {done rest : List Node} {node : Node} (hsplit : nodes = done ++ node :: rest) :
    node.ancestorIds.filter (· ∈ done.map Node.id) = selected nodes node := by
  have hnode : node ∈ nodes := by
    rw [hsplit]
    simp
  apply List.filter_congr
  intro id hid
  rw [decide_eq_decide]
  constructor
  · intro hmem
    rw [hsplit, List.map_append]
    exact List.mem_append_left _ hmem
  · intro hmem
    rw [hsplit, List.map_append, List.map_cons, List.mem_append, List.mem_cons] at hmem
    rcases hmem with hmem | rfl | hmem
    · exact hmem
    · exact absurd hid (h.sound.notMem (paths_of_mem (hsub node hnode)))
    · obtain ⟨later, hlater, rfl⟩ := List.mem_map.mp hmem
      rw [hsplit, AncestorsFirst, List.pairwise_append, List.pairwise_cons] at hfirst
      exact absurd hid (hfirst.2.1.1 later hlater)

/-- The nested hash is built from the nodes one by one, each below its last ancestor in the list. -/
theorem idsOf_arrangeNodes (h : Intact t) (hsub : ∀ node ∈ nodes, node ∈ t.rows) (hn : nodes.Nodup)
    (hfirst : AncestorsFirst nodes) {done rest : List Node} (hsplit : nodes = done ++ rest) :
    idsOf (arrangeNodes done) = (done.map fun n => (n.id, selected nodes n)).foldl Forest.place .nil ∧
      ∀ e ∈ (idsOf (arrangeNodes done)).paths [], ∃ n ∈ done, e = (n.id, selected nodes n) := by
  induction done using List.reverseRecOn generalizing rest with
  | nil => exact ⟨rfl, fun e he => absurd he List.not_mem_nil⟩
  | append_singleton done node ih =>
    rw [List.append_assoc, List.singleton_append] at hsplit
    obtain ⟨hplace, hpaths⟩ := ih hsplit
    have hids := nodup_ids hsub hn
    have hnode : node ∈ nodes := by
      rw [hsplit]
      simp
    -- the ids in the hash are those before the node
    rw [hsplit, List.map_append, List.nodup_append] at hids
    have hlabels : (idsOf (arrangeNodes done)).labels.Perm (done.map Node.id) := by
      rw [labels_idsOf]
      exact (labels_arrangeNodes hids.1).map Node.id
    have hnew : node.id ∉ (idsOf (arrangeNodes done)).labels := by
      rw [hlabels.mem_iff]
      exact fun hmem => hids.2.2 _ hmem _ (by simp) rfl
    have hnodup : (idsOf (arrangeNodes done)).labels.Nodup := hlabels.nodup_iff.mpr hids.1
    have hbefore : node.ancestorIds.filter (· ∈ (idsOf (arrangeNodes done)).labels) = selected nodes node := by
      rw [← h.filter_before hsub hfirst hsplit]
      apply List.filter_congr
      intro id _
      rw [decide_eq_decide, hlabels.mem_iff]
    rw [arrangeNodes_concat, List.map_append, List.map_singleton, List.foldl_append, List.foldl_cons, List.foldl_nil,
      ← hplace]
    rcases List.eq_nil_or_concat (selected nodes node) with hnil | ⟨q, p, hq⟩
    · have htop : insertAt node node.ancestorIds (arrangeNodes done) = (arrangeNodes done).append (.leaf node) := by
        apply insertAt_top
        · intro id hid hmem
          rw [hnil, List.filter_eq_nil_iff] at hbefore
          exact hbefore id hid (by simpa [labels_idsOf] using hmem)
        · rw [← labels_idsOf]
          exact hnew
      rw [htop, idsOf_append, hnil]
      refine ⟨rfl, ?_⟩
      intro e he
      rw [Forest.paths_append, List.mem_append] at he
      rcases he with he | he
      · obtain ⟨n, hmem, heq⟩ := hpaths e he
        exact ⟨n, List.mem_append_left _ hmem, heq⟩
      · refine ⟨node, by simp, ?_⟩
        rw [hnil]
        exact List.mem_singleton.mp he
    · rw [List.concat_eq_append] at hq
      obtain ⟨parent, hin, rfl, hparent⟩ := h.selected_last hsub hnode hq
      -- the parent is in the hash, with its own path
      have hmem : parent.id ∈ (idsOf (arrangeNodes done)).labels := by
        have hanc : parent.id ∈ node.ancestorIds.filter (· ∈ (idsOf (arrangeNodes done)).labels) := by
          rw [hbefore, hq]
          simp
        simpa using (List.mem_filter.mp hanc).2
      have hpath : (parent.id, q) ∈ (idsOf (arrangeNodes done)).paths [] := by
        rw [← Forest.map_fst_paths [], List.mem_map] at hmem
        obtain ⟨⟨i, x⟩, he, hi⟩ := hmem
        obtain ⟨n, hn', heq⟩ := hpaths _ he
        rw [Prod.mk.injEq] at heq
        have hi : i = parent.id := hi
        have hrow : n ∈ nodes := by
          rw [hsplit]
          exact List.mem_append_left _ hn'
        have hsame : n = parent := Table.eq_of_key (hsub n hrow) (hsub parent hin) (heq.1.symm.trans hi)
        rw [hi, heq.2, hsame, hparent] at he
        exact he
      rw [insertAt_graft hnodup hnew hpath (hbefore.trans hq), hq, Forest.place_below]
      refine ⟨rfl, ?_⟩
      intro e he
      rcases (Forest.mem_paths_graft_leaf hnodup).mp he with he | ⟨q', hq', heq⟩
      · obtain ⟨n, hmem', heq⟩ := hpaths e he
        exact ⟨n, List.mem_append_left _ hmem', heq⟩
      · refine ⟨node, by simp, ?_⟩
        have hsame : q' = q := by
          have heq' := Forest.paths_unique hnodup hq' hpath rfl
          rw [Prod.mk.injEq] at heq'
          exact heq'.2
        rw [heq, hsame, hq]

/-- Of entries that are told apart by their ids, those with one path are among those with its last id. -/
theorem filter_last {es : List (Nat × List Nat)} {path : List Nat} {p : Nat} (hp : path.getLast? = some p)
    {P : Nat → Bool} (hP : ∀ e ∈ es, P e.1 = decide (e.2 = path)) :
    (es.filter (·.2 = path)).map Prod.fst = ((es.filter (·.2.getLast? = some p)).map Prod.fst).filter P := by
  rw [List.filter_map, List.filter_filter]
  congr 1
  apply List.filter_congr
  intro e he
  rw [Function.comp, hP e he, Bool.eq_iff_iff, Bool.and_eq_true, decide_eq_true_eq, decide_eq_true_eq]
  constructor
  · intro h
    exact ⟨h, h ▸ hp⟩
  · exact fun h => h.1

theorem idsOf_paths (f : Forest Node) : (idsOf f).paths [] = (f.paths []).map fun e => (e.1.id, e.2.map Node.id) :=
  Forest.paths_map Node.id [] f

theorem Intact.parentsFirst_selected (h : Intact t) (hsub : ∀ node ∈ nodes, node ∈ t.rows)
    (hfirst : AncestorsFirst nodes) : Forest.ParentsFirst (nodes.map fun n => (n.id, selected nodes n)) := by
  intro l e r heq p hp
  obtain ⟨done, rest, hsplit, rfl, hrest⟩ := List.map_eq_append_iff.mp heq
  obtain ⟨n, rest, rfl, rfl, rfl⟩ := List.map_eq_cons_iff.mp hrest
  have hmem : p ∈ selected nodes n := List.mem_of_getLast? hp
  rw [← h.filter_before hsub hfirst hsplit, List.mem_filter, decide_eq_true_iff] at hmem
  rw [List.map_map]
  exact hmem.2

/-- An id tells whether its node has the path. -/
theorem any_selected (hsub : ∀ node ∈ nodes, node ∈ t.rows) {n : Node} (hnode : n ∈ nodes) {path : List Nat} :
    (nodes.any fun m => m.id = n.id ∧ selected nodes m = path) = decide (selected nodes n = path) := by
  rw [Bool.eq_iff_iff, List.any_eq_true, decide_eq_true_eq]
  constructor
  · rintro ⟨m, hm, heq⟩
    rw [decide_eq_true_eq] at heq
    rw [← Table.eq_of_key (hsub m hm) (hsub n hnode) heq.1]
    exact heq.2
  · exact fun heq => ⟨n, hnode, by simp [heq]⟩

theorem arranged (h : Intact t) (hsub : ∀ node ∈ nodes, node ∈ t.rows) (hn : nodes.Nodup)
    (hfirst : AncestorsFirst nodes) : Arranged nodes (arrangeNodes nodes) := by
  have hids := nodup_ids hsub hn
  have hperm := labels_arrangeNodes hids
  obtain ⟨hplace, hpaths⟩ := idsOf_arrangeNodes h hsub hn hfirst (List.append_nil nodes).symm
  have hbelow : ∀ e ∈ (arrangeNodes nodes).paths [], e.2.map Node.id = selected nodes e.1 := by
    intro e he
    obtain ⟨n, hnode, heq⟩ := hpaths (e.1.id, e.2.map Node.id) (by
      rw [idsOf_paths]
      exact List.mem_map_of_mem he)
    rw [Prod.mk.injEq] at heq
    have he1 : e.1 ∈ nodes := hperm.mem_iff.mp (Forest.fst_mem_labels he)
    rw [heq.2, Table.eq_of_key (hsub n hnode) (hsub e.1 he1) heq.1.symm]
  refine ⟨hperm, hbelow, ?_⟩
  intro path
  -- the same of the ids
  have hnodup : (idsOf (arrangeNodes nodes)).labels.Nodup := by
    rw [labels_idsOf]
    exact (hperm.map Node.id).nodup_iff.mpr hids
  have hes : ((nodes.map fun n => (n.id, selected nodes n)).map Prod.fst).Nodup := by
    rw [List.map_map]
    exact hids
  obtain ⟨-, hroots, hkids⟩ := Forest.foldl_place_spec hes (h.parentsFirst_selected hsub hfirst)
  rw [← hplace] at hroots hkids
  have hsame : (((idsOf (arrangeNodes nodes)).paths []).filter (·.2 = path)).map Prod.fst =
      ((nodes.map fun n => (n.id, selected nodes n)).filter (·.2 = path)).map Prod.fst := by
    rcases List.eq_nil_or_concat path with rfl | ⟨q, p, rfl⟩
    · rw [Forest.filter_paths_top, hroots]
    · rw [List.concat_eq_append]
      have hlast : (q ++ [p]).getLast? = some p := List.getLast?_concat
      rw [filter_last (P := fun i => nodes.any fun m => m.id = i ∧ selected nodes m = q ++ [p]) hlast,
        filter_last (P := fun i => nodes.any fun m => m.id = i ∧ selected nodes m = q ++ [p]) hlast,
        Forest.filter_paths_last hnodup List.not_mem_nil, hkids]
      · intro e he
        obtain ⟨n, hnode, rfl⟩ := List.mem_map.mp he
        exact any_selected hsub hnode
      · intro e he
        obtain ⟨n, hnode, rfl⟩ := hpaths e he
        exact any_selected hsub hnode
  refine Table.eq_of_map_key (t := t) ?_ ?_ ?_
  · intro n hnode
    obtain ⟨e, he, rfl⟩ := List.mem_map.mp hnode
    exact hsub e.1 (hperm.mem_iff.mp (Forest.fst_mem_labels (List.mem_filter.mp he).1))
  · exact fun n hnode => hsub n (List.mem_filter.mp hnode).1
  · rw [idsOf_paths, List.filter_map, List.map_map, List.filter_map, List.map_map] at hsame
    rw [List.map_map]
    exact hsame

end Arrange

/-! ## Orders with ancestors first -/

/-- The ancestry of an ancestor ends where the ancestor itself follows. -/
theorem Intact.ancestor_split {t : Table Node} (h : Intact t) {node ancestor : Node} (hnode : node ∈ t.rows)
    (hanc : ancestor ∈ t.rows) (hmem : ancestor.id ∈ node.ancestorIds) :
    ∃ k, node.ancestorIds = ancestor.ancestorIds ++ ancestor.id :: k := by
  obtain ⟨l, k, hl, hsplit⟩ := h.sound.exists_path (paths_of_mem hnode) hmem
  rw [paths_of_mem hanc, Option.some.injEq] at hl
  exact ⟨k, hl ▸ hsplit⟩

/-- `ordered_by_ancestry` with the collation `le`: rows without ancestry come first. -/
def orderedByAncestry (le : Text → Text → Bool) (a b : Node) : Bool :=
  match a.ancestry, b.ancestry with
  | none, _ => true
  | some _, none => false
  | some s, some u => le s u

/-- What the query of `arrange` may answer; rows with one ancestry come in any order, or in that of the `:order`. -/
structure Answers (le : Text → Text → Bool) (conditions : Node → Bool) (t : Table Node) (nodes : List Node) : Prop where
  rows : nodes.Perm (t.rows.filter conditions)
  ordered : nodes.Pairwise fun a b => orderedByAncestry le a b = true

/-- When a text comes before what it is the beginning of, the query puts ancestors first. -/
theorem Answers.ancestorsFirst {le : Text → Text → Bool} {conditions : Node → Bool} {t : Table Node} {nodes : List Node}
    (hle : ∀ l k, l ≠ [] → k ≠ [] → le (render (l ++ k)) (render l) = false) (h : Intact t) (hw : Written t)
    (ha : Answers le conditions t nodes) : AncestorsFirst nodes := by
  have hrow : ∀ n ∈ nodes, n ∈ t.rows := fun n hn => (List.mem_filter.mp (ha.rows.mem_iff.mp hn)).1
  refine List.Pairwise.imp_of_mem ?_ ha.ordered
  intro node later hnode hlater hord hmem
  obtain ⟨k, hk⟩ := h.ancestor_split (hrow node hnode) (hrow later hlater) hmem
  rw [orderedByAncestry, hw node (hrow node hnode), hw later (hrow later hlater), hk, written, written,
    if_neg (by simp)] at hord
  by_cases hnil : later.ancestorIds = []
  · rw [if_pos hnil] at hord
    cases hord
  · have hfalse := hle later.ancestorIds (later.id :: k) hnil (by simp)
    rw [if_neg hnil] at hord
    exact absurd hord (by simp [hfalse])

/-- `arrange` nests the rows of any conditions whatever their order within an ancestry: each row once, below exactly
its ancestors among them. -/
theorem arrange_nests {le : Text → Text → Bool} (hle : ∀ l k, l ≠ [] → k ≠ [] → le (render (l ++ k)) (render l) = false)
    {t : Table Node} (h : listAncestryIntegrity t = []) (hw : Written t) {conditions : Node → Bool} {nodes : List Node}
    (ha : Answers le conditions t nodes) : Arranged nodes (arrangeNodes nodes) := by
  rw [listAncestryIntegrity_iff] at h
  have hrow : ∀ n ∈ nodes, n ∈ t.rows := fun n hn => (List.mem_filter.mp (ha.rows.mem_iff.mp hn)).1
  have hrows : t.rows.Nodup := List.Nodup.of_map _ t.nodup
  exact arranged h hrow (ha.rows.nodup_iff.mpr (hrows.filter _)) (ha.ancestorsFirst hle h hw)

theorem lt_append {s u : Text} (hu : u ≠ []) : s < s ++ u := by
  obtain ⟨c, cs, rfl⟩ := List.exists_cons_of_ne_nil hu
  have h : s ++ [] < s ++ c :: cs := List.append_left_lt (List.nil_lt_cons c cs)
  rw [List.append_nil] at h
  exact h

theorem lt_render_append {l k : List Nat} (hl : l ≠ []) (hk : k ≠ []) : render l < render (l ++ k) := by
  rw [render_append hl hk]
  exact lt_append (List.cons_ne_nil _ _)

/-- The table nested without its second generation, in the order of the characters. -/
theorem arrange_threeGenerations :
    Arranged [⟨1, none⟩, ⟨3, some "1/2".toList⟩] (arrangeNodes [⟨1, none⟩, ⟨3, some "1/2".toList⟩]) :=
  have hle (l k : List Nat) (hl : l ≠ []) (hk : k ≠ []) : decide (¬ render l < render (l ++ k)) = false :=
    decide_eq_false fun hnot => hnot (lt_render_append hl hk)
  @arrange_nests (fun s u => decide ¬ u < s) hle threeGenerations (by decide +kernel) (by decide +kernel) (·.id ≠ 2) _
    ⟨by decide +kernel, by decide +kernel⟩

/-! ## Sorting -/

/-- `a.ancestry || '0'` -/
def sortKey (node : Node) : Text := node.ancestry.getD ['0']

/-- What `nodes.sort` may answer with the block; Ruby's sort keeps no order of its own. -/
structure Presorted (block : Node → Node → Prop) (nodes sorted : List Node) : Prop where
  perm : sorted.Perm nodes
  ordered : sorted.Pairwise fun a b => sortKey a < sortKey b ∨ sortKey a = sortKey b ∧ block a b

/-- `sort_by_ancestry`, from the presorted nodes on. -/
def sortByAncestry (presorted : List Node) : List Node := sortArranged (arrangeNodes presorted)

/-- Nothing but `0` and the empty text comes before or with the key of a root. -/
theorem zero_lt_render {l : List Nat} (hl : l ≠ []) (h0 : l ≠ [0]) : ['0'] < render l := by
  obtain ⟨n, l, rfl⟩ := List.exists_cons_of_ne_nil hl
  have hdigits : ∃ c cs, render (n :: l) = c :: cs ∧ c.isDigit = true := by
    obtain ⟨c, cs, hn⟩ := List.exists_cons_of_ne_nil (toS_ne_nil n)
    have hc : c.isDigit = true := isDigit_of_mem_toS (n := n) (by rw [hn]; exact List.mem_cons_self)
    by_cases hnil : l = []
    · exact ⟨c, cs, by rw [hnil, render_singleton, hn], hc⟩
    · exact ⟨c, cs ++ '/' :: render l, by rw [render_cons hnil, hn, List.cons_append], hc⟩
  obtain ⟨c, cs, hrender, hc⟩ := hdigits
  rw [hrender, List.cons_lt_cons_iff]
  by_cases hzero : c = '0'
  · refine Or.inr ⟨hzero.symm, ?_⟩
    cases cs with
    | nil =>
      rw [hzero, ← render_zero, render_inj] at hrender
      exact absurd hrender h0
    | cons d cs => exact List.nil_lt_cons d cs
  · left
    simp only [Char.isDigit, Bool.and_eq_true, decide_eq_true_eq] at hc
    have hle : ('0').val.toNat ≤ c.val.toNat := UInt32.le_iff_toNat_le.mp hc.1
    have hne : ('0').val.toNat ≠ c.val.toNat := fun h => hzero (Char.ext (UInt32.toNat.inj h.symm))
    exact UInt32.lt_iff_toNat_lt.mpr (Nat.lt_of_le_of_ne hle hne)

theorem Written.sortKey_eq {t : Table Node} (hw : Written t) {node : Node} (hnode : node ∈ t.rows) :
    sortKey node = if node.ancestorIds = [] then ['0'] else render node.ancestorIds := by
  rw [sortKey, hw node hnode, written]
  split <;> rfl

theorem Intact.sortKey_lt {t : Table Node} (h : Intact t) (hw : Written t) {node ancestor : Node}
    (hnode : node ∈ t.rows) (hanc : ancestor ∈ t.rows) (hmem : ancestor.id ∈ node.ancestorIds) : sortKey ancestor < sortKey node := by
  obtain ⟨k, hk⟩ := h.ancestor_split hnode hanc hmem
  rw [hw.sortKey_eq hnode, hw.sortKey_eq hanc, hk, if_neg (by simp : ancestor.ancestorIds ++ ancestor.id :: k ≠ [])]
  by_cases hnil : ancestor.ancestorIds = []
  · rw [if_pos hnil, hnil, List.nil_append]
    have hpos : 0 < ancestor.id := (t.bound ancestor hanc).1
    refine zero_lt_render (by simp) fun h0 => ?_
    rw [List.cons.injEq] at h0
    omega
  · rw [if_neg hnil]
    exact lt_render_append hnil (by simp)

theorem Presorted.ancestorsFirst {block : Node → Node → Prop} {t : Table Node} {nodes sorted : List Node} (h : Intact t)
    (hw : Written t) (hsub : ∀ node ∈ nodes, node ∈ t.rows) (hs : Presorted block nodes sorted) :
    AncestorsFirst sorted := by
  refine List.Pairwise.imp_of_mem ?_ hs.ordered
  intro node later hnode hlater hord hmem
  have hlt := h.sortKey_lt hw (hsub node (hs.perm.mem_iff.mp hnode)) (hsub later (hs.perm.mem_iff.mp hlater)) hmem
  rcases hord with hord | ⟨heq, -⟩
  · exact List.lt_asymm hlt hord
  · rw [heq] at hlt
    exact List.lt_irrefl _ hlt

/-- A node is on a path when its id is an ancestor. -/
theorem Arranged.mem_path_iff {t : Table Node} {nodes : List Node} {arranged : Forest Node}
    (h : Arranged nodes arranged) (hsub : ∀ node ∈ nodes, node ∈ t.rows) {n : Node} (hnode : n ∈ nodes)
    {e : Node × List Node} (he : e ∈ arranged.paths []) : n ∈ e.2 ↔ n.id ∈ e.1.ancestorIds := by
  have hbelow := h.below e he
  constructor
  · intro hin
    have hid : n.id ∈ selected nodes e.1 := hbelow ▸ List.mem_map_of_mem hin
    exact (List.mem_filter.mp hid).1
  · intro hin
    have hid : n.id ∈ e.2.map Node.id := by
      rw [hbelow]
      exact List.mem_filter.mpr ⟨hin, by simpa using ⟨n, hnode, rfl⟩⟩
    obtain ⟨m, hm, hmid⟩ := List.mem_map.mp hid
    have hlabel : m ∈ arranged.labels := path_subset_labels he (List.mem_append_left _ hm)
    rw [← Table.eq_of_key (hsub m (h.once.mem_iff.mp hlabel)) (hsub n hnode) hmid]
    exact hm

/-- Nodes with one ancestry are nested at one place, in the order of the list. -/
theorem Arranged.filter_ancestry {nodes : List Node} {arranged : Forest Node} (h : Arranged nodes arranged)
    (column : Option Text) : arranged.labels.filter (·.ancestry = column) = nodes.filter (·.ancestry = column) := by
  have hselected : ∀ n : Node, n.ancestry = column →
      selected nodes n = (ancestorIds column).filter (· ∈ nodes.map Node.id) := by
    intro n hcol
    rw [selected, Node.ancestorIds, hcol]
  have horder := h.order ((ancestorIds column).filter (· ∈ nodes.map Node.id))
  have hboth := congrArg (List.filter fun n => decide (n.ancestry = column)) horder
  rw [List.filter_filter, List.filter_map, List.filter_filter] at hboth
  rw [← Forest.map_fst_paths [], List.filter_map]
  have hleft : (arranged.paths []).filter ((fun n => decide (n.ancestry = column)) ∘ Prod.fst) =
      (arranged.paths []).filter fun e => ((fun n => decide (n.ancestry = column)) ∘ Prod.fst) e &&
        decide (e.2.map Node.id = (ancestorIds column).filter (· ∈ nodes.map Node.id)) := by
    apply List.filter_congr
    intro e he
    by_cases hcol : e.1.ancestry = column
    · rw [h.below e he, hselected e.1 hcol]
      simp
    · simp [hcol]
  have hright : nodes.filter (fun n => decide (n.ancestry = column)) =
      nodes.filter fun n => decide (n.ancestry = column) &&
        decide (selected nodes n = (ancestorIds column).filter (· ∈ nodes.map Node.id)) := by
    apply List.filter_congr
    intro n _
    by_cases hcol : n.ancestry = column
    · rw [hselected n hcol]
      simp
    · simp [hcol]
  rw [hleft, hright]
  exact hboth

/-- `sort_by_ancestry` loses no node and puts behind each exactly its descendants, without a gap; nodes with one
ancestry keep the order of the block. -/
theorem sort_by_ancestry {t : Table Node} (h : listAncestryIntegrity t = []) (hw : Written t) {nodes : List Node}
    (hsub : ∀ node ∈ nodes, node ∈ t.rows) (hn : nodes.Nodup) {block : Node → Node → Prop} {presorted : List Node}
    (hs : Presorted block nodes presorted) :
    (sortByAncestry presorted).Perm nodes ∧
      (∀ node ∈ nodes, ∃ A D C, sortByAncestry presorted = A ++ node :: (D ++ C) ∧
        (∀ d ∈ D, node.id ∈ d.ancestorIds) ∧ ∀ c ∈ A ++ C, node.id ∉ c.ancestorIds) ∧
      ∀ column, (sortByAncestry presorted).filter (·.ancestry = column) =
        presorted.filter (·.ancestry = column) := by
  rw [listAncestryIntegrity_iff] at h
  have hsub' : ∀ node ∈ presorted, node ∈ t.rows := fun node hnode => hsub node (hs.perm.mem_iff.mp hnode)
  have harr := arranged h hsub' (hs.perm.nodup_iff.mpr hn) (hs.ancestorsFirst h hw hsub)
  have hlabels : sortByAncestry presorted = (arrangeNodes presorted).labels := sortArranged_eq _
  have hnodup : (arrangeNodes presorted).labels.Nodup := (harr.once.trans hs.perm).nodup_iff.mpr hn
  rw [hlabels]
  refine ⟨harr.once.trans hs.perm, ?_, ?_⟩
  · intro node hnode
    rw [← Forest.map_fst_paths []]
    have hmem : node ∈ ((arrangeNodes presorted).paths []).map Prod.fst := by
      rw [Forest.map_fst_paths]
      exact (harr.once.trans hs.perm).mem_iff.mpr hnode
    obtain ⟨⟨n, q⟩, he, rfl⟩ := List.mem_map.mp hmem
    obtain ⟨A, D, C, hpaths, hD, hAC⟩ := Forest.exists_block hnodup List.not_mem_nil he
    have hon : ∀ e ∈ (arrangeNodes presorted).paths [], n ∈ e.2 ↔ n.id ∈ e.1.ancestorIds :=
      fun e => harr.mem_path_iff hsub' (hs.perm.mem_iff.mpr hnode)
    refine ⟨A.map Prod.fst, D.map Prod.fst, C.map Prod.fst, by rw [hpaths]; simp, ?_, ?_⟩
    · intro d hd
      obtain ⟨e, he', rfl⟩ := List.mem_map.mp hd
      exact (hon e (by rw [hpaths]; simp [he'])).mp (hD e he')
    · intro c hc
      rw [← List.map_append, List.mem_map] at hc
      obtain ⟨e, he', rfl⟩ := hc
      refine fun hin => hAC e he' ((hon e ?_).mpr hin)
      rw [hpaths]
      rcases List.mem_append.mp he' with he' | he' <;> simp [he']
  · exact harr.filter_ancestry

theorem sort_threeGenerations :
    (sortByAncestry [⟨1, none⟩, ⟨3, some "1/2".toList⟩]).Perm [⟨3, some "1/2".toList⟩, ⟨1, none⟩] :=
  (@sort_by_ancestry threeGenerations (by decide +kernel) (by decide +kernel) [⟨3, some "1/2".toList⟩, ⟨1, none⟩]
    (by decide +kernel) (by decide +kernel) (fun _ _ => True) _ ⟨by decide +kernel,
      List.pairwise_pair.mpr (Or.inl (by decide +kernel))⟩).1

end Ancestry.Nodes
