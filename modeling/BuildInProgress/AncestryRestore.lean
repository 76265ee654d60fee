import BuildInProgress.AncestryIntegrity
import BuildInProgress.Lib.Cycles

/-!
# Restoring the ancestry column

`restore_ancestry_integrity!` of `ancestry-2.1.0` keeps from each column the parent at its end, drops a parent that
leads back to its node, and writes all columns anew from the parents that are left.  Both of its loops come to an
end, the check then reports nothing, and the only parents lost are those that name no node and, on each cycle, that
of the node with the greatest id.
-/

namespace Ancestry.Nodes

open Text Chain

/-! ## The restoration -/

/-- `update_attribute` of the ancestry column. -/
def writeAncestry (t : Table Node) (id : Nat) (ancestry : Option Text) : Table Node :=
  t.modify id (fun node => { node with ancestry }) (fun _ => rfl)

/-- `until parent.nil? || parent == node.id`: whether the parents lead to the node.  Nothing when the loop has not
ended after `fuel` turns. -/
def leadsTo (parents : Nat → Option Nat) (id : Nat) : Nat → Option Nat → Option Bool
  | _, none => some false
  | 0, some parent => if parent = id then some true else none
  | fuel + 1, some parent => if parent = id then some true else leadsTo parents id fuel (parents parent)

/-- The columns and the `parents` hash during the first loop. -/
structure Repair where
  nodes : Table Node
  parents : Nat → Option Nat

/-- `node.parent_id if exists? node.parent_id`, after an invalid column has been emptied. -/
def savedParent (t : Table Node) (node : Node) : Option Nat :=
  if validFormat node.ancestry then node.parentId.filter (found t) else none

/-- One turn of the first loop. -/
def saveParent (fuel : Nat) (r : Repair) (node : Node) : Option Repair :=
  let nodes := if validFormat node.ancestry then r.nodes else writeAncestry r.nodes node.id none
  let parents := match savedParent r.nodes node with
    | some parent => Function.update r.parents node.id (some parent)
    | none => r.parents
  (leadsTo parents node.id fuel (parents node.id)).map fun cycle =>
    ⟨nodes, if cycle then Function.update parents node.id none else parents⟩

/-- `until parent.nil?`: the ancestry of a node from the parents. -/
def rebuild (parents : Nat → Option Nat) : Nat → Option Text → Option Nat → Option (Option Text)
  | _, ancestry, none => some ancestry
  | 0, _, some _ => none
  | fuel + 1, none, some parent => rebuild parents fuel (some (toS parent)) (parents parent)
  | fuel + 1, some ancestry, some parent =>
    rebuild parents fuel (some (toS parent ++ '/' :: ancestry)) (parents parent)

/-- One turn of the second loop. -/
def rebuildNode (fuel : Nat) (parents : Nat → Option Nat) (nodes : Table Node) (node : Node) : Option (Table Node) :=
  (rebuild parents fuel none (parents node.id)).map (writeAncestry nodes node.id)

/-- `restore_ancestry_integrity!`; nothing when a loop has not ended after as many turns as there are nodes, and
one. -/
def restoreAncestryIntegrity (t : Table Node) : Option (Table Node) := do
  let fuel := t.rows.length + 1
  let r ← (findEach t).foldlM (saveParent fuel) ⟨t, fun _ => none⟩
  (findEach r.nodes).foldlM (rebuildNode fuel r.parents) r.nodes

/-! ## Written columns -/

/-- The column of a node with the ancestors `l`. -/
def written (l : List Nat) : Option Text := if l = [] then none else some (render l)

theorem written_of_ne_nil {l : List Nat} (hl : l ≠ []) : written l = some (render l) := if_neg hl

@[simp] theorem ancestorIds_written (l : List Nat) : ancestorIds (written l) = l := by
  rw [written]
  split
  · rename_i h
    rw [ancestorIds_none, h]
  · exact ancestorIds_render l

theorem validFormat_written (l : List Nat) : validFormat (written l) = true := by
  rw [written]
  split
  · rfl
  · rename_i h
    exact pattern_render h

theorem written_inj {l m : List Nat} (h : written l = written m) : l = m := by
  rw [← ancestorIds_written l, h, ancestorIds_written]

/-- The loop writes the chain of parents in front of what it has. -/
theorem rebuild_ascends {parents : Nat → Option Nat} {l : List Nat} (h : Lineage.Ascends parents l) {fuel : Nat}
    (hlen : l.length ≤ fuel) (done : List Nat) :
    rebuild parents fuel (written done) l.head? = some (written (l.reverse ++ done)) := by
  induction l generalizing fuel done with
  | nil =>
    rw [List.head?_nil, rebuild, List.reverse_nil, List.nil_append]
  | cons parent l ih =>
    obtain ⟨fuel, rfl⟩ : ∃ n, fuel = n + 1 := ⟨fuel - 1, by rw [List.length_cons] at hlen; omega⟩
    have hnext := ih h.2 (Nat.le_of_succ_le_succ hlen) (parent :: done)
    have hcons : written (parent :: done) = some (render (parent :: done)) := if_neg (by simp)
    rw [← h.1, hcons] at hnext
    rw [List.head?_cons, List.reverse_cons, List.append_assoc, List.singleton_append]
    by_cases hdone : done = []
    · rw [hdone, render_singleton] at hnext
      rw [hdone, written, if_pos rfl, rebuild]
      exact hnext
    · rw [render_cons hdone] at hnext
      rw [written, if_neg hdone, rebuild]
      exact hnext

/-! ## The first loop -/

theorem leadsTo_some {g : Nat → Option Nat} {id fuel k p : Nat} (hk : k ≤ fuel) (h : climb g k p = some id) :
    leadsTo g id fuel (some p) = some true := by
  induction fuel generalizing k p with
  | zero =>
    obtain rfl : k = 0 := by omega
    rw [climb, Option.some.injEq] at h
    rw [leadsTo, if_pos h]
  | succ fuel ih =>
    rw [leadsTo]
    split
    · rfl
    · rename_i hne
      cases k with
      | zero =>
        rw [climb, Option.some.injEq] at h
        exact absurd h hne
      | succ k =>
        rw [climb_succ'] at h
        obtain ⟨q, hq, hrest⟩ := Option.bind_eq_some_iff.mp h
        rw [hq]
        exact ih (Nat.le_of_succ_le_succ hk) hrest

theorem leadsTo_none {g : Nat → Option Nat} {id fuel p : Nat} (hne : ∀ k, climb g k p ≠ some id)
    (h : climb g fuel p = none) : leadsTo g id fuel (some p) = some false := by
  induction fuel generalizing p with
  | zero => cases h
  | succ fuel ih =>
    have hp : p ≠ id := fun heq => hne 0 (by rw [climb, heq])
    rw [leadsTo, if_neg hp]
    cases hq : g p with
    | none =>
      cases fuel with
      | zero => rfl
      | succ fuel => rfl
    | some q =>
      rw [climb_succ', hq, Option.bind_some] at h
      refine ih (fun k hk => hne (k + 1) ?_) h
      rw [climb_succ', hq, Option.bind_some, hk]

/-- The loop ends and says whether the node is on a cycle. -/
theorem leadsTo_spec {g : Nat → Option Nat} {id : Nat} {l : List Nat} (hl : ∀ x, (g x).isSome = true → x ∈ l)
    (hends : ∀ p, climb g (l.length + 1) p = none ∨ ∃ k ≤ l.length, climb g k p = some id) :
    ∃ cycle, leadsTo g id (l.length + 1) (g id) = some cycle ∧ (cycle = true ↔ OnCycle g id) := by
  cases hp : g id with
  | none =>
    refine ⟨false, rfl, iff_of_false (by decide) ?_⟩
    rintro ⟨k, hk⟩
    rw [climb_succ', hp, Option.bind_none] at hk
    cases hk
  | some p =>
    have hcycle : OnCycle g id ↔ ∃ k, climb g k p = some id := by
      refine exists_congr fun k => ?_
      rw [climb_succ', hp, Option.bind_some]
    by_cases hex : ∃ k, climb g k p = some id
    · obtain ⟨k, hk⟩ := hex
      obtain ⟨k, hle, hk⟩ := exists_climb_le hl hk
      exact ⟨true, leadsTo_some (Nat.le_succ_of_le hle) hk, iff_of_true rfl (hcycle.mpr ⟨k, hk⟩)⟩
    · have hnone := (hends p).resolve_right fun ⟨k, _, hk⟩ => hex ⟨k, hk⟩
      exact ⟨false, leadsTo_none (not_exists.mp hex) hnone, iff_of_false (by decide) fun h => hex (hcycle.mp h)⟩

/-- The parent that the first loop reads from the column of a node. -/
def link (t : Table Node) (id : Nat) : Option Nat := (t.find? id).bind (savedParent t)

theorem link_of_mem {t : Table Node} {node : Node} (h : node ∈ t.rows) : link t node.id = savedParent t node := by
  have hfind : t.find? node.id = some node := Table.find?_of_mem h
  rw [link, hfind, Option.bind_some]

theorem link_eq_some {t : Table Node} {id p : Nat} (h : link t id = some p) :
    found t id = true ∧ found t p = true := by
  obtain ⟨node, hfind, hsaved⟩ := Option.bind_eq_some_iff.mp h
  refine ⟨by rw [found, hfind]; rfl, ?_⟩
  rw [savedParent] at hsaved
  split at hsaved
  · exact (Option.filter_eq_some_iff.mp hsaved).2
  · cases hsaved

theorem found_congr {t t' : Table Node} (h : t'.rows.map Node.id = t.rows.map Node.id) : found t' = found t := by
  funext id
  rw [Bool.eq_iff_iff, found, found, Table.isSome_find?, Table.isSome_find?]
  show id ∈ t'.rows.map Node.id ↔ id ∈ t.rows.map Node.id
  rw [h]

theorem ids_writeAncestry (t : Table Node) (id : Nat) (ancestry : Option Text) :
    (writeAncestry t id ancestry).rows.map Node.id = t.rows.map Node.id := by
  rw [writeAncestry, Table.rows_modify, List.map_map]
  apply List.map_congr_left
  intro node _
  rw [Function.comp]
  split <;> rfl

/-- One turn: of the nodes up to this one, those that close no cycle have their parents. -/
theorem saveParent_spec {t : Table Node} {r : Repair} {node : Node}
    (hids : r.nodes.rows.map Node.id = t.rows.map Node.id)
    (hnode : node ∈ t.rows) (hr : r.parents = broken (link t) (· < node.id)) :
    ∃ nodes, saveParent (t.rows.length + 1) r node = some ⟨nodes, broken (link t) (· ≤ node.id)⟩ ∧
      nodes.rows.map Node.id = t.rows.map Node.id := by
  -- the parents with that of the node
  have hset : (match savedParent r.nodes node with
      | some parent => Function.update r.parents node.id (some parent)
      | none => r.parents) = Function.update r.parents node.id (link t node.id) := by
    have hsaved : savedParent r.nodes node = link t node.id := by
      rw [link_of_mem hnode, savedParent, savedParent, found_congr hids]
    rw [hsaved]
    cases link t node.id with
    | some parent => rfl
    | none =>
      have hno : r.parents node.id = none := by rw [hr, broken, if_neg fun h => Nat.lt_irrefl _ h.1]
      show r.parents = _
      rw [← hno, Function.update_eq_self]
  have hother : ∀ x, x ≠ node.id →
      Function.update r.parents node.id (link t node.id) x = broken (link t) (· < node.id) x := by
    intro x hx
    rw [Function.update_of_ne hx, hr]
  have hself := Function.update_self node.id (link t node.id) r.parents
  have hcomes := comes_back_iff hother hself
  -- every reference is in the table
  have hmem : ∀ x, (Function.update r.parents node.id (link t node.id) x).isSome = true → x ∈ t.rows.map Node.id := by
    intro x hx
    obtain ⟨p, hp⟩ := Option.isSome_iff_exists.mp hx
    have hlink : link t x = some p := by
      by_cases hxn : x = node.id
      · rw [hxn, hself] at hp
        rw [hxn, hp]
      · rw [hother x hxn] at hp
        exact (broken_eq_some.mp hp).1
    exact Table.isSome_find?.mp (link_eq_some hlink).1
  obtain ⟨cycle, hloop, hcycle⟩ := leadsTo_spec hmem (walk_ends hother hmem)
  rw [List.length_map] at hloop
  obtain ⟨hnew, hold⟩ := broken_le hother hself
  have hnewest := hcycle.trans (comes_back_iff hother hself)
  refine ⟨if validFormat node.ancestry then r.nodes else writeAncestry r.nodes node.id none, ?_, ?_⟩
  · rw [saveParent, hset]
    show (leadsTo _ _ _ _).map _ = _
    rw [hloop, Option.map_some]
    congr 2
    split
    · rename_i h
      exact hnew (hnewest.mp h)
    · rename_i h
      exact hold fun hn => h (hnewest.mpr hn)
  · split
    · exact hids
    · rw [ids_writeAncestry, hids]

theorem findEach_pairwise (t : Table Node) : (findEach t).Pairwise (·.id < ·.id) := by
  have hsorted : (findEach t).Pairwise (·.id ≤ ·.id) := List.pairwise_insertionSort _ _
  have hnodup : ((findEach t).map Node.id).Nodup :=
    ((List.perm_insertionSort _ t.rows).map Node.id).nodup_iff.mpr t.nodup
  rw [List.Nodup, List.pairwise_map] at hnodup
  refine (hsorted.and hnodup).imp ?_
  intro a b h
  exact Nat.lt_of_le_of_ne h.1 h.2

/-- The parents after the first loop. -/
noncomputable def kept (t : Table Node) : Nat → Option Nat := broken (link t) fun _ => True

theorem saveParents_spec {t : Table Node} {done rest : List Node} (h : findEach t = done ++ rest) {r : Repair}
    (hids : r.nodes.rows.map Node.id = t.rows.map Node.id)
    (hr : r.parents = broken (link t) fun id => ∃ node ∈ done, node.id = id) :
    ∃ nodes, rest.foldlM (saveParent (t.rows.length + 1)) r = some ⟨nodes, kept t⟩ ∧
      nodes.rows.map Node.id = t.rows.map Node.id := by
  have hrow : ∀ id, (link t id).isSome = true → ∃ node ∈ done ++ rest, node.id = id := by
    intro id hid
    obtain ⟨p, hp⟩ := Option.isSome_iff_exists.mp hid
    obtain ⟨node, hnode, rfl⟩ := found_iff.mp (link_eq_some hp).1
    exact ⟨node, h ▸ mem_findEach.mpr hnode, rfl⟩
  induction rest generalizing done r with
  | nil =>
    refine ⟨r.nodes, ?_, hids⟩
    have hall : r.parents = kept t := by
      rw [hr]
      refine broken_congr fun id hid => iff_of_true ?_ trivial
      rw [List.append_nil] at hrow
      exact hrow id hid
    rw [← hall]
    rfl
  | cons node rest ih =>
    have hsorted := findEach_pairwise t
    rw [h, List.pairwise_append, List.pairwise_cons] at hsorted
    obtain ⟨-, ⟨hafter, -⟩, hbefore⟩ := hsorted
    -- the nodes that have been read are those with smaller ids
    have hlt : ∀ id, (link t id).isSome = true → ((∃ n ∈ done, n.id = id) ↔ id < node.id) := by
      intro id hid
      constructor
      · rintro ⟨n, hn, rfl⟩
        exact hbefore n hn node List.mem_cons_self
      · intro hlt
        obtain ⟨n, hn, rfl⟩ := hrow id hid
        rcases List.mem_append.mp hn with hn | hn
        · exact ⟨n, hn, rfl⟩
        · rcases List.mem_cons.mp hn with rfl | hn
          · exact absurd hlt (Nat.lt_irrefl _)
          · exact absurd hlt (Nat.lt_asymm (hafter n hn))
    have hnode : node ∈ t.rows := mem_findEach.mp (by rw [h]; simp)
    obtain ⟨nodes, hstep, hnodes⟩ := saveParent_spec hids hnode (hr.trans (broken_congr hlt))
    rw [List.foldlM_cons, hstep]
    have hsplit : done ++ node :: rest = done ++ [node] ++ rest := by rw [List.append_assoc, List.singleton_append]
    rw [hsplit] at h hrow
    refine ih h hnodes (broken_congr fun id hid => ?_) hrow
    have hmem : (∃ n ∈ done ++ [node], n.id = id) ↔ (∃ n ∈ done, n.id = id) ∨ node.id = id := by
      simp [or_and_right, exists_or]
    rw [hmem, hlt id hid]
    omega

/-! ## The second loop -/

/-- The rows after columns have been written one after the other. -/
theorem rows_foldl_writeAncestry (column : Nat → Option Text) (nodes : List Node) (t : Table Node) :
    (nodes.foldl (fun t node => writeAncestry t node.id (column node.id)) t).rows =
      t.rows.map fun n => if n.id ∈ nodes.map Node.id then { n with ancestry := column n.id } else n := by
  induction nodes generalizing t with
  | nil =>
    symm
    apply List.map_eq_self_of_forall
    intro n _
    exact if_neg List.not_mem_nil
  | cons node nodes ih =>
    rw [List.foldl_cons, ih, writeAncestry, Table.rows_modify, List.map_map]
    apply List.map_congr_left
    intro n _
    show (fun r : Node => if r.id ∈ nodes.map Node.id then { r with ancestry := column r.id } else r)
      (if n.id = node.id then { n with ancestry := column node.id } else n) = _
    by_cases hn : n.id = node.id
    · rw [if_pos hn, List.map_cons, if_pos (hn ▸ List.mem_cons_self)]
      show (if n.id ∈ nodes.map Node.id then (⟨n.id, column n.id⟩ : Node) else ⟨n.id, column node.id⟩) = _
      rw [hn, ite_self]
    · rw [if_neg hn]
      simp [hn]

theorem rebuildNodes_eq {parents : Nat → Option Nat} {fuel : Nat} {column : Nat → Option Text}
    (h : ∀ id, rebuild parents fuel none (parents id) = some (column id)) (nodes : List Node) (t : Table Node) :
    nodes.foldlM (rebuildNode fuel parents) t =
      some (nodes.foldl (fun t node => writeAncestry t node.id (column node.id)) t) := by
  induction nodes generalizing t with
  | nil => rfl
  | cons node nodes ih =>
    rw [List.foldlM_cons, rebuildNode, h, List.foldl_cons]
    exact ih _

/-- Both loops end; each column is then the chain of the parents that were kept. -/
theorem restore_spec (t : Table Node) :
    ∃ (t' : Table Node) (line : Nat → List Nat), restoreAncestryIntegrity t = some t' ∧
      t'.rows = t.rows.map (fun node => ⟨node.id, written (line node.id)⟩) ∧
      ∀ id, Lineage.Ascends (kept t) (id :: (line id).reverse) := by
  obtain ⟨nodes, hfirst, hids⟩ := @saveParents_spec t [] (findEach t) rfl ⟨t, fun _ => none⟩ rfl
    (by funext id; rw [broken, if_neg (by simp)])
  have hsupport : ∀ id, (kept t id).isSome = true → id ∈ t.rows.map Node.id := by
    intro id hid
    obtain ⟨p, hp⟩ := Option.isSome_iff_exists.mp hid
    exact Table.isSome_find?.mp (link_eq_some (broken_eq_some.mp hp).1).1
  have hacyclic : Acyclic (kept t) := acyclic_broken _ _
  have hends : ∀ id, ∃ l, Lineage.Ascends (kept t) (id :: l) ∧ l.length < t.rows.length + 1 := fun id =>
    exists_ascends (hacyclic.climb_eq_none hsupport (by rw [List.length_map]; omega) id)
  choose line hline using hends
  have hcolumn : ∀ id, rebuild (kept t) (t.rows.length + 1) none (kept t id) = some (written (line id).reverse) := by
    intro id
    obtain ⟨hasc, hlen⟩ := hline id
    rw [hasc.1]
    have h := rebuild_ascends hasc.2 (Nat.le_of_lt hlen) []
    rw [List.append_nil] at h
    exact h
  refine ⟨(findEach nodes).foldl (fun t node => writeAncestry t node.id (written (line node.id).reverse)) nodes,
    fun id => (line id).reverse, ?_, ?_, ?_⟩
  · rw [restoreAncestryIntegrity, hfirst]
    exact rebuildNodes_eq hcolumn (findEach nodes) nodes
  · rw [rows_foldl_writeAncestry fun id => written (line id).reverse]
    have hmap : t.rows.map (fun node => (⟨node.id, written (line node.id).reverse⟩ : Node)) =
        (t.rows.map Node.id).map fun id => ⟨id, written (line id).reverse⟩ := by rw [List.map_map]; rfl
    rw [hmap, ← hids, List.map_map]
    apply List.map_congr_left
    intro node hnode
    rw [if_pos (List.mem_map_of_mem (mem_findEach.mpr hnode))]
    rfl
  · intro id
    show Lineage.Ascends (kept t) (id :: (line id).reverse.reverse)
    rw [List.reverse_reverse]
    exact (hline id).1

/-! ## What is restored -/

section Restored

variable {t t' : Table Node} {line : Nat → List Nat}

theorem mem_restored (hrows : t'.rows = t.rows.map fun node => ⟨node.id, written (line node.id)⟩) {node : Node} :
    node ∈ t'.rows ↔ found t node.id = true ∧ node.ancestry = written (line node.id) := by
  rw [hrows, List.mem_map, found_iff]
  constructor
  · rintro ⟨n, hn, rfl⟩
    exact ⟨⟨n, hn, rfl⟩, rfl⟩
  · rintro ⟨⟨n, hn, hid⟩, hancestry⟩
    refine ⟨n, hn, ?_⟩
    rw [hid, ← hancestry]

theorem paths_restored (hrows : t'.rows = t.rows.map fun node => ⟨node.id, written (line node.id)⟩) (id : Nat) :
    paths t' id = if found t id then some (line id) else none := by
  split
  · rename_i hfound
    have hmem : (⟨id, written (line id)⟩ : Node) ∈ t'.rows := (mem_restored hrows).mpr ⟨hfound, rfl⟩
    have hpath := paths_of_mem hmem
    rw [Node.ancestorIds, ancestorIds_written] at hpath
    exact hpath
  · rename_i hfound
    have hids : t'.rows.map Node.id = t.rows.map Node.id := by
      rw [hrows, List.map_map]
      rfl
    rw [← Option.not_isSome_iff_eq_none, isSome_paths, found_congr hids]
    exact hfound

theorem intact_restored (hrows : t'.rows = t.rows.map fun node => ⟨node.id, written (line node.id)⟩)
    (hline : ∀ id, Lineage.Ascends (kept t) (id :: (line id).reverse)) : Intact t' where
  format node hnode := by
    rw [((mem_restored hrows).mp hnode).2]
    exact validFormat_written _
  sound := by
    have hpath : ∀ id l, paths t' id = some l → l = line id := by
      intro id l hl
      rw [paths_restored hrows] at hl
      split at hl
      · exact (Option.some.inj hl).symm
      · cases hl
    refine @Lineage.sound_of_ascends _ _ (kept t) ?_ ?_
    · intro id l hl ancestor hancestor
      rw [hpath id l hl] at hancestor
      obtain ⟨child, hchild⟩ := (hline id).exists_link (List.mem_reverse.mpr hancestor)
      rw [paths_restored hrows, (link_eq_some (broken_eq_some.mp hchild).1).2]
      rfl
    · intro id l hl
      rw [hpath id l hl]
      exact hline id

theorem parentOf_restored (hrows : t'.rows = t.rows.map fun node => ⟨node.id, written (line node.id)⟩)
    (hline : ∀ id, Lineage.Ascends (kept t) (id :: (line id).reverse)) : parentOf t' = kept t := by
  funext id
  rw [← up_paths, Lineage.up, paths_restored hrows]
  split
  · rw [Option.bind_some, (hline id).1, List.head?_reverse]
  · rename_i hfound
    cases hkept : kept t id with
    | none => rfl
    | some p => exact absurd (link_eq_some (broken_eq_some.mp hkept).1).1 hfound

end Restored

/-- The restoration comes to an end and keeps all nodes.  The check then reports nothing, and a node has the parent
that the end of its column named, except when there is no such node or the node has the greatest id of a cycle. -/
theorem restore_ancestry_integrity (t : Table Node) :
    ∃ t', restoreAncestryIntegrity t = some t' ∧ t'.rows.map Node.id = t.rows.map Node.id ∧
      listAncestryIntegrity t' = [] ∧
      ∀ id parent, parentOf t' id = some parent ↔ link t id = some parent ∧ ¬ Newest (link t) id := by
  obtain ⟨t', line, hrestore, hrows, hline⟩ := restore_spec t
  refine ⟨t', hrestore, ?_, listAncestryIntegrity_iff.mpr (intact_restored hrows hline), ?_⟩
  · rw [hrows, List.map_map]
    rfl
  · intro id parent
    rw [parentOf_restored hrows hline, kept, broken_eq_some]
    exact and_congr_right fun _ => and_iff_right trivial

/-! ## Tables that need no restoration -/

/-- Every column is the one the gem writes for its ancestors. -/
def Written (t : Table Node) : Prop := ∀ node ∈ t.rows, node.ancestry = written node.ancestorIds

instance (t : Table Node) : Decidable (Written t) :=
  inferInstanceAs (Decidable (∀ node ∈ t.rows, node.ancestry = written node.ancestorIds))

/-- A node, its child and the child of that one. -/
def threeGenerations : Table Node :=
  .ofRows [⟨1, none⟩, ⟨2, some "1".toList⟩, ⟨3, some "1/2".toList⟩] 4 (by decide)

section Sound

variable {t : Table Node}

/-- An invalid column does no harm when no id is read from it. -/
theorem link_eq (hs : Lineage.Sound (paths t))
    (hformat : ∀ node ∈ t.rows, validFormat node.ancestry = true ∨ node.ancestorIds = []) : link t = parentOf t := by
  funext id
  rw [link, parentOf]
  cases hfind : t.find? id with
  | none => rfl
  | some node =>
    obtain ⟨hnode, -⟩ := Table.find?_eq_some.mp hfind
    rw [Option.bind_some, Option.bind_some, savedParent, Node.parentId]
    rcases hformat node hnode with hvalid | hnil
    · rw [if_pos hvalid]
      cases hp : node.ancestorIds.getLast? with
      | none => rfl
      | some p =>
        obtain ⟨l, -, hl, -⟩ := hs.exists_path (paths_of_mem hnode) (List.mem_of_getLast? hp)
        rw [Option.filter_some, if_pos (by rw [← isSome_paths, hl]; rfl)]
    · rw [hnil]
      exact ite_self none

theorem ascends_of_sound (hs : Lineage.Sound (paths t)) {node : Node} (hnode : node ∈ t.rows) :
    Lineage.Ascends (parentOf t) (node.id :: node.ancestorIds.reverse) := by
  rw [← up_paths]
  exact hs.ascends (paths_of_mem hnode)

theorem acyclic_of_sound (hs : Lineage.Sound (paths t)) : Acyclic (parentOf t) := by
  intro id hcycle
  obtain ⟨p, hp⟩ := Option.isSome_iff_exists.mp (isSome_climb_of_onCycle hcycle 1)
  rw [climb, climb, Option.bind_some] at hp
  obtain ⟨node, hfind, -⟩ := Option.bind_eq_some_iff.mp hp
  obtain ⟨hnode, hid⟩ := Table.find?_eq_some.mp hfind
  have hid : node.id = id := hid
  exact not_onCycle_of_ascends (ascends_of_sound hs hnode) (hid ▸ hcycle)

/-- When the paths agree the restoration keeps them, and writes them the way the gem does. -/
theorem restore_of_sound (hs : Lineage.Sound (paths t))
    (hformat : ∀ node ∈ t.rows, validFormat node.ancestry = true ∨ node.ancestorIds = []) :
    (restoreAncestryIntegrity t).map Table.rows =
      some (t.rows.map fun node => ⟨node.id, written node.ancestorIds⟩) := by
  obtain ⟨t', line, hrestore, hrows, hline⟩ := restore_spec t
  have hkept : kept t = parentOf t := by
    rw [kept, link_eq hs hformat, broken_of_acyclic (acyclic_of_sound hs) fun _ _ => trivial]
  rw [hrestore, Option.map_some, hrows]
  congr 1
  apply List.map_congr_left
  intro node hnode
  have hasc := ascends_of_sound hs hnode
  rw [← hkept] at hasc
  rw [List.reverse_injective ((hline node.id).unique hasc)]

end Sound

theorem Intact.congr {t t' : Table Node} (h : Intact t) (hrows : t'.rows = t.rows) : Intact t' where
  format := hrows ▸ h.format
  sound := by
    have hpaths : paths t' = paths t := by
      funext id
      rw [paths, paths, Table.find?, Table.find?, hrows]
    exact hpaths ▸ h.sound

/-- The restoration changes nothing exactly when the check reports nothing and the columns are as the gem writes
them; so a second restoration changes nothing. -/
theorem restore_unchanged_iff (t : Table Node) :
    ((restoreAncestryIntegrity t).map Table.rows = some t.rows ↔ listAncestryIntegrity t = [] ∧ Written t) ∧
      ∀ t', restoreAncestryIntegrity t = some t' → (restoreAncestryIntegrity t').map Table.rows = some t'.rows := by
  have hwritten : ∀ {t t' : Table Node} {line : Nat → List Nat},
      t'.rows = t.rows.map (fun node => ⟨node.id, written (line node.id)⟩) → Written t' := by
    intro t t' line hrows node hnode
    obtain ⟨-, hancestry⟩ := (mem_restored hrows).mp hnode
    rw [Node.ancestorIds, hancestry, ancestorIds_written]
  have hsame : ∀ {t : Table Node}, Intact t → Written t →
      (restoreAncestryIntegrity t).map Table.rows = some t.rows := by
    intro t h hw
    rw [restore_of_sound h.sound fun node hnode => Or.inl (h.format node hnode)]
    congr 1
    apply List.map_eq_self_of_forall
    intro node hnode
    rw [← hw node hnode]
  obtain ⟨t', line, hrestore, hrows, hline⟩ := restore_spec t
  constructor
  · rw [listAncestryIntegrity_iff]
    constructor
    · intro h
      rw [hrestore, Option.map_some, Option.some.injEq] at h
      have hw := hwritten hrows
      exact ⟨(intact_restored hrows hline).congr h.symm, fun node hnode => hw node (h ▸ hnode)⟩
    · intro h
      exact hsame h.1 h.2
  · intro t'' h
    rw [hrestore, Option.some.injEq] at h
    rw [← h]
    exact hsame (intact_restored hrows hline) (hwritten hrows)

end Ancestry.Nodes
