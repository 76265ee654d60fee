import BuildInProgress.Ancestry
import BuildInProgress.Lib.Lineage
import BuildInProgress.Lib.Table
import Mathlib.Data.List.Sort

/-!
# Integrity of the ancestry column

`check_ancestry_integrity!` of `ancestry-2.1.0` reads each node in the order of the ids and compares the parents on
its path with those it has seen on the paths before.  Its report is empty exactly when all columns have the format
and each path is the path of the parent followed by the parent.
-/

namespace Ancestry.Nodes

open Text

/-- A row of a table with `has_ancestry`: the primary key and the ancestry column. -/
structure Node where
  id : Nat
  ancestry : Option Text
  deriving DecidableEq, Repr

instance : Keyed Node := ⟨Node.id⟩

namespace Node

/-- `ancestor_ids` -/
def ancestorIds (node : Node) : List Nat := Ancestry.ancestorIds node.ancestry

/-- `path_ids` -/
def pathIds (node : Node) : List Nat := node.ancestorIds ++ [node.id]

/-- `parent_id` -/
def parentId (node : Node) : Option Nat := node.ancestorIds.getLast?

end Node

/-- `exists? id` -/
def found (t : Table Node) (id : Nat) : Bool := (t.find? id).isSome

/-- `find_each` reads the rows in the order of the primary key. -/
def findEach (t : Table Node) : List Node := t.rows.insertionSort (·.id ≤ ·.id)

/-- The path of each id in the table. -/
def paths (t : Table Node) (id : Nat) : Option (List Nat) := (t.find? id).map Node.ancestorIds

/-- The parent of each id in the table. -/
def parentOf (t : Table Node) (id : Nat) : Option Nat := (t.find? id).bind Node.parentId

/-- Well-formed columns that agree on who is whose parent. -/
structure Intact (t : Table Node) : Prop where
  format : ∀ node ∈ t.rows, validFormat node.ancestry = true
  sound : Lineage.Sound (paths t)

/-! ## The check -/

inductive IntegrityException where
  | format (node : Nat) (column : Option Text)
  | missing (node ancestor : Nat)
  | conflict (node : Nat) (parent : Option Nat) (id : Nat) (expected : Option Nat)
  deriving DecidableEq, Repr

/-- `#{id || 'nil'}` -/
def orNil (id : Option Nat) : Text := (id.map toS).getD "nil".toList

def IntegrityException.message : IntegrityException → Text
  | format node column =>
    "Invalid format for ancestry column of node ".toList ++ toS node ++ ": ".toList ++ column.getD [] ++ ".".toList
  | missing node ancestor =>
    "Reference to non-existent node in node ".toList ++ toS node ++ ": ".toList ++ toS ancestor ++ ".".toList
  | conflict node parent id expected =>
    "Conflicting parent id found in node ".toList ++ toS node ++ ": ".toList ++ orNil parent ++ " for node ".toList ++
      toS id ++ " while expecting ".toList ++ orNil expected

/-- The `parents` hash: nothing under a key it does not have. -/
abbrev Observed := Nat → Option (Option Nat)

/-- Compare the pairs of an id and its parent with the parents seen earlier.  The first value seen stays. -/
def observe (node : Nat) : Observed → List (Nat × Option Nat) → Observed × Option IntegrityException
  | parents, [] => (parents, none)
  | parents, (id, parent) :: pairs =>
    match parents id with
    | none => observe node (Function.update parents id (some parent)) pairs
    | some expected =>
      if expected = parent then observe node parents pairs else (parents, some (.conflict node parent id expected))

/-- `path_ids.zip([nil] + path_ids)` -/
def pairs (ids : List Nat) : List (Nat × Option Nat) := ids.zip (none :: ids.map some)

/-- The checks of one node, up to the first that fails. -/
def checkNode (t : Table Node) (parents : Observed) (node : Node) : Observed × Option IntegrityException :=
  if validFormat node.ancestry then
    match node.ancestorIds.find? fun id => !found t id with
    | some ancestor => (parents, some (.missing node.id ancestor))
    | none => observe node.id parents (pairs node.pathIds)
  else (parents, some (.format node.id node.ancestry))

/-- The loop when exceptions are listed. -/
def listFrom (t : Table Node) : Observed → List Node → List IntegrityException
  | _, [] => []
  | parents, node :: nodes =>
    let (parents, exception) := checkNode t parents node
    exception.toList ++ listFrom t parents nodes

/-- The loop when the first exception is raised. -/
def raiseFrom (t : Table Node) : Observed → List Node → Except IntegrityException Unit
  | _, [] => .ok ()
  | parents, node :: nodes =>
    match checkNode t parents node with
    | (_, some exception) => .error exception
    | (parents, none) => raiseFrom t parents nodes

/-- `check_ancestry_integrity! :report => :list`, and what `:echo` prints. -/
def listAncestryIntegrity (t : Table Node) : List IntegrityException := listFrom t (fun _ => none) (findEach t)

/-- `check_ancestry_integrity!` -/
def checkAncestryIntegrity (t : Table Node) : Except IntegrityException Unit :=
  raiseFrom t (fun _ => none) (findEach t)

theorem listFrom_cons (t : Table Node) (parents : Observed) (node : Node) (nodes : List Node) :
    listFrom t parents (node :: nodes) =
      (checkNode t parents node).2.toList ++ listFrom t (checkNode t parents node).1 nodes := rfl

/-- The check that raises stops with the first exception of the list. -/
theorem raiseFrom_eq (t : Table Node) (parents : Observed) (nodes : List Node) :
    raiseFrom t parents nodes = match (listFrom t parents nodes).head? with
      | none => .ok ()
      | some exception => .error exception := by
  induction nodes generalizing parents with
  | nil => rfl
  | cons node nodes ih =>
    rw [raiseFrom, listFrom]
    cases h : checkNode t parents node with
    | mk parents' exception =>
      cases exception with
      | none => exact ih parents'
      | some exception => rfl

/-! ## Rows -/

@[simp] theorem mem_findEach {t : Table Node} {node : Node} : node ∈ findEach t ↔ node ∈ t.rows :=
  List.mem_insertionSort _

theorem found_iff {t : Table Node} {id : Nat} : found t id = true ↔ ∃ node ∈ t.rows, node.id = id := by
  rw [found, Option.isSome_iff_exists]
  exact exists_congr fun node => Table.find?_eq_some

theorem paths_of_mem {t : Table Node} {node : Node} (h : node ∈ t.rows) : paths t node.id = some node.ancestorIds := by
  have hfind : t.find? node.id = some node := Table.find?_of_mem h
  rw [paths, hfind, Option.map_some]

theorem paths_eq_some {t : Table Node} {id : Nat} {l : List Nat} :
    paths t id = some l ↔ ∃ node ∈ t.rows, node.id = id ∧ node.ancestorIds = l := by
  rw [paths, Option.map_eq_some_iff]
  constructor
  · rintro ⟨node, hfind, rfl⟩
    obtain ⟨hmem, hid⟩ := Table.find?_eq_some.mp hfind
    exact ⟨node, hmem, hid, rfl⟩
  · rintro ⟨node, hmem, rfl, rfl⟩
    exact ⟨node, Table.find?_of_mem hmem, rfl⟩

theorem isSome_paths {t : Table Node} {id : Nat} : (paths t id).isSome = found t id := by
  rw [paths, Option.isSome_map, found]

theorem up_paths (t : Table Node) : Lineage.up (paths t) = parentOf t := by
  funext id
  rw [Lineage.up, paths, parentOf, Option.bind_map]
  rfl

/-! ## What an empty report says -/

/-- The pairs hold of `link` when the ids are a chain of `link`, from the top down. -/
theorem forall_zip_iff {link : Nat → Option Nat} {m l : List Nat} :
    (Lineage.Ascends link m.reverse ∧ ∀ e ∈ l.zip (m.getLast? :: l.map some), link e.1 = e.2) ↔
      Lineage.Ascends link (m ++ l).reverse := by
  induction l generalizing m with
  | nil => simp
  | cons id l ih =>
    have hstep := @ih (m ++ [id])
    rw [List.getLast?_concat, List.reverse_append, List.reverse_singleton, List.singleton_append,
      List.append_assoc, List.singleton_append] at hstep
    rw [← hstep, List.map_cons, List.zip_cons_cons, List.forall_mem_cons, Lineage.Ascends, List.head?_reverse]
    tauto

theorem forall_pairs_iff {link : Nat → Option Nat} {ids : List Nat} :
    (∀ e ∈ pairs ids, link e.1 = e.2) ↔ Lineage.Ascends link ids.reverse := by
  have h := @forall_zip_iff link [] ids
  rw [List.nil_append, List.reverse_nil, List.getLast?_nil] at h
  rw [← h, pairs]
  exact (and_iff_right trivial).symm

/-- Without an exception, what was seen stays and all pairs have been seen. -/
theorem observe_none {node : Nat} {parents : Observed} {ps : List (Nat × Option Nat)}
    (h : (observe node parents ps).2 = none) :
    (∀ id p, parents id = some p → (observe node parents ps).1 id = some p) ∧
      ∀ e ∈ ps, (observe node parents ps).1 e.1 = some e.2 := by
  induction ps generalizing parents with
  | nil => exact ⟨fun _ _ hp => hp, fun _ he => absurd he List.not_mem_nil⟩
  | cons e ps ih =>
    obtain ⟨id, parent⟩ := e
    rw [observe] at h ⊢
    cases hid : parents id with
    | none =>
      rw [hid] at h
      obtain ⟨hkeep, hseen⟩ := ih h
      have hnow := hkeep id parent (Function.update_self _ _ _)
      refine ⟨fun i p hp => hkeep i p ?_, List.forall_mem_cons.mpr ⟨hnow, hseen⟩⟩
      have hi : i ≠ id := by
        rintro rfl
        rw [hid] at hp
        cases hp
      rw [Function.update_of_ne hi, hp]
    | some expected =>
      rw [hid] at h
      by_cases heq : expected = parent
      · simp only [if_pos heq] at h ⊢
        obtain ⟨hkeep, hseen⟩ := ih h
        exact ⟨hkeep, List.forall_mem_cons.mpr ⟨hkeep id parent (heq ▸ hid), hseen⟩⟩
      · simp only [if_neg heq] at h
        cases h

theorem checkNode_none {t : Table Node} {parents : Observed} {node : Node} (h : (checkNode t parents node).2 = none) :
    validFormat node.ancestry = true ∧ (∀ id ∈ node.ancestorIds, found t id = true) ∧
      (∀ id p, parents id = some p → (checkNode t parents node).1 id = some p) ∧
      ∀ e ∈ pairs node.pathIds, (checkNode t parents node).1 e.1 = some e.2 := by
  rw [checkNode] at h ⊢
  by_cases hformat : validFormat node.ancestry = true
  · rw [if_pos hformat] at h ⊢
    cases hfind : node.ancestorIds.find? fun id => !found t id with
    | some ancestor =>
      rw [hfind] at h
      cases h
    | none =>
      rw [hfind] at h
      refine ⟨hformat, ?_, observe_none h⟩
      intro id hid
      simpa using List.find?_eq_none.mp hfind id hid
  · rw [if_neg hformat] at h
    cases h

theorem listFrom_eq_nil {t : Table Node} {parents : Observed} {nodes : List Node} (h : listFrom t parents nodes = []) :
    ∃ seen : Observed, (∀ id p, parents id = some p → seen id = some p) ∧
      ∀ node ∈ nodes, validFormat node.ancestry = true ∧ (∀ id ∈ node.ancestorIds, found t id = true) ∧
        ∀ e ∈ pairs node.pathIds, seen e.1 = some e.2 := by
  induction nodes generalizing parents with
  | nil => exact ⟨parents, fun _ _ hp => hp, fun _ hnode => absurd hnode List.not_mem_nil⟩
  | cons node nodes ih =>
    rw [listFrom_cons] at h
    obtain ⟨hnode, hrest⟩ := List.append_eq_nil_iff.mp h
    rw [Option.toList_eq_nil_iff] at hnode
    obtain ⟨hformat, hfound, hkeep, hpairs⟩ := checkNode_none hnode
    obtain ⟨seen, hseen, hnodes⟩ := ih hrest
    refine ⟨seen, fun id p hp => hseen id p (hkeep id p hp), List.forall_mem_cons.mpr ⟨?_, hnodes⟩⟩
    exact ⟨hformat, hfound, fun e he => hseen e.1 e.2 (hpairs e he)⟩

/-! ## What an intact table reports -/

/-- What has been seen are parents of `link`. -/
def Observed.Of (link : Nat → Option Nat) (parents : Observed) : Prop := ∀ id p, parents id = some p → p = link id

theorem observe_of {link : Nat → Option Nat} {node : Nat} {parents : Observed} {ps : List (Nat × Option Nat)}
    (h : parents.Of link) (hps : ∀ e ∈ ps, link e.1 = e.2) :
    (observe node parents ps).2 = none ∧ (observe node parents ps).1.Of link := by
  induction ps generalizing parents with
  | nil => exact ⟨rfl, h⟩
  | cons e ps ih =>
    obtain ⟨id, parent⟩ := e
    obtain ⟨hid, hrest⟩ := List.forall_mem_cons.mp hps
    have hid : link id = parent := hid
    rw [observe]
    cases hp : parents id with
    | none =>
      refine ih ?_ hrest
      intro i p hi
      by_cases hii : i = id
      · rw [hii, Function.update_self, Option.some.injEq] at hi
        rw [hii, hid, hi]
      · rw [Function.update_of_ne hii] at hi
        exact h i p hi
    | some expected =>
      have heq : expected = parent := (h id expected hp).trans hid
      simp only [if_pos heq]
      exact ih h hrest

theorem Intact.found_ancestor {t : Table Node} (h : Intact t) {node : Node} (hnode : node ∈ t.rows) {id : Nat}
    (hid : id ∈ node.ancestorIds) : found t id = true := by
  obtain ⟨l, -, hl, -⟩ := h.sound.exists_path (paths_of_mem hnode) hid
  rw [← isSome_paths, hl]
  rfl

theorem Intact.ascends {t : Table Node} (h : Intact t) {node : Node} (hnode : node ∈ t.rows) :
    Lineage.Ascends (parentOf t) node.pathIds.reverse := by
  rw [Node.pathIds, List.reverse_append, List.reverse_singleton, List.singleton_append, ← up_paths]
  exact h.sound.ascends (paths_of_mem hnode)

theorem Intact.checkNode {t : Table Node} (h : Intact t) {node : Node} (hnode : node ∈ t.rows) {parents : Observed}
    (hp : parents.Of (parentOf t)) :
    (checkNode t parents node).2 = none ∧ (checkNode t parents node).1.Of (parentOf t) := by
  have hnone : (node.ancestorIds.find? fun id => !found t id) = none := by
    rw [List.find?_eq_none]
    intro id hid
    rw [h.found_ancestor hnode hid]
    decide
  rw [Nodes.checkNode, if_pos (h.format node hnode), hnone]
  exact observe_of hp (forall_pairs_iff.mpr (h.ascends hnode))

theorem Intact.listFrom {t : Table Node} (h : Intact t) {nodes : List Node} (hnodes : ∀ node ∈ nodes, node ∈ t.rows)
    {parents : Observed} (hp : parents.Of (parentOf t)) : listFrom t parents nodes = [] := by
  induction nodes generalizing parents with
  | nil => rfl
  | cons node nodes ih =>
    obtain ⟨hnone, hof⟩ := h.checkNode (hnodes node List.mem_cons_self) hp
    rw [listFrom_cons, hnone]
    exact ih (fun n hn => hnodes n (List.mem_cons_of_mem _ hn)) hof

theorem listAncestryIntegrity_iff {t : Table Node} : listAncestryIntegrity t = [] ↔ Intact t := by
  constructor
  · intro h
    obtain ⟨seen, -, hnodes⟩ := listFrom_eq_nil h
    have hrow : ∀ node ∈ t.rows, _ := fun node hnode => hnodes node (mem_findEach.mpr hnode)
    refine ⟨fun node hnode => (hrow node hnode).1, ?_⟩
    -- the parents that were seen lead from each node along its path
    refine @Lineage.sound_of_ascends _ _ (fun id => (seen id).join) ?_ ?_
    · intro id l hl ancestor hancestor
      obtain ⟨node, hnode, -, rfl⟩ := paths_eq_some.mp hl
      rw [isSome_paths]
      exact (hrow node hnode).2.1 ancestor hancestor
    · intro id l hl
      obtain ⟨node, hnode, rfl, rfl⟩ := paths_eq_some.mp hl
      have hpairs : ∀ e ∈ pairs node.pathIds, (seen e.1).join = e.2 := by
        intro e he
        rw [(hrow node hnode).2.2 e he]
        rfl
      have hasc := (@forall_pairs_iff (fun id => (seen id).join) _).mp hpairs
      rw [Node.pathIds, List.reverse_append, List.reverse_singleton, List.singleton_append] at hasc
      exact hasc
  · intro h
    refine h.listFrom (fun node hnode => mem_findEach.mp hnode) ?_
    intro id p hp
    cases hp

/-- The report is empty, and nothing is raised, exactly when all columns have the format and the path of each node
is the path of its parent followed by the parent. -/
theorem ancestry_integrity_iff (t : Table Node) :
    (listAncestryIntegrity t = [] ↔ Intact t) ∧ (checkAncestryIntegrity t = .ok () ↔ Intact t) := by
  refine ⟨listAncestryIntegrity_iff, ?_⟩
  rw [checkAncestryIntegrity, raiseFrom_eq, ← listAncestryIntegrity_iff, listAncestryIntegrity]
  cases listFrom t (fun _ => none) (findEach t) with
  | nil => exact iff_of_true rfl rfl
  | cons exception rest => exact iff_of_false (by simp) (by simp)

end Ancestry.Nodes
