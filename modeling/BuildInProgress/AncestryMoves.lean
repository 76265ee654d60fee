import BuildInProgress.AncestryQueries
import BuildInProgress.Lib.Run

/-!
# Moving nodes

`node.parent_id = id; node.save` in `ancestry-2.1.0` writes the column of the node.  The hook that writes the columns
below it, `update_descendants_with_new_ancestry`, is not registered in this copy of the gem.  Without it the check
stays quiet exactly along the runs whose moves change no node that has children; with it every run of moves does to
the columns what it does to a table of parents.
-/

namespace Ancestry.Nodes

open Text Relation Lineage

/-! ## Moves -/

/-- `node.parent_id = parent` for the node with the id `id`. -/
structure Move where
  id : Nat
  parent : Option Nat
  deriving DecidableEq, Repr

/-- `valid?`: the format of the column, and `ancestry_exclude_self`. -/
def validNode (node : Node) : Bool := validFormat node.ancestry && !node.ancestorIds.contains node.id

/-- The node the id names, or nothing for a blank id; `unscoped_find` raises when there is no such node. -/
def parentNode (t : Table Node) : Option Nat → Option (Option Node)
  | none => some none
  | some id => (t.find? id).map some

/-- The node with the column that `parent=` writes, when `save` goes through. -/
def moved (t : Table Node) (r : Move) : Option Node := do
  let node ← t.find? r.id
  let parent ← parentNode t r.parent
  (some { node with ancestry := parent.map Node.childAncestry }).filter validNode

/-- The move as it is: only the node is saved. -/
def move (t : Table Node) (r : Move) : Table Node :=
  match moved t r with
  | some node => writeAncestry t node.id node.ancestry
  | none => t

/-- `column.gsub(/^#{child_ancestry}/, child)` for a column that starts with `child_ancestry` and has no line break
in front of its end. -/
def replaceStart (childAncestry child column : Text) : Text := child ++ column.drop childAncestry.length

/-- A row after the hook, which writes the descendants. -/
def withNewAncestry (childAncestry child : Text) (d : Node) : Node :=
  if descendant childAncestry d.ancestry then { d with ancestry := d.ancestry.map (replaceStart childAncestry child) }
  else d

theorem key_withNewAncestry (childAncestry child : Text) (d : Node) :
    Keyed.key (withNewAncestry childAncestry child d) = Keyed.key d := by
  rw [withNewAncestry]
  split <;> rfl

/-- `update_descendants_with_new_ancestry` before `node` is saved in place of `old`. -/
def updateDescendantsWithNewAncestry (t : Table Node) (old node : Node) : Table Node :=
  if old.ancestry ≠ node.ancestry ∧ validNode node then
    t.map (withNewAncestry old.childAncestry node.childAncestry)
      (key_withNewAncestry old.childAncestry node.childAncestry)
  else t

/-- The move with the hook before `save`. -/
def hookedMove (t : Table Node) (r : Move) : Table Node :=
  match t.find? r.id, moved t r with
  | some old, some node => writeAncestry (updateDescendantsWithNewAncestry t old node) node.id node.ancestry
  | _, _ => t

/-! ## What a move writes -/

section Moved

variable {t : Table Node} {r : Move} {node : Node}

/-- The new path of a node below `parent`. -/
def pathBelow (parent : Option Node) : List Nat := (parent.map Node.pathIds).getD []

theorem moved_cases (h : moved t r = some node) :
    ∃ old ∈ t.rows, ∃ parent, parentNode t r.parent = some parent ∧ old.id = r.id ∧ node.id = r.id ∧
      node.ancestry = parent.map Node.childAncestry ∧ validNode node = true := by
  rw [moved] at h
  obtain ⟨old, hold, h⟩ := Option.bind_eq_some_iff.mp h
  obtain ⟨parent, hparent, h⟩ := Option.bind_eq_some_iff.mp h
  obtain ⟨hmem, hid⟩ := Table.find?_eq_some.mp hold
  have hid : old.id = r.id := hid
  obtain ⟨hnode, hvalid⟩ := Option.filter_eq_some_iff.mp h
  obtain rfl := Option.some.inj hnode
  exact ⟨old, hmem, parent, hparent, hid, hid, rfl, hvalid⟩

theorem parentNode_cases {parent : Option Node} (h : parentNode t r.parent = some parent) :
    r.parent = none ∧ parent = none ∨ ∃ p ∈ t.rows, r.parent = some p.id ∧ parent = some p := by
  cases hr : r.parent with
  | none =>
    rw [hr, parentNode, Option.some.injEq] at h
    exact Or.inl ⟨rfl, h.symm⟩
  | some id =>
    rw [hr, parentNode] at h
    obtain ⟨p, hp, rfl⟩ := Option.map_eq_some_iff.mp h
    obtain ⟨hmem, hid⟩ := Table.find?_eq_some.mp hp
    have hid : p.id = id := hid
    exact Or.inr ⟨p, hmem, by rw [hid], rfl⟩

/-- The column that is written is that of a child of the parent. -/
theorem Written.parentColumn (hw : Written t) {parent : Option Node} (h : parentNode t r.parent = some parent) :
    parent.map Node.childAncestry = written (pathBelow parent) := by
  rcases parentNode_cases h with ⟨-, rfl⟩ | ⟨p, hp, -, rfl⟩
  · rfl
  · rw [Option.map_some, hw.childAncestry_eq hp, pathBelow, Option.map_some, Option.getD_some, written,
      if_neg (pathIds_ne_nil p)]

/-- A path below a node of the table. -/
theorem pathBelow_cases {parent : Option Node} (h : parentNode t r.parent = some parent) :
    pathBelow parent = [] ∨ ∃ q b, pathBelow parent = q ++ [b] ∧ paths t b = some q := by
  rcases parentNode_cases h with ⟨-, rfl⟩ | ⟨p, hp, -, rfl⟩
  · exact Or.inl rfl
  · exact Or.inr ⟨p.ancestorIds, p.id, rfl, paths_of_mem hp⟩

theorem getLast_pathBelow {parent : Option Node} (h : parentNode t r.parent = some parent) :
    (pathBelow parent).getLast? = r.parent := by
  rcases parentNode_cases h with ⟨hr, rfl⟩ | ⟨p, -, hr, rfl⟩
  · rw [hr]
    rfl
  · rw [hr]
    exact List.getLast?_concat

/-- A node is saved when the parent is not below it. -/
theorem Written.moved_iff (hw : Written t) :
    moved t r = some node ↔ ∃ parent, found t r.id = true ∧ parentNode t r.parent = some parent ∧
      r.id ∉ pathBelow parent ∧ node = ⟨r.id, written (pathBelow parent)⟩ := by
  constructor
  · intro h
    obtain ⟨old, hold, parent, hparent, hid, hnode, hcolumn, hvalid⟩ := moved_cases h
    have hwritten := hcolumn.trans (hw.parentColumn hparent)
    refine ⟨parent, found_iff.mpr ⟨old, hold, hid⟩, hparent, ?_, ?_⟩
    · rw [validNode, Bool.and_eq_true, Bool.not_eq_true', Node.ancestorIds, hwritten, ancestorIds_written,
        hnode] at hvalid
      simpa using hvalid.2
    · rw [← hnode, ← hwritten]
  · rintro ⟨parent, hfound, hparent, hnot, rfl⟩
    obtain ⟨old, hold⟩ := Option.isSome_iff_exists.mp hfound
    have hid : old.id = r.id := (Table.find?_eq_some.mp hold).2
    have hvalid : validNode ⟨r.id, written (pathBelow parent)⟩ = true := by
      rw [validNode, Bool.and_eq_true, Bool.not_eq_true', Node.ancestorIds, ancestorIds_written]
      exact ⟨validFormat_written _, by simpa using hnot⟩
    rw [moved, hold, Option.bind_eq_bind, Option.bind_some, hparent, Option.bind_eq_bind, Option.bind_some, hid,
      hw.parentColumn hparent, Option.filter_some, if_pos hvalid]

end Moved

/-! ## Moves without the hook -/

section Plain

variable {t : Table Node} {r : Move}

theorem paths_writeAncestry {id : Nat} (hfound : found t id = true) (l : List Nat) :
    paths (writeAncestry t id (written l)) = Function.update (paths t) id (some l) := by
  funext x
  rw [paths, writeAncestry, Table.find?_modify]
  by_cases hx : x = id
  · obtain ⟨node, hnode⟩ := Option.isSome_iff_exists.mp hfound
    have hid : Keyed.key node = id := (Table.find?_eq_some.mp hnode).2
    rw [hx, Function.update_self, hnode, Option.map_some, Option.map_some, if_pos hid, Node.ancestorIds,
      ancestorIds_written]
  · rw [Function.update_of_ne hx, paths]
    cases hnode : t.find? x with
    | none => rfl
    | some node =>
      have hid : Keyed.key node ≠ id := (Table.find?_eq_some.mp hnode).2 ▸ hx
      rw [Option.map_some, Option.map_some, if_neg hid, Option.map_some]

theorem mem_writeAncestry {id : Nat} {column : Option Text} {node : Node}
    (h : node ∈ (writeAncestry t id column).rows) :
    node.id = id ∧ node.ancestry = column ∨ node ∈ t.rows := by
  rw [writeAncestry, Table.rows_modify] at h
  obtain ⟨n, hn, heq⟩ := List.mem_map.mp h
  split at heq
  · rename_i hid
    rw [← heq]
    exact Or.inl ⟨hid, rfl⟩
  · exact Or.inr (heq ▸ hn)

theorem Written.writeAncestry (hw : Written t) (id : Nat) (l : List Nat) :
    Written (writeAncestry t id (written l)) := by
  intro node hnode
  rcases mem_writeAncestry hnode with ⟨-, hcolumn⟩ | hnode
  · rw [Node.ancestorIds, hcolumn, ancestorIds_written]
  · exact hw node hnode

theorem Written.validFormat (hw : Written t) {node : Node} (hnode : node ∈ t.rows) :
    validFormat node.ancestry = true := by
  rw [hw node hnode]
  exact validFormat_written _

theorem Written.move (hw : Written t) (r : Move) : Written (move t r) := by
  rw [Nodes.move]
  cases h : moved t r with
  | none => exact hw
  | some node =>
    obtain ⟨parent, -, -, -, rfl⟩ := hw.moved_iff.mp h
    exact hw.writeAncestry _ _

/-- The move saves nothing, or no other column, or has no children to mind. -/
def Harmless (t : Table Node) (r : Move) : Prop :=
  ∀ old node, t.find? r.id = some old → moved t r = some node → node.ancestry = old.ancestry ∨ isChildless t old = true

theorem Intact.move_iff (h : Intact t) (hw : Written t) : Harmless t r ↔ Intact (Nodes.move t r) := by
  rw [Nodes.move]
  cases hmoved : moved t r with
  | none => exact iff_of_true (fun old node _ hn => by cases hmoved.symm.trans hn) h
  | some node =>
    obtain ⟨parent, hfound, hparent, hnot, rfl⟩ := hw.moved_iff.mp hmoved
    obtain ⟨old, hold⟩ := Option.isSome_iff_exists.mp hfound
    obtain ⟨hmem, hid⟩ := Table.find?_eq_some.mp hold
    have hid : old.id = r.id := hid
    have hpath : paths t r.id = some old.ancestorIds := hid ▸ paths_of_mem hmem
    have hsound := h.sound.update_iff hpath hnot (pathBelow_cases hparent)
    rw [← paths_writeAncestry hfound] at hsound
    have hcolumn : written (pathBelow parent) = old.ancestry ↔ pathBelow parent = old.ancestorIds := by
      rw [hw old hmem]
      exact ⟨written_inj, fun heq => by rw [heq]⟩
    have hfree : isChildless t old = true ↔ ∀ b q, paths t b = some q → r.id ∉ q := by
      rw [h.isChildless_iff hw hmem, hid]
      constructor
      · intro hno b q hb
        obtain ⟨d, hd, -, rfl⟩ := paths_eq_some.mp hb
        exact hno d hd
      · exact fun hno d hd => hno d.id d.ancestorIds (paths_of_mem hd)
    have hharmless : Harmless t r ↔ written (pathBelow parent) = old.ancestry ∨ isChildless t old = true := by
      constructor
      · exact fun hr => hr old _ hold hmoved
      · intro hr o n ho hn
        rw [hold, Option.some.injEq] at ho
        rw [hmoved, Option.some.injEq] at hn
        rw [← ho, ← hn]
        exact hr
    rw [hharmless, hcolumn, hfree, ← hsound]
    have hwritten := hw.writeAncestry r.id (pathBelow parent)
    exact ⟨fun hs => ⟨fun n hn => hwritten.validFormat hn, hs⟩, fun hi => hi.sound⟩

/-- The check stays quiet in every state of a run of moves exactly when no move gives another parent to a node that
has children. -/
theorem moves_keep_integrity_iff (h : listAncestryIntegrity t = []) (hw : Written t) (rs : List Move) :
    (∀ n, listAncestryIntegrity (Run.after move t (rs.take n)) = []) ↔ Run.Along move Harmless t rs := by
  simp only [listAncestryIntegrity_iff] at h ⊢
  refine Run.along_iff_forall_take (A := fun _ _ => True) (J := Written) (fun s r hs _ => hs.move r) ?_ hw h
    (Run.Along.of_forall fun _ _ => trivial)
  intro s r hs hi _
  exact hi.move_iff hs

/-- A node without children may go to the top, and back. -/
theorem moves_threeGenerations :
    listAncestryIntegrity (Run.after move threeGenerations [⟨3, none⟩, ⟨3, some 2⟩]) = [] :=
  have hchildless : ∀ {t : Table Node} {r : Move}, (∀ old, t.find? r.id = some old → isChildless t old = true) →
      Harmless t r := fun h old _ hold _ => Or.inr (h old hold)
  (@moves_keep_integrity_iff threeGenerations (by decide +kernel) (by decide +kernel)
    [⟨3, none⟩, ⟨3, some 2⟩]).mpr
      ⟨hchildless fun old hold => by rw [← Option.some.inj hold]; decide +kernel,
        hchildless fun old hold => by rw [← Option.some.inj hold]; decide +kernel, trivial⟩ 2

end Plain

/-! ## Moves with the hook -/

section Hooked

variable {t : Table Node} {r : Move}

theorem replaceStart_render {l m : List Nat} (hl : l ≠ []) (hm : m ≠ []) (k : List Nat) :
    replaceStart (render l) (render m) (render (l ++ k)) = render (m ++ k) := by
  rw [replaceStart]
  by_cases hk : k = []
  · rw [hk, List.append_nil, List.append_nil, List.drop_length, List.append_nil]
  · rw [render_append hl hk, render_append hm hk, List.drop_left]

/-- Rows below a node are written to hang below the path `l`, the others stay. -/
theorem Intact.paths_map (h : Intact t) (hw : Written t) {old : Node} (hold : old ∈ t.rows) {l : List Nat}
    {f : Node → Node} (hf : ∀ d, Keyed.key (f d) = Keyed.key d)
    (hbelow : ∀ d ∈ t.rows, ∀ s, d.ancestorIds = old.pathIds ++ s → (f d).ancestry = written (l ++ old.id :: s))
    (hkeep : ∀ d ∈ t.rows, old.id ∉ d.ancestorIds → f d = d) :
    Written (t.map f hf) ∧ (t.map f hf).rows.map Node.id = t.rows.map Node.id ∧
      (∀ b s, paths t b = some (old.ancestorIds ++ old.id :: s) →
        paths (t.map f hf) b = some (l ++ old.id :: s)) ∧
      ∀ b q, paths t b = some q → old.id ∉ q → paths (t.map f hf) b = some q := by
  have hpaths : ∀ b d, d ∈ t.rows → d.id = b → paths (t.map f hf) b = some (f d).ancestorIds := by
    intro b d hd hid
    have hfound : t.find? d.id = some d := Table.find?_of_mem hd
    rw [paths, Table.find?_map, ← hid, hfound]
    rfl
  refine ⟨?_, ?_, ?_, ?_⟩
  · intro d' hd'
    obtain ⟨d, hd, rfl⟩ := List.mem_map.mp hd'
    by_cases hmem : old.id ∈ d.ancestorIds
    · obtain ⟨s, hs⟩ := (h.pathIds_prefix hold hd).mpr hmem
      rw [Node.ancestorIds, hbelow d hd s hs.symm, ancestorIds_written]
    · rw [hkeep d hd hmem]
      exact hw d hd
  · rw [Table.rows_map, List.map_map]
    exact List.map_congr_left fun d _ => hf d
  · intro b s hb
    obtain ⟨d, hd, hid, hs⟩ := paths_eq_some.mp hb
    have hs' : d.ancestorIds = old.pathIds ++ s := by rw [hs, Node.pathIds, List.append_assoc, List.singleton_append]
    rw [hpaths b d hd hid, Node.ancestorIds, hbelow d hd s hs', ancestorIds_written]
  · intro b q hb hmem
    obtain ⟨d, hd, hid, hs⟩ := paths_eq_some.mp hb
    rw [hpaths b d hd hid, hkeep d hd (hs ▸ hmem), hs]

/-- The hook gives the new path to what is below the node. -/
theorem Intact.paths_hook (h : Intact t) (hw : Written t) {old : Node} (hold : old ∈ t.rows) {l : List Nat}
    (hnot : old.id ∉ l) :
    let t' := updateDescendantsWithNewAncestry t old ⟨old.id, written l⟩
    Written t' ∧ t'.rows.map Node.id = t.rows.map Node.id ∧
      (∀ b s, paths t b = some (old.ancestorIds ++ old.id :: s) → paths t' b = some (l ++ old.id :: s)) ∧
      ∀ b q, paths t b = some q → old.id ∉ q → paths t' b = some q := by
  have hchild : Node.childAncestry ⟨old.id, written l⟩ = render (l ++ [old.id]) := by
    rw [Node.childAncestry, written]
    split
    · rename_i hnil
      rw [childAncestry_blank (by rfl), hnil, List.nil_append]
    · rename_i hne
      exact childAncestry_render hne old.id
  have hvalid : validNode ⟨old.id, written l⟩ = true := by
    rw [validNode, Bool.and_eq_true, Bool.not_eq_true', Node.ancestorIds, ancestorIds_written]
    exact ⟨validFormat_written _, by simpa using hnot⟩
  show Written (updateDescendantsWithNewAncestry _ _ _) ∧ _
  rw [updateDescendantsWithNewAncestry]
  by_cases hsame : old.ancestry = written l
  · -- nothing is written, and the path is the one it was
    rw [if_neg fun hc => hc.1 hsame]
    have hl : old.ancestorIds = l := by rw [Node.ancestorIds, hsame, ancestorIds_written]
    exact ⟨hw, rfl, fun b s hb => hl ▸ hb, fun b q hb _ => hb⟩
  · rw [if_pos ⟨hsame, hvalid⟩]
    refine h.paths_map hw hold _ ?_ ?_
    · intro d hd s hs
      have hdesc : descendant old.childAncestry d.ancestry = true := (hw.descendant_iff hold hd).mpr ⟨s, hs.symm⟩
      rw [withNewAncestry, if_pos hdesc]
      show d.ancestry.map _ = _
      rw [hw d hd, hs, hchild, written_of_ne_nil (l := old.pathIds ++ s) (by simp [Node.pathIds]),
        written_of_ne_nil (l := l ++ old.id :: s) (by simp), Option.map_some, hw.childAncestry_eq hold,
        replaceStart_render (pathIds_ne_nil old) (by simp), List.append_assoc,
        List.singleton_append]
    · intro d hd hmem
      refine if_neg fun hdesc => hmem ?_
      exact (h.pathIds_prefix hold hd).mp ((hw.descendant_iff hold hd).mp hdesc)

open Classical in
/-- The move on a table of parents: nothing happens when an id is unknown or the new parent is the node or below
it. -/
noncomputable def reparent (known : Nat → Bool) (parents : Nat → Option Nat) (r : Move) : Nat → Option Nat :=
  if known r.id = true ∧ ∀ p, r.parent = some p →
      known p = true ∧ ¬ ReflTransGen (fun a b => parents a = some b) p r.id then
    Function.update parents r.id r.parent
  else parents

theorem Intact.reparent_cond (h : Intact t) (hw : Written t) :
    (found t r.id = true ∧ ∀ p, r.parent = some p →
      found t p = true ∧ ¬ ReflTransGen (fun a b => parentOf t a = some b) p r.id) ↔ (moved t r).isSome = true := by
  rw [Option.isSome_iff_exists]
  constructor
  · rintro ⟨hfound, hparent⟩
    cases hr : r.parent with
    | none =>
      exact ⟨_, hw.moved_iff.mpr ⟨none, hfound, by rw [hr]; rfl, List.not_mem_nil, rfl⟩⟩
    | some p =>
      obtain ⟨hp, hnot⟩ := hparent p hr
      obtain ⟨parent, hrow⟩ := Option.isSome_iff_exists.mp hp
      obtain ⟨hmem, hid⟩ := Table.find?_eq_some.mp hrow
      have hid : parent.id = p := hid
      refine ⟨_, hw.moved_iff.mpr ⟨some parent, hfound, by rw [hr, parentNode, hrow]; rfl, ?_, rfl⟩⟩
      show r.id ∉ parent.pathIds
      rw [h.mem_pathIds hmem, hid]
      exact hnot
  · rintro ⟨node, hmoved⟩
    obtain ⟨parent, hfound, hparent, hnot, -⟩ := hw.moved_iff.mp hmoved
    refine ⟨hfound, ?_⟩
    intro p hp
    rcases parentNode_cases hparent with ⟨hr, -⟩ | ⟨parent, hmem, hr, rfl⟩
    · rw [hr] at hp
      cases hp
    · rw [hr, Option.some.injEq] at hp
      rw [← hp]
      refine ⟨found_iff.mpr ⟨parent, hmem, rfl⟩, ?_⟩
      rw [← h.mem_pathIds hmem]
      exact hnot

theorem hookedMove_eq {old node : Node} (hold : t.find? r.id = some old) (hmoved : moved t r = some node) :
    Nodes.hookedMove t r =
      writeAncestry (updateDescendantsWithNewAncestry t old node) node.id node.ancestry := by
  rw [Nodes.hookedMove, hold, hmoved]

/-- One move with the hook is one move on the table of parents. -/
theorem Intact.hookedMove (h : Intact t) (hw : Written t) :
    Intact (hookedMove t r) ∧ Written (hookedMove t r) ∧ found (hookedMove t r) = found t ∧
      parentOf (hookedMove t r) = reparent (found t) (parentOf t) r := by
  cases hmoved : moved t r with
  | none =>
    have hcond : ¬ (moved t r).isSome = true := by rw [hmoved]; decide
    have hstays : Nodes.hookedMove t r = t := by
      rw [Nodes.hookedMove, hmoved]
      cases t.find? r.id <;> rfl
    rw [hstays, reparent, if_neg fun hc => hcond ((h.reparent_cond hw).mp hc)]
    exact ⟨h, hw, rfl, rfl⟩
  | some node =>
    have hcond : (moved t r).isSome = true := by rw [hmoved]; rfl
    rw [reparent, if_pos ((h.reparent_cond hw).mpr hcond)]
    obtain ⟨parent, hfound, hparent, hnot, rfl⟩ := hw.moved_iff.mp hmoved
    obtain ⟨old, hold⟩ := Option.isSome_iff_exists.mp hfound
    obtain ⟨hmem, hid⟩ := Table.find?_eq_some.mp hold
    have hid : old.id = r.id := hid
    rw [hookedMove_eq hold hmoved, ← hid]
    rw [← hid] at hnot
    obtain ⟨hwritten, hids, hbelow, hkeep⟩ := h.paths_hook hw hmem hnot
    generalize updateDescendantsWithNewAncestry t old ⟨old.id, written (pathBelow parent)⟩ = t'
      at hwritten hids hbelow hkeep
    have hfound' : found t' = found t := found_congr hids
    have hold' : found t' old.id = true := by rw [hfound', hid, hfound]
    have hpaths := paths_writeAncestry hold' (pathBelow parent)
    have hids' : found (writeAncestry t' old.id (written (pathBelow parent))) = found t := by
      rw [← hfound']
      exact found_congr (ids_writeAncestry _ _ _)
    have hself : paths (writeAncestry t' old.id (written (pathBelow parent))) old.id = some (pathBelow parent) := by
      rw [hpaths, Function.update_self]
    obtain ⟨hsound, hup, hup'⟩ := h.sound.move (paths_of_mem hmem) hnot (pathBelow_cases hparent) hself
      (by
        intro b s hb
        have hne : b ≠ old.id := by
          rintro rfl
          exact h.sound.notMem hb (by simp)
        rw [hpaths, Function.update_of_ne hne, hbelow b s hb])
      (by
        intro b q hb hne hmem'
        rw [hpaths, Function.update_of_ne hne, hkeep b q hb hmem'])
      (by
        intro b hb
        rw [isSome_paths, hids'] at hb
        rw [isSome_paths, hb])
    have hwritten' := hwritten.writeAncestry old.id (pathBelow parent)
    refine ⟨⟨fun n hn => hwritten'.validFormat hn, hsound⟩, hwritten', hids', ?_⟩
    funext b
    rw [← up_paths]
    by_cases hb : b = old.id
    · rw [hb, hup, Function.update_self, getLast_pathBelow hparent]
    · rw [hup' b hb, Function.update_of_ne hb, up_paths]

/-- With the hook the check stays quiet over every run of moves, the columns stay as the gem writes them, and the
parents change as in a table of parents. -/
theorem hooked_moves_reparent (h : listAncestryIntegrity t = []) (hw : Written t) (rs : List Move) :
    listAncestryIntegrity (Run.after hookedMove t rs) = [] ∧ Written (Run.after hookedMove t rs) ∧
      parentOf (Run.after hookedMove t rs) = Run.after (reparent (found t)) (parentOf t) rs := by
  rw [listAncestryIntegrity_iff] at h ⊢
  induction rs generalizing t with
  | nil => exact ⟨h, hw, rfl⟩
  | cons r rs ih =>
    obtain ⟨hi, hw', hfound, hparent⟩ := h.hookedMove hw (r := r)
    have hrest := ih hi hw'
    rw [hfound, hparent] at hrest
    exact hrest

/-- A node that takes its child along. -/
theorem hookedMoves_threeGenerations :
    listAncestryIntegrity (Run.after hookedMove threeGenerations [⟨2, none⟩]) = [] ∧
      parentOf (Run.after hookedMove threeGenerations [⟨2, none⟩]) 3 = some 2 :=
  have h := hooked_moves_reparent (t := threeGenerations) (by decide +kernel) (by decide +kernel) [⟨2, none⟩]
  ⟨h.1, by rw [h.2.2]; decide +kernel⟩

end Hooked

end Ancestry.Nodes
