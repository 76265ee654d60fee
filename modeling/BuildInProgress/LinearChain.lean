import BuildInProgress.ProjectPages
import BuildInProgress.StepRuns
import Mathlib.Logic.Relation

/-!
# The scripts that put the steps into one line

`reset_step_positions` numbers the steps in the order of their publication, and `reset_ancestry` is to hang each one
below the one in front of it.  The first does what it is for.  The second takes the step at `position - 1` of the
ordered list, which for the first step is the last one, and writes only the id of that step and not its path.
-/

open Text Ancestry

namespace Database

/-- `array[i]`; a negative index counts from the end. -/
def arrayAt {α : Type} (l : List α) (i : Int) : Option α :=
  if 0 ≤ i then l[i.toNat]? else if i.natAbs ≤ l.length then l[l.length - i.natAbs]? else none

/-- `Project#reset_step_positions` -/
def resetStepPositions (now p : Nat) (db : Database) : Database :=
  (byPublication (db.projectSteps p)).zipIdx.foldl
    (fun db e => (db.saveStep (some now) { e.1 with position := e.2 }).getD db) db

/-- The loop over the steps in order.  Each turn asks for the order again, and an index outside raises. -/
def linkSteps (now p : Nat) : List Step → Database → Bool × Database
  | [], db => (true, db)
  | s :: ss, db =>
    match arrayAt (db.orderedSteps p) (s.position - 1) with
    | none => (false, db)
    | some t => linkSteps now p ss ((db.saveStep (some now) { s with ancestry := some (toS t.id) }).getD db)

/-- `Project#reset_ancestry` -/
def resetAncestry (now p : Nat) (db : Database) : Bool × Database := linkSteps now p (db.orderedSteps p) db

/-- The step `b` of the project has `a` among its ancestors. -/
def Above (db : Database) (p a b : Nat) : Prop := ∃ s ∈ db.projectSteps p, s.id = b ∧ a ∈ ancestorIds s.ancestry

/-- The steps of `db` are numbered in the order of their publication and form one line from a root. -/
structure LinearChain (db db' : Database) (p : Nat) : Prop where
  same : (db'.projectSteps p).map Step.id = (db.projectSteps p).map Step.id
  numbered : db'.broken p = false
  ordered : (db'.orderedSteps p).Pairwise fun s t =>
    ∃ a b, s.publishedOn = some a ∧ t.publishedOn = some b ∧ a < b
  root : ∀ s ∈ (db'.orderedSteps p).head?, s.ancestry = none
  ancestors : ∀ k s, (db'.orderedSteps p)[k]? = some s →
    ancestorIds s.ancestry = ((db'.orderedSteps p).take k).map Step.id
  acyclic : ∀ i, ¬ Relation.TransGen (db'.Above p) i i

/-! ## Saving the steps one after the other -/

variable {db : Database} {p : Nat}

theorem rows_saved (db : Database) (now : Nat) {s : Step} (h : s.valid = true) : ((db.saveStep (some now) s).getD db).steps.rows =
    db.steps.rows.map fun r => if r.id = s.id then { s with updatedAt := now } else r := by
  rw [saveStep, if_pos h, Option.getD_some, rows_storeStep]
  rfl

/-- The row of a step once its number is written; the numbers begin with `k`. -/
def renumbered (now k : Nat) (ids : List Nat) (r : Step) : Step :=
  if r.id ∈ ids then { r with position := (k + ids.idxOf r.id : Nat), updatedAt := now } else r

theorem renumbered_of_mem {now k : Nat} {ids : List Nat} {r : Step} (h : r.id ∈ ids) :
    renumbered now k ids r = { r with position := (k + ids.idxOf r.id : Nat), updatedAt := now } := if_pos h

theorem renumbered_of_notMem {now k : Nat} {ids : List Nat} {r : Step} (h : r.id ∉ ids) :
    renumbered now k ids r = r := if_neg h

/-- The number of the first step is written before the others get theirs. -/
theorem renumbered_cons {now k : Nat} {s r : Step} {ids : List Nat} (hs : s.id ∉ ids) (hr : r.id = s.id → r = s) :
    renumbered now (k + 1) ids (if r.id = s.id then { s with position := k, updatedAt := now } else r) =
      renumbered now k (s.id :: ids) r := by
  by_cases hid : r.id = s.id
  · obtain rfl := hr hid
    rw [if_pos rfl, renumbered_of_mem List.mem_cons_self, List.idxOf_cons_self]
    exact renumbered_of_notMem hs
  · rw [if_neg hid]
    by_cases hmem : r.id ∈ ids
    · rw [renumbered_of_mem hmem, renumbered_of_mem (List.mem_cons_of_mem _ hmem),
        List.idxOf_cons_ne _ (Ne.symm hid), show k + 1 + ids.idxOf r.id = k + (ids.idxOf r.id).succ by omega]
    · have hnot : r.id ∉ s.id :: ids := fun h => (List.mem_cons.mp h).elim hid hmem
      rw [renumbered_of_notMem hmem, renumbered_of_notMem hnot]

theorem rows_renumber (now : Nat) {ss : List Step} (k : Nat) (h : ∀ s ∈ ss, s ∈ db.steps.rows ∧ s.valid = true)
    (hn : (ss.map Step.id).Nodup) :
    ((ss.zipIdx k).foldl (fun db e => (db.saveStep (some now) { e.1 with position := e.2 }).getD db) db).steps.rows =
      db.steps.rows.map (renumbered now k (ss.map Step.id)) := by
  induction ss generalizing k db with
  | nil =>
    refine (List.map_eq_self_of_forall fun r _ => ?_).symm
    exact if_neg List.not_mem_nil
  | cons s ss ih =>
    rw [List.map_cons, List.nodup_cons] at hn
    obtain ⟨hs, hvalid⟩ := h s List.mem_cons_self
    have hrows := rows_saved db now (show ({ s with position := k } : Step).valid = true from hvalid)
    have hrest : ∀ t ∈ ss, t.id ≠ s.id := fun t ht hid => hn.1 (hid ▸ List.mem_map_of_mem ht)
    rw [List.zipIdx_cons, List.foldl_cons, ih (k + 1) (fun t ht => ?_) hn.2, hrows, List.map_map]
    · apply List.map_congr_left
      intro r hr
      rw [Function.comp, List.map_cons]
      exact renumbered_cons (s := s) hn.1 fun hid => Table.eq_of_key hr hs hid
    · rw [hrows]
      exact ⟨List.mem_map.mpr ⟨t, (h t (List.mem_cons_of_mem s ht)).1, if_neg (hrest t ht)⟩,
        (h t (List.mem_cons_of_mem s ht)).2⟩

/-! ## The positions -/

/-- Rows that keep their ids, projects and positions keep their order. -/
theorem steps_map {db db' : Database} {g : Step → Step} (hrows : db'.steps.rows = db.steps.rows.map g)
    (hproject : ∀ r, (g r).projectId = r.projectId) :
    db'.projectSteps p = (db.projectSteps p).map g := by
  rw [projectSteps, hrows, List.filter_map, projectSteps]
  congr 1
  apply List.filter_congr
  intro r _
  rw [Function.comp, hproject]

theorem renumbered_same (now k : Nat) (ids : List Nat) (r : Step) : (renumbered now k ids r).id = r.id ∧
    (renumbered now k ids r).projectId = r.projectId ∧ (renumbered now k ids r).ancestry = r.ancestry ∧
    (renumbered now k ids r).publishedOn = r.publishedOn ∧ (renumbered now k ids r).valid = r.valid := by
  rw [renumbered]
  split
  · exact ⟨rfl, rfl, rfl, rfl, rfl⟩
  · exact ⟨rfl, rfl, rfl, rfl, rfl⟩

theorem mem_byPublication {ss : List Step} {s : Step} : s ∈ byPublication ss ↔ s ∈ ss := List.mem_insertionSort _

theorem perm_byPublication (ss : List Step) : (byPublication ss).Perm ss := List.perm_insertionSort _ _

/-- What the first script writes into a row. -/
def numberedRow (now p : Nat) (db : Database) : Step → Step :=
  renumbered now 0 ((byPublication (db.projectSteps p)).map Step.id)

theorem projectSteps_reset (now : Nat) (hvalid : ∀ s ∈ db.projectSteps p, s.valid = true) :
    (resetStepPositions now p db).projectSteps p = (db.projectSteps p).map (numberedRow now p db) := by
  apply steps_map
  · refine rows_renumber now 0 (fun s hs => ?_) ?_
    · have hs := mem_byPublication.mp hs
      exact ⟨(mem_projectSteps.mp hs).1, hvalid s hs⟩
    · exact ((perm_byPublication _).map Step.id).nodup_iff.mpr (db.nodup_projectSteps p)
  · intro r
    exact (renumbered_same _ _ _ r).2.1

/-- A step gets its place in the order of publication as its position. -/
theorem position_numberedRow (now : Nat) {i : Nat} (hi : i < (byPublication (db.projectSteps p)).length) :
    (numberedRow now p db (byPublication (db.projectSteps p))[i]).position = i := by
  have hn : ((byPublication (db.projectSteps p)).map Step.id).Nodup :=
    ((perm_byPublication _).map Step.id).nodup_iff.mpr (db.nodup_projectSteps p)
  have hidx := hn.idxOf_getElem i (by rw [List.length_map]; exact hi)
  rw [List.getElem_map] at hidx
  rw [numberedRow, renumbered, if_pos (List.mem_map_of_mem (List.getElem_mem hi)), hidx, Nat.zero_add]

theorem orderedSteps_reset (now : Nat) (hvalid : ∀ s ∈ db.projectSteps p, s.valid = true) :
    (resetStepPositions now p db).orderedSteps p = (byPublication (db.projectSteps p)).map (numberedRow now p db) := by
  have hsteps := projectSteps_reset now hvalid
  have horder : ((resetStepPositions now p db).orderedSteps p).map id =
      (byPublication (db.projectSteps p)).map (numberedRow now p db) := by
    apply map_orderedSteps_eq (f := id) Step.position fun s _ => rfl
    · rw [List.map_id, hsteps]
      exact ((perm_byPublication _).map _).symm
    · rw [List.pairwise_map, List.pairwise_iff_getElem]
      intro i j hi hj hlt
      rw [position_numberedRow now, position_numberedRow now]
      exact Int.ofNat_lt.mpr hlt
  rw [List.map_id] at horder
  exact horder

/-- Distinct times of publication are in the order of the sort. -/
theorem pairwise_byPublication {ss : List Step} (hpublished : ∀ s ∈ ss, s.publishedOn ≠ none)
    (hdistinct : (ss.map Step.publishedOn).Nodup) : (byPublication ss).Pairwise fun s t =>
      ∃ a b, s.publishedOn = some a ∧ t.publishedOn = some b ∧ a < b := by
  have hle : ∀ s t : Step, (!descends (· < ·) s.publishedOn t.publishedOn || s.publishedOn == t.publishedOn) = true ↔
      t.publishedOn = none ∨ ∃ a b, s.publishedOn = some a ∧ t.publishedOn = some b ∧ a ≤ b := by
    intro s t
    cases s.publishedOn <;> cases t.publishedOn <;> simp [descends]
    omega
  have htotal : Std.Total fun s t : Step =>
      (!descends (· < ·) s.publishedOn t.publishedOn || s.publishedOn == t.publishedOn) = true := by
    refine ⟨fun s t => ?_⟩
    rw [hle, hle]
    cases s.publishedOn <;> cases t.publishedOn <;> simp
    omega
  have htrans : IsTrans Step fun s t =>
      (!descends (· < ·) s.publishedOn t.publishedOn || s.publishedOn == t.publishedOn) = true := by
    refine ⟨fun s t u => ?_⟩
    rw [hle, hle, hle]
    cases s.publishedOn <;> cases t.publishedOn <;> cases u.publishedOn <;> simp
    omega
  have hsorted := List.pairwise_insertionSort (fun s t : Step =>
    (!descends (· < ·) s.publishedOn t.publishedOn || s.publishedOn == t.publishedOn) = true) ss
  have hnodup : ((byPublication ss).map Step.publishedOn).Nodup :=
    ((perm_byPublication ss).map Step.publishedOn).nodup_iff.mpr hdistinct
  rw [List.Nodup, List.pairwise_map] at hnodup
  refine List.Pairwise.imp_of_mem ?_ (List.Pairwise.and hsorted hnodup)
  intro s t _ ht h
  rcases (hle s t).mp h.1 with hnone | ⟨a, b, ha, hb, hab⟩
  · exact absurd hnone (hpublished t (mem_byPublication.mp ht))
  · refine ⟨a, b, ha, hb, lt_of_le_of_ne hab fun heq => h.2 ?_⟩
    rw [ha, hb, heq]

/-- The numbers are 0, 1, 2, … -/
theorem perm_positions (now : Nat) (hvalid : ∀ s ∈ db.projectSteps p, s.valid = true) :
    (((resetStepPositions now p db).projectSteps p).map Step.position).Perm
      ((List.range ((resetStepPositions now p db).projectSteps p).length).map Int.ofNat) := by
  have hordered := orderedSteps_reset now hvalid
  have hpositions : ((resetStepPositions now p db).orderedSteps p).map Step.position =
      (List.range ((resetStepPositions now p db).orderedSteps p).length).map Int.ofNat := by
    rw [hordered]
    apply List.ext_getElem
    · simp
    · intro i hi hi'
      rw [List.getElem_map, List.getElem_map, List.getElem_map, List.getElem_range]
      exact position_numberedRow now _
  rw [← ((resetStepPositions now p db).perm_orderedSteps p).length_eq, ← hpositions]
  exact (((resetStepPositions now p db).perm_orderedSteps p).map Step.position).symm

/-! ## The ancestries -/

theorem arrayAt_map {α β : Type} (f : α → β) (l : List α) (i : Int) : arrayAt (l.map f) i = (arrayAt l i).map f := by
  rw [arrayAt, arrayAt, List.length_map]
  split
  · rw [List.getElem?_map]
  · split
    · rw [List.getElem?_map]
    · rfl

/-- What a turn writes into the row of its step; `ids` is the order of the steps. -/
def relinked (now : Nat) (ids : List Nat) (r : Step) : Step :=
  match arrayAt ids (r.position - 1) with
  | some t => if t = r.id then r else { r with ancestry := some (toS t), updatedAt := now }
  | none => r

/-- What the second script writes into a row, when it is among those to do. -/
def linked (now : Nat) (ids todo : List Nat) (r : Step) : Step := if r.id ∈ todo then relinked now ids r else r

theorem relinked_some {now t : Nat} {ids : List Nat} {r : Step} (h : arrayAt ids (r.position - 1) = some t) :
    relinked now ids r = if t = r.id then r else { r with ancestry := some (toS t), updatedAt := now } := by
  rw [relinked, h]

theorem linked_of_mem {now : Nat} {ids todo : List Nat} {r : Step} (h : r.id ∈ todo) :
    linked now ids todo r = relinked now ids r := if_pos h

theorem linked_of_notMem {now : Nat} {ids todo : List Nat} {r : Step} (h : r.id ∉ todo) :
    linked now ids todo r = r := if_neg h

theorem linked_same (now : Nat) (ids todo : List Nat) (r : Step) : (linked now ids todo r).id = r.id ∧
    (linked now ids todo r).projectId = r.projectId ∧ (linked now ids todo r).position = r.position ∧
    (linked now ids todo r).publishedOn = r.publishedOn := by
  unfold linked relinked
  split
  · split
    · split
      · exact ⟨rfl, rfl, rfl, rfl⟩
      · exact ⟨rfl, rfl, rfl, rfl⟩
    · exact ⟨rfl, rfl, rfl, rfl⟩
  · exact ⟨rfl, rfl, rfl, rfl⟩

theorem orderedSteps_linked {db db' : Database} {now : Nat} {ids todo : List Nat}
    (hrows : db'.steps.rows = db.steps.rows.map (linked now ids todo)) :
    db'.orderedSteps p = (db.orderedSteps p).map (linked now ids todo) := by
  rw [orderedSteps, orderedSteps, byPosition, byPosition, steps_map hrows fun r => (linked_same now ids todo r).2.1]
  refine (List.map_insertionSort _ _ _ _ fun a _ b _ => ?_).symm
  rw [(linked_same now ids todo a).2.2.1, (linked_same now ids todo b).2.2.1]

/-- One turn: the step is written unless it would hang below itself, where it is not valid. -/
theorem rows_link (now : Nat) {ids : List Nat} {s : Step} {t : Nat} (hs : s ∈ db.steps.rows) (hvalid : s.valid = true)
    (ht : arrayAt ids (s.position - 1) = some t) :
    ((db.saveStep (some now) { s with ancestry := some (toS t) }).getD db).steps.rows =
      db.steps.rows.map (linked now ids [s.id]) := by
  have hpath : ({ s with ancestry := some (toS t) } : Step).valid = true ↔ s.id ∉ [t] :=
    Step.valid_path hvalid rfl rfl (congrArg some (render_singleton t).symm) (by simp)
  have hothers : ∀ r : Step, r.id ≠ s.id → linked now ids [s.id] r = r := fun r hid =>
    linked_of_notMem fun hmem => hid (List.mem_singleton.mp hmem)
  have hown : linked now ids [s.id] s = if t = s.id then s else { s with ancestry := some (toS t), updatedAt := now } := by
    rw [linked_of_mem (List.mem_singleton_self _), relinked_some ht]
  by_cases hsame : t = s.id
  · rw [saveStep, if_neg fun hyes => hpath.mp hyes (by rw [hsame]; exact List.mem_singleton_self _)]
    refine (List.map_eq_self_of_forall fun r hr => ?_).symm
    by_cases hid : r.id = s.id
    · obtain rfl : r = s := Table.eq_of_key hr hs hid
      rw [hown, if_pos hsame]
    · exact hothers r hid
  · rw [rows_saved db now (hpath.mpr fun hmem => hsame (List.mem_singleton.mp hmem).symm)]
    apply List.map_congr_left
    intro r hr
    by_cases hid : r.id = s.id
    · obtain rfl : r = s := Table.eq_of_key hr hs hid
      rw [hown, if_pos rfl, if_neg hsame]
    · rw [if_neg hid, hothers r hid]

theorem linked_cons {now i : Nat} {ids todo : List Nat} (hi : i ∉ todo) (r : Step) :
    linked now ids todo (linked now ids [i] r) = linked now ids (i :: todo) r := by
  by_cases hr : r.id = i
  · have hnot : (linked now ids [i] r).id ∉ todo := by
      rw [(linked_same now ids [i] r).1, hr]
      exact hi
    rw [linked_of_notMem hnot, linked_of_mem (List.mem_singleton.mpr hr), linked_of_mem (List.mem_cons.mpr (Or.inl hr))]
  · rw [linked_of_notMem (show r.id ∉ [i] from fun hmem => hr (List.mem_singleton.mp hmem))]
    by_cases hmem : r.id ∈ todo
    · rw [linked_of_mem hmem, linked_of_mem (List.mem_cons_of_mem _ hmem)]
    · rw [linked_of_notMem hmem, linked_of_notMem fun h => (List.mem_cons.mp h).elim hr hmem]

/-- Every turn of the loop finds the same order of ids, and writes the one it looks up unless it is the step's own. -/
theorem linkSteps_spec (now : Nat) {ids : List Nat} (ss : List Step) (hids : (db.orderedSteps p).map Step.id = ids)
    (h : ∀ s ∈ ss, s ∈ db.projectSteps p ∧ s.valid = true ∧ arrayAt ids (s.position - 1) ≠ none)
    (hn : (ss.map Step.id).Nodup) : (linkSteps now p ss db).1 = true ∧
      (linkSteps now p ss db).2.steps.rows = db.steps.rows.map (linked now ids (ss.map Step.id)) := by
  induction ss generalizing db with
  | nil =>
    refine ⟨rfl, (List.map_eq_self_of_forall fun r _ => ?_).symm⟩
    exact if_neg List.not_mem_nil
  | cons s ss ih =>
    rw [List.map_cons, List.nodup_cons] at hn
    obtain ⟨hs, hvalid, hfound⟩ := h s List.mem_cons_self
    obtain ⟨t, ht⟩ := Option.ne_none_iff_exists'.mp hfound
    have hturn := rows_link now (mem_projectSteps.mp hs).1 hvalid ht
    obtain ⟨q, hq, rfl⟩ : ∃ q, arrayAt (db.orderedSteps p) (s.position - 1) = some q ∧ q.id = t := by
      rw [← hids, arrayAt_map, Option.map_eq_some_iff] at ht
      exact ht
    rw [linkSteps, hq]
    dsimp only
    generalize (db.saveStep (some now) { s with ancestry := some (toS q.id) }).getD db = db₁ at hturn ⊢
    have hids₁ : (db₁.orderedSteps p).map Step.id = ids := by
      rw [orderedSteps_linked hturn, List.map_map, ← hids]
      apply List.map_congr_left
      intro r _
      exact (linked_same now _ _ r).1
    -- the steps that are left are still as they were
    have hleft : ∀ x ∈ ss, x ∈ db₁.projectSteps p := by
      intro x hx
      have hne : x.id ≠ s.id := fun hid => hn.1 (hid ▸ List.mem_map_of_mem hx)
      rw [steps_map hturn fun r => (linked_same now ids [s.id] r).2.1]
      exact List.mem_map.mpr ⟨x, (h x (List.mem_cons_of_mem s hx)).1,
        linked_of_notMem fun hmem => hne (List.mem_singleton.mp hmem)⟩
    obtain ⟨hdone, hall⟩ := ih hids₁ (fun x hx => ⟨hleft x hx, (h x (List.mem_cons_of_mem s hx)).2⟩) hn.2
    refine ⟨hdone, ?_⟩
    rw [hall, hturn, List.map_map, List.map_cons]
    apply List.map_congr_left
    intro r _
    exact linked_cons hn.1 r

/-- The rows of the project after the second script, for steps that are numbered 0, 1, 2, … -/
theorem resetAncestry_spec (now : Nat) (hvalid : ∀ s ∈ db.projectSteps p, s.valid = true)
    (hpositions : ((db.projectSteps p).map Step.position).Perm
      ((List.range (db.projectSteps p).length).map Int.ofNat)) :
    (resetAncestry now p db).1 = true ∧ (resetAncestry now p db).2.steps.rows = db.steps.rows.map
      (linked now ((db.orderedSteps p).map Step.id) ((db.orderedSteps p).map Step.id)) := by
  have hfound : ∀ s ∈ db.orderedSteps p, arrayAt ((db.orderedSteps p).map Step.id) (s.position - 1) ≠ none := by
    intro s hs
    obtain ⟨i, hi, heq⟩ := List.mem_map.mp (hpositions.mem_iff.mp (List.mem_map_of_mem (mem_orderedSteps.mp hs)))
    rw [List.mem_range, ← (db.perm_orderedSteps p).length_eq] at hi
    have hlt : i < ((db.orderedSteps p).map Step.id).length := by
      rw [List.length_map]
      exact hi
    rw [arrayAt, ← heq]
    split
    · rename_i hle
      rw [Ne, List.getElem?_eq_none_iff]
      have hpos : (Int.ofNat i - 1).toNat < i := by
        rw [Int.ofNat_eq_natCast] at hle ⊢
        omega
      omega
    · rename_i hneg
      rw [Int.ofNat_eq_natCast] at hneg ⊢
      rw [if_pos (by omega), Ne, List.getElem?_eq_none_iff]
      omega
  exact linkSteps_spec now (db.orderedSteps p) rfl
    (fun s hs => ⟨mem_orderedSteps.mp hs, hvalid s (mem_orderedSteps.mp hs), hfound s hs⟩) (db.nodup_orderedSteps p)

/-! ## Both scripts -/

/-- The database after both scripts. -/
def repaired (now p : Nat) (db : Database) : Database := (resetAncestry now p (resetStepPositions now p db)).2

section

variable (now : Nat) (hvalid : ∀ s ∈ db.projectSteps p, s.valid = true)

include hvalid

theorem rows_repaired : (repaired now p db).steps.rows = (resetStepPositions now p db).steps.rows.map
    (linked now (((resetStepPositions now p db).orderedSteps p).map Step.id)
      (((resetStepPositions now p db).orderedSteps p).map Step.id)) := by
  refine (resetAncestry_spec now (fun s hs => ?_) (perm_positions now hvalid)).2
  rw [projectSteps_reset now hvalid] at hs
  obtain ⟨r, hr, rfl⟩ := List.mem_map.mp hs
  exact (renumbered_same _ _ _ r).2.2.2.2.trans (hvalid r hr)

/-- No step comes or goes. -/
theorem ids_repaired : ((repaired now p db).projectSteps p).map Step.id = (db.projectSteps p).map Step.id := by
  rw [steps_map (rows_repaired now hvalid) fun r => (linked_same _ _ _ r).2.1, projectSteps_reset now hvalid,
    List.map_map, List.map_map]
  apply List.map_congr_left
  intro r _
  exact (linked_same _ _ _ _).1.trans (renumbered_same _ _ _ r).1

theorem broken_repaired : (repaired now p db).broken p = false := by
  have hsteps : (repaired now p db).projectSteps p = ((resetStepPositions now p db).projectSteps p).map _ :=
    steps_map (rows_repaired now hvalid) fun r => (linked_same _ _ _ r).2.1
  have hpositions : ((repaired now p db).projectSteps p).map Step.position =
      ((resetStepPositions now p db).projectSteps p).map Step.position := by
    rw [hsteps, List.map_map]
    apply List.map_congr_left
    intro r _
    exact (linked_same _ _ _ r).2.2.1
  apply unbroken
  rw [hpositions, hsteps, List.length_map]
  exact perm_positions now hvalid

theorem orderedSteps_repaired : (repaired now p db).orderedSteps p = (byPublication (db.projectSteps p)).map fun s =>
    linked now ((byPublication (db.projectSteps p)).map Step.id) ((byPublication (db.projectSteps p)).map Step.id)
      (numberedRow now p db s) := by
  have hids : ((resetStepPositions now p db).orderedSteps p).map Step.id =
      (byPublication (db.projectSteps p)).map Step.id := by
    rw [orderedSteps_reset now hvalid, List.map_map]
    apply List.map_congr_left
    intro r _
    exact (renumbered_same _ _ _ r).1
  rw [orderedSteps_linked (rows_repaired now hvalid), hids, orderedSteps_reset now hvalid, List.map_map]
  rfl

/-- The positions are right: they follow the times of publication. -/
theorem pairwise_repaired (hpublished : ∀ s ∈ db.projectSteps p, s.publishedOn ≠ none)
    (hdistinct : ((db.projectSteps p).map Step.publishedOn).Nodup) :
    ((repaired now p db).orderedSteps p).Pairwise fun s t =>
      ∃ a b, s.publishedOn = some a ∧ t.publishedOn = some b ∧ a < b := by
  have hkept : ∀ ids s, (linked now ids ids (numberedRow now p db s)).publishedOn = s.publishedOn := fun ids s =>
    (linked_same now ids ids _).2.2.2.trans (renumbered_same _ _ _ s).2.2.2.1
  rw [orderedSteps_repaired now hvalid, List.pairwise_map]
  refine (pairwise_byPublication hpublished hdistinct).imp fun h => ?_
  rw [hkept, hkept]
  exact h

end

theorem arrayAt_last {α : Type} {l : List α} (h : l ≠ []) : arrayAt l (-1) = some (l.getLast h) := by
  have hlength := List.length_pos_iff.mpr h
  show (if l.length ≥ 1 then l[l.length - 1]? else none) = _
  rw [if_pos (show l.length ≥ 1 from hlength), ← List.getLast?_eq_getElem?, List.getLast?_eq_some_getLast h]

/-- The first step is linked to the last one, unless it is the last one. -/
theorem ancestry_first (now : Nat) {s : Step} {ss : List Step} (hss : byPublication (db.projectSteps p) = s :: ss) :
    (linked now ((s :: ss).map Step.id) ((s :: ss).map Step.id) (numberedRow now p db s)).ancestry = none ↔
      ss = [] ∧ s.ancestry = none := by
  have hid : (numberedRow now p db s).id = s.id := (renumbered_same _ _ _ s).1
  have hposition : (numberedRow now p db s).position = 0 := by
    have hzero := position_numberedRow (p := p) (i := 0) now (by rw [hss]; exact Nat.zero_lt_succ _)
    simp only [hss, List.getElem_cons_zero] at hzero
    exact hzero
  have hlast : arrayAt ((s :: ss).map Step.id) ((numberedRow now p db s).position - 1) =
      some (((s :: ss).map Step.id).getLast (by simp)) := by
    rw [hposition]
    exact arrayAt_last _
  have hmem : (numberedRow now p db s).id ∈ (s :: ss).map Step.id := by
    rw [hid]
    exact List.mem_cons_self
  rw [linked_of_mem hmem, relinked_some hlast, hid]
  cases ss with
  | nil =>
    -- below itself the step is not saved, and keeps what it had
    rw [if_pos (show ([s].map Step.id).getLast _ = s.id from rfl), and_iff_right rfl]
    exact (renumbered_same _ _ _ s).2.2.1.congr_left
  | cons t ss =>
    have hne : ((s :: t :: ss).map Step.id).getLast (by simp) ≠ s.id := by
      have hn : ((s :: t :: ss).map Step.id).Nodup := by
        rw [← hss]
        exact ((perm_byPublication _).map Step.id).nodup_iff.mpr (db.nodup_projectSteps p)
      have hmem : ((s :: t :: ss).map Step.id).getLast (by simp) ∈ (t :: ss).map Step.id := by
        show (s.id :: (t :: ss).map Step.id).getLast _ ∈ _
        rw [List.getLast_cons (by simp)]
        exact List.getLast_mem _
      exact fun hlast => (List.nodup_cons.mp hn).1 (hlast ▸ hmem)
    rw [if_neg hne]
    exact iff_of_false (Option.some_ne_none _) fun h => absurd h.1 (List.cons_ne_nil _ _)

/-- The two scripts leave one line exactly if the project has one step, and it was a root before. -/
theorem reset_linear_chain_iff (now : Nat) (hne : db.projectSteps p ≠ [])
    (hvalid : ∀ s ∈ db.projectSteps p, s.valid = true) (hpublished : ∀ s ∈ db.projectSteps p, s.publishedOn ≠ none)
    (hdistinct : ((db.projectSteps p).map Step.publishedOn).Nodup) :
    LinearChain db (repaired now p db) p ↔ ∃ s, db.projectSteps p = [s] ∧ s.ancestry = none := by
  have hordered := orderedSteps_repaired now hvalid
  cases hss : byPublication (db.projectSteps p) with
  | nil => exact absurd ((hss ▸ perm_byPublication _).nil_eq.symm) hne
  | cons s ss =>
    rw [hss, List.map_cons] at hordered
    -- the first step has no ancestry exactly when it is alone and had none before
    have hroot := ancestry_first now hss
    constructor
    · intro h
      have hnone := h.root _ (by rw [hordered]; exact rfl)
      obtain ⟨rfl, hancestry⟩ := hroot.mp hnone
      exact ⟨s, List.perm_singleton.mp (hss ▸ perm_byPublication (db.projectSteps p)).symm, hancestry⟩
    · rintro ⟨r, hr, hancestry⟩
      have hone : byPublication [r] = s :: ss := hr ▸ hss
      obtain ⟨rfl, rfl⟩ := List.cons.inj hone
      have hnone := hroot.mpr ⟨rfl, hancestry⟩
      have hroots : ∀ x ∈ (repaired now p db).orderedSteps p, x.ancestry = none := by
        intro x hx
        rw [hordered, List.map_nil, List.mem_singleton] at hx
        rw [hx]
        exact hnone
      refine ⟨ids_repaired now hvalid, broken_repaired now hvalid, pairwise_repaired now hvalid hpublished hdistinct,
        fun x hx => hroots x (List.mem_of_mem_head? hx), ?_, ?_⟩
      · intro k x hx
        rw [hordered] at hx ⊢
        cases k with
        | zero =>
          rw [← Option.some.inj hx, hnone, ancestorIds_none]
          rfl
        | succ k => cases hx
      -- the only step is a root, and no step is above another
      · have hnobody : ∀ a b, ¬ (repaired now p db).Above p a b := by
          rintro a b ⟨x, hx, -, ha⟩
          rw [hroots x (mem_orderedSteps.mpr hx), ancestorIds_none] at ha
          cases ha
        intro i hi
        cases hi with
        | single h => exact hnobody _ _ h
        | tail _ h => exact hnobody _ _ h

end Database

/-- The lamp with one step, at a position that it should not have. -/
theorem reset_linear_chain_one :
    let db : Database := { Database.oneProject "Lamp".toList none with
      steps := .ofRows [⟨1, some 1, "Saw".toList, none, 7, none, some 1, none, none, none, none, none, none, 0, 0⟩] 2
        (by decide) }
    db.broken 1 = true ∧ Database.LinearChain db (Database.repaired 5 1 db) 1 := by
  intro db
  refine ⟨by decide, ?_⟩
  exact (Database.reset_linear_chain_iff 5 (by decide) (by decide) (by decide) (by decide)).mpr
    ⟨db.steps.rows[0], by decide, rfl⟩

/-- Of four steps the first one hangs below the last, and the others have one ancestor each. -/
theorem reset_no_linear_chain :
    let db := Run.after (StepRequest.perform 1) (.oneProject "Lamp".toList none) fourSteps
    (∀ s ∈ db.projectSteps 1, s.valid = true) ∧ (db.projectSteps 1).map Step.publishedOn = [some 0, some 1, some 2, some 3] ∧
      ((Database.repaired 5 1 db).orderedSteps 1).map (fun s => (s.id, ancestorIds s.ancestry)) =
        [(1, [4]), (2, [1]), (3, [2]), (4, [3])] ∧ ¬ Database.LinearChain db (Database.repaired 5 1 db) 1 := by
  intro db
  have hrows : (∀ s ∈ db.projectSteps 1, s.valid = true) ∧
      (db.projectSteps 1).map Step.publishedOn = [some 0, some 1, some 2, some 3] ∧
      ((Database.repaired 5 1 db).orderedSteps 1).map (fun s => (s.id, ancestorIds s.ancestry)) =
        [(1, [4]), (2, [1]), (3, [2]), (4, [3])] ∧
      ((Database.repaired 5 1 db).orderedSteps 1).head?.map Step.ancestry = some (some "4".toList) := by decide +kernel
  refine ⟨hrows.1, hrows.2.1, hrows.2.2.1, fun h => ?_⟩
  obtain ⟨s, hs, hancestry⟩ := Option.map_eq_some_iff.mp hrows.2.2.2
  rw [h.root s hs] at hancestry
  cases hancestry
