import BuildInProgress.DrawList
import BuildInProgress.StepsController

/-!
# The process map and the database

`createStepMapArray` turns a map into positions and ancestries, `update_ancestry` writes them and
`_draw_list` draws the map again.  Whatever the map, the map drawn afterwards is the same.
-/

open Text Ancestry StepsController

namespace Database

/-- The key of a step in the object `createStepMapArray` sends. -/
theorem toI_toNat_toS (i : Nat) : (toI (toS i)).toNat = i := by
  rw [toI_toS, Int.toNat_natCast]

theorem mem_projectSteps {db : Database} {p : Nat} {s : Step} :
    s ∈ db.projectSteps p ↔ s ∈ db.steps.rows ∧ s.projectId = some p := by
  rw [projectSteps, List.mem_filter, decide_eq_true_eq]

theorem mem_orderedSteps {db : Database} {p : Nat} {s : Step} :
    s ∈ db.orderedSteps p ↔ s ∈ db.projectSteps p := by
  rw [orderedSteps, byPosition, List.mem_insertionSort]

theorem perm_orderedSteps (db : Database) (p : Nat) :
    (db.orderedSteps p).Perm (db.projectSteps p) :=
  List.perm_insertionSort _ _

theorem nodup_projectSteps (db : Database) (p : Nat) : ((db.projectSteps p).map Step.id).Nodup :=
  db.steps.nodup.sublist (List.filter_sublist.map _)

theorem nodup_orderedSteps (db : Database) (p : Nat) : ((db.orderedSteps p).map Step.id).Nodup :=
  ((db.perm_orderedSteps p).map Step.id).nodup_iff.mpr (db.nodup_projectSteps p)

theorem id_pos_of_mem {db : Database} {p : Nat} {s : Step} (h : s ∈ db.projectSteps p) : 0 < s.id :=
  (db.steps.bound s (mem_projectSteps.mp h).1).1

theorem eq_of_id {db : Database} {p : Nat} {s t : Step} (hs : s ∈ db.projectSteps p)
    (ht : t ∈ db.projectSteps p) (h : s.id = t.id) : s = t :=
  Table.eq_of_key (mem_projectSteps.mp hs).1 (mem_projectSteps.mp ht).1 h

/-- Rows whose position is their place in a list come in the order of that list. -/
theorem map_orderedSteps_eq {α : Type} {db : Database} {p : Nat} {f : Step → α} {l : List α}
    (pos : α → Int) (hpos : ∀ s ∈ db.projectSteps p, pos (f s) = s.position)
    (hperm : ((db.projectSteps p).map f).Perm l) (hl : l.Pairwise fun a b => pos a < pos b) :
    (db.orderedSteps p).map f = l := by
  have hsort : ((db.orderedSteps p).map f).Pairwise fun a b => pos a ≤ pos b := by
    rw [List.pairwise_map]
    have h := List.pairwise_insertionSort (fun s t : Step => s.position ≤ t.position)
      (db.projectSteps p)
    refine List.Pairwise.imp_of_mem ?_ h
    intro s t hs ht hle
    rw [hpos s ((List.mem_insertionSort _).mp hs), hpos t ((List.mem_insertionSort _).mp ht)]
    exact hle
  refine List.Perm.eq_of_pairwise ?_ hsort (hl.imp fun h => le_of_lt h)
    (((db.perm_orderedSteps p).map f).trans hperm)
  -- two elements of `l` at the same place are the same
  intro a b ha hb hab hba
  have ha' : a ∈ l := hperm.mem_iff.mp (((db.perm_orderedSteps p).map f).mem_iff.mp ha)
  have hnod : (l.map pos).Nodup := List.pairwise_map.mpr (hl.imp fun h => ne_of_lt h)
  exact List.inj_on_of_nodup_map hnod ha' hb (le_antisymm hab hba)

end Database

/-! ## Writing a map -/

/-- The entry for a step with a path and a position. -/
def entryOf (e : (Nat × List Nat) × Nat) : MapEntry := ⟨toS e.1.1, e.2, Dom.ancestryText e.1.2⟩

theorem entryOf_id (e : (Nat × List Nat) × Nat) : (toI (entryOf e).key).toNat = e.1.1 :=
  Database.toI_toNat_toS e.1.1

/-- What the process map writes into the ancestry of a step passes the validations. -/
theorem valid_ancestryText {s : Step} {l : List Nat} (hname : blank s.name = false) (hid : 0 < s.id)
    (hl : s.id ∉ l) : ({ s with ancestry := some (Dom.ancestryText l) } : Step).valid = true := by
  rw [Step.valid, Step.validNew, Dom.ancestryText]
  by_cases h : l = []
  · have hids : ancestorIds (some ['0']) = [0] := by decide
    have hfmt : validFormat (some ['0']) = true := by decide
    rw [if_pos h]
    simp only [hname, hids, hfmt, Bool.not_false, Bool.and_self, Bool.true_and, Bool.not_eq_true',
      List.contains_eq_mem, List.mem_singleton, decide_eq_false_iff_not]
    omega
  · have hfmt : validFormat (some (render l)) = true := pattern_render h
    rw [if_neg h]
    simp only [hname, hfmt, ancestorIds_render, Bool.not_false, Bool.and_self, Bool.true_and,
      Bool.not_eq_true', List.contains_eq_mem, decide_eq_false_iff_not]
    exact hl

/-- A step is written with the path and the position its entry carries, also when its old ancestry
is invalid, as long as it keeps its position. -/
theorem foldl_remapped_entryOf {entries : List MapEntry}
    (hn : (entries.map fun e => (toI e.key).toNat).Nodup) {s : Step} {l : List Nat} {i : Nat}
    (he : entryOf ((s.id, l), i) ∈ entries) (hname : blank s.name = false) (hid : 0 < s.id)
    (hl : s.id ∉ l) (hold : s.valid = true ∨ s.position = i) :
    entries.foldl remapped s =
      { s with position := i, ancestry := some (Dom.ancestryText l) } :=
  foldl_remapped_eq hn he (entryOf_id ((s.id, l), i)).symm hold (valid_ancestryText hname hid hl)

theorem keys_zipIdx (es : List (Nat × List Nat)) (n : Nat) :
    ((es.zipIdx n).map entryOf).map (fun e => (toI e.key).toNat) = es.map Prod.fst := by
  rw [List.map_map]
  have hcomp : (fun e : MapEntry => (toI e.key).toNat) ∘ entryOf = Prod.fst ∘ Prod.fst :=
    funext entryOf_id
  rw [hcomp, ← List.map_map, List.zipIdx_map_fst]

section Save

variable {db : Database} {p : Nat} {g : Forest Nat}

/-- The steps of a project, saved as the forest `g` over their ids. -/
theorem row_of_saved (hg : g.labels.Perm ((db.projectSteps p).map Step.id))
    {s : Step} (hs : s ∈ db.projectSteps p) (hname : blank s.name = false) {l : List Nat} {i : Nat}
    (he : (g.paths [])[i]? = some (s.id, l)) (hold : s.valid = true ∨ s.position = i) :
    ((g.paths []).zipIdx.map entryOf).foldl remapped s =
      { s with position := i, ancestry := some (Dom.ancestryText l) } := by
  have hn : g.labels.Nodup := hg.nodup_iff.mpr (db.nodup_projectSteps p)
  apply foldl_remapped_entryOf
  · rw [keys_zipIdx, Forest.map_fst_paths]
    exact hn
  · apply List.mem_map_of_mem
    rw [List.mem_zipIdx_iff_getElem?]
    exact he
  · exact hname
  · exact Database.id_pos_of_mem hs
  · exact Forest.notMem_path hn (List.mem_of_getElem? he)
  · exact hold

/-- What the map of `g` says about a step: its id, its index and its ancestry. -/
def saved (g : Forest Nat) (i : Nat) : Nat × Int × Option Text :=
  (i, g.labels.idxOf i,
    some (Dom.ancestryText (((g.paths [])[g.labels.idxOf i]?.map Prod.snd).getD [])))

theorem map_saved (hn : g.labels.Nodup) :
    g.labels.map (saved g) =
      (g.paths []).zipIdx.map fun e => (e.1.1, (e.2 : Int), some (Dom.ancestryText e.1.2)) := by
  apply List.ext_getElem?
  intro i
  rw [List.getElem?_map, List.getElem?_map, List.getElem?_zipIdx, ← Forest.map_fst_paths [] g,
    List.getElem?_map, Option.map_map, Option.map_map, Nat.zero_add]
  cases he : (g.paths [])[i]? with
  | none => rfl
  | some e =>
    have hlab : g.labels[i]? = some e.1 := by
      rw [← Forest.map_fst_paths [] g, List.getElem?_map, he, Option.map_some]
    obtain ⟨hi, hget⟩ := List.getElem?_eq_some_iff.mp hlab
    have hidx : g.labels.idxOf e.1 = i := by
      rw [← hget]
      exact hn.idxOf_getElem i hi
    simp only [Option.map_some, Function.comp, saved, hidx, he, Option.getD_some]

/-- The position of a step in the order of a saved map is its index in the map. -/
theorem nodes_of_saved (hg : g.labels.Perm ((db.projectSteps p).map Step.id))
    (hname : ∀ s ∈ db.projectSteps p, blank s.name = false)
    (hold : ∀ s ∈ db.projectSteps p, s.valid = true ∨ s.position = g.labels.idxOf s.id) :
    ((((g.paths []).zipIdx.map entryOf).foldl updateEntry db).orderedSteps p).map
        (fun s => (s.id, s.position, s.ancestry)) =
      (g.paths []).zipIdx.map fun e => (e.1.1, (e.2 : Int), some (Dom.ancestryText e.1.2)) := by
  have hn : g.labels.Nodup := hg.nodup_iff.mpr (db.nodup_projectSteps p)
  apply Database.map_orderedSteps_eq fun x => x.2.1
  · intro s _
    rfl
  · have hrow : (db.projectSteps p).map (fun s =>
        let r := ((g.paths []).zipIdx.map entryOf).foldl remapped s
        (r.id, r.position, r.ancestry)) = ((db.projectSteps p).map Step.id).map (saved g) := by
      rw [List.map_map]
      apply List.map_congr_left
      intro s hs
      have hmem : s.id ∈ g.labels := hg.mem_iff.mpr (List.mem_map_of_mem hs)
      have hlab : g.labels[g.labels.idxOf s.id]? = some s.id := List.getElem?_idxOf hmem
      rw [← Forest.map_fst_paths [] g, List.getElem?_map, Option.map_eq_some_iff,
        Forest.map_fst_paths] at hlab
      obtain ⟨e, he, hid⟩ := hlab
      have he' : (g.paths [])[g.labels.idxOf s.id]? = some (s.id, e.2) := by
        rw [he, ← hid]
      simp only [Function.comp, row_of_saved hg hs (hname s hs) he' (hold s hs), saved, he',
        Option.map_some, Option.getD_some]
    rw [projectSteps_foldl_updateEntry, List.map_map, ← map_saved hn]
    exact (List.Perm.of_eq hrow).trans (hg.symm.map (saved g))
  · have hidx : ((g.paths []).zipIdx.map Prod.snd).Pairwise (· < ·) := by
      rw [List.zipIdx_map_snd]
      exact List.pairwise_lt_range'
    rw [List.pairwise_map] at hidx ⊢
    exact hidx.imp fun h => Int.ofNat_lt.mpr h

/-- The steps carry, in order, the nodes of the map of `g`. -/
def Carries (steps : List Step) (g : Forest Nat) : Prop :=
  steps.map (fun s => (s.id, s.ancestry)) =
    (g.paths []).map fun e => (e.1, some (Dom.ancestryText e.2))

namespace Carries

variable {steps : List Step}

theorem ids (h : Carries steps g) : steps.map Step.id = g.labels := by
  have h' := congrArg (List.map Prod.fst) h
  rw [List.map_map, List.map_map] at h'
  rw [← Forest.map_fst_paths [] g]
  exact h'

/-- The step at an index carries the node at that index. -/
theorem node (h : Carries steps g) {i : Nat} {s : Step} (hi : steps[i]? = some s) :
    ∃ l, (g.paths [])[i]? = some (s.id, l) ∧ s.ancestry = some (Dom.ancestryText l) := by
  have h' := congrArg (fun l => l[i]?) h
  simp only [List.getElem?_map, hi, Option.map_some] at h'
  obtain ⟨e, he, heq⟩ := Option.map_eq_some_iff.mp h'.symm
  rw [Prod.mk.injEq] at heq
  exact ⟨e.2, by rw [he, ← heq.1], heq.2.symm⟩

theorem drawable (h : Carries steps g) : Drawable steps := by
  intro l s r hsplit
  have hget : steps[l.length]? = some s := by rw [hsplit]; simp
  obtain ⟨path, hpath, hanc⟩ := h.node hget
  rcases Forest.paths_parent hpath with rfl | ⟨j, hj, q, t, rfl, hq⟩
  · have hzero : s.ancestry = some ['0'] := hanc
    split
    · simp [Step.topLevel, hzero]
    · exact Or.inl hzero
  · -- the parent is one of the steps before
    have hl : l ≠ [] := by
      rintro rfl
      simp at hj
    have hqmem : q ∈ l.map Step.id := by
      have hlab : (steps.map Step.id)[j]? = some q := by
        rw [h.ids, ← Forest.map_fst_paths [] g, List.getElem?_map, hq, Option.map_some]
      rw [hsplit, List.map_append, List.getElem?_append_left (by simpa using hj)] at hlab
      exact List.mem_of_getElem? hlab
    have htext : Dom.ancestryText (t ++ [q]) = render (t ++ [q]) := if_neg (by simp)
    rw [if_neg hl]
    exact Or.inr ⟨_, q, hanc, hqmem, by rw [htext]; exact afterLast_render_concat t q⟩

/-- Each step is placed as its node in the map is. -/
theorem map_entry (h : Carries steps g) (hpos : ∀ i ∈ g.labels, 0 < i) :
    steps.map Step.entry = (g.paths []).map fun e => (e.1, e.2.getLast?.toList) := by
  apply List.ext_getElem?
  intro i
  rw [List.getElem?_map, List.getElem?_map]
  cases hi : steps[i]? with
  | none =>
    have hlen : (g.paths [])[i]? = none := by
      have hl := congrArg List.length h
      simp only [List.length_map] at hl
      rw [List.getElem?_eq_none_iff] at hi ⊢
      omega
    rw [hlen, Option.map_none, Option.map_none]
  | some s =>
    obtain ⟨l, hl, hanc⟩ := h.node hi
    rw [hl, Option.map_some, Option.map_some, Step.entry]
    rcases Forest.paths_parent hl with rfl | ⟨j, -, q, t, rfl, hq⟩
    · have htop : s.topLevel = true := by simp [Step.topLevel, hanc, Dom.ancestryText]
      simp [Step.drawnBelow_of_top htop]
    · have htext : Dom.ancestryText (t ++ [q]) = render (t ++ [q]) := if_neg (by simp)
      have hqpos : 0 < q := hpos q (Forest.fst_mem_labels (List.mem_of_getElem? hq))
      rw [htext] at hanc
      rw [Step.drawnBelow_of_parent hanc (afterLast_render_concat t q) hqpos]
      simp

theorem draw (h : Carries steps g) (hn : g.labels.Nodup) (hpos : ∀ i ∈ g.labels, 0 < i) :
    nestList steps = some (.org (g.map toS)) := by
  have hposs : ∀ s ∈ steps, 0 < s.id := fun s hs => hpos s.id (h.ids ▸ List.mem_map_of_mem hs)
  rw [nestList_eq (by rw [h.ids]; exact hn) hposs h.drawable, drawnForest, h.map_entry hpos,
    List.foldl_map]
  simp only [Forest.place_getLast, Prod.mk.eta]
  rw [Forest.foldl_place_paths hn]

end Carries

/-- Drawing undoes `createStepMapArray`. -/
theorem nestList_saved (hg : g.labels.Perm ((db.projectSteps p).map Step.id))
    (hname : ∀ s ∈ db.projectSteps p, blank s.name = false)
    (hold : ∀ s ∈ db.projectSteps p, s.valid = true ∨ s.position = g.labels.idxOf s.id) :
    nestList (((createStepMapArray (.org (g.map toS))).foldl updateEntry db).orderedSteps p) =
      some (.org (g.map toS)) := by
  have hn : g.labels.Nodup := hg.nodup_iff.mpr (db.nodup_projectSteps p)
  have hpos : ∀ i ∈ g.labels, 0 < i := fun i hi => by
    obtain ⟨s, hs, rfl⟩ := List.mem_map.mp (hg.mem_iff.mp hi)
    exact Database.id_pos_of_mem hs
  have hcarries : Carries
      ((((g.paths []).zipIdx.map entryOf).foldl updateEntry db).orderedSteps p) g := by
    have hnodes := congrArg (List.map fun x : Nat × Int × Option Text => (x.1, x.2.2))
      (nodes_of_saved hg hname hold)
    rw [List.map_map, List.map_map] at hnodes
    refine hnodes.trans ?_
    conv_rhs => rw [← List.zipIdx_map_fst 0 (g.paths []), List.map_map]
    rfl
  rw [Dom.createStepMapArray_org hn hpos]
  exact hcarries.draw hn hpos

end Save

/-! ## The round trip -/

/-- The steps of a project as the process map expects them: the first stands at the top, a later one
at the top or below an earlier step. -/
structure Mapped (db : Database) (p : Nat) : Prop where
  first : ∀ s ∈ (db.orderedSteps p).head?, s.ancestry = none ∨ s.ancestry = some ['0']
  later : ∀ s ∈ (db.orderedSteps p).tail, s.ancestry = some ['0'] ∨
    ∃ t ∈ db.orderedSteps p, t.position < s.position ∧ s.ancestry.map getParent = some (toS t.id)

instance (db : Database) (p : Nat) : Decidable (Mapped db p) :=
  decidable_of_iff
    ((∀ s ∈ (db.orderedSteps p).head?, s.ancestry = none ∨ s.ancestry = some ['0']) ∧
      ∀ s ∈ (db.orderedSteps p).tail, s.ancestry = some ['0'] ∨
        ∃ t ∈ db.orderedSteps p, t.position < s.position ∧
          s.ancestry.map getParent = some (toS t.id))
    ⟨fun h => ⟨h.1, h.2⟩, fun h => ⟨h.1, h.2⟩⟩

namespace Database

/-- In position order an earlier position means an earlier place. -/
theorem mem_before {db : Database} {p : Nat} {l r : List Step} {s t : Step}
    (h : db.orderedSteps p = l ++ s :: r) (ht : t ∈ db.orderedSteps p)
    (hlt : t.position < s.position) : t ∈ l := by
  have hsort : (db.orderedSteps p).Pairwise fun a b : Step => a.position ≤ b.position :=
    List.pairwise_insertionSort _ _
  rw [h] at ht hsort
  rcases List.mem_append.mp ht with ht | ht
  · exact ht
  · rcases List.mem_cons.mp ht with rfl | ht
    · exact absurd hlt (lt_irrefl _)
    · have hle := (List.pairwise_cons.mp (List.pairwise_append.mp hsort).2.1).1 t ht
      omega

end Database

namespace Mapped

variable {db : Database} {p : Nat}

theorem drawable (h : Mapped db p) : Drawable (db.orderedSteps p) := by
  intro l s r hsplit
  by_cases hl : l = []
  · rw [if_pos hl]
    have hhead := h.first s (by rw [hsplit, hl]; simp)
    rcases hhead with ha | ha <;> simp [Step.topLevel, ha]
  · rw [if_neg hl]
    have htail : s ∈ (db.orderedSteps p).tail := by
      cases l with
      | nil => exact absurd rfl hl
      | cons x l => rw [hsplit]; simp
    rcases h.later s htail with ha | ⟨t, ht, hlt, hpar⟩
    · exact Or.inl ha
    · obtain ⟨a, ha, hpa⟩ := Option.map_eq_some_iff.mp hpar
      exact Or.inr ⟨a, t.id, ha, List.mem_map_of_mem (Database.mem_before hsplit ht hlt), hpa⟩

/-- A step is drawn below the step its last ancestry component names. -/
theorem drawnBelow_iff (h : Mapped db p) {s : Step} (hs : s ∈ db.orderedSteps p) {i : Nat}
    (hi : 0 < i) : s.drawnBelow = some i ↔ s.ancestry.map getParent = some (toS i) := by
  have hzero : getParent ['0'] = toS 0 := by decide
  have htop : s.ancestry = none ∨ s.ancestry = some ['0'] →
      (s.drawnBelow = some i ↔ s.ancestry.map getParent = some (toS i)) := by
    intro ha
    have ht : s.topLevel = true := by rcases ha with ha | ha <;> simp [Step.topLevel, ha]
    rw [Step.drawnBelow_of_top ht]
    rcases ha with ha | ha
    · simp [ha]
    · simp only [ha, Option.map_some, hzero, Option.some.injEq, toS_inj, reduceCtorEq, false_iff]
      omega
  obtain ⟨l, r, hsplit⟩ := List.append_of_mem hs
  cases l with
  | nil => exact htop (h.first s (by rw [hsplit]; simp))
  | cons x l =>
    rcases h.later s (by rw [hsplit]; simp) with ha | ⟨t, ht, -, hpar⟩
    · exact htop (Or.inr ha)
    · obtain ⟨a, ha, hpa⟩ := Option.map_eq_some_iff.mp hpar
      have htpos : 0 < t.id := Database.id_pos_of_mem (Database.mem_orderedSteps.mp ht)
      rw [Step.drawnBelow_of_parent ha hpa htpos, hpar]
      simp

end Mapped

/-- `_draw_list` draws every step once, below the step its last ancestry component names, siblings in
position order; and a map saved through `createStepMapArray` and `update_ancestry` is drawn again as
it was, whatever forest of the steps it shows. -/
def RoundTrip (db : Database) (p : Nat) : Prop :=
  ∃ f : Forest Nat,
    drawList (db.orderedSteps p) = some (.org (f.map toS)) ∧
    f.labels.Perm ((db.orderedSteps p).map Step.id) ∧
    f.roots = ((db.orderedSteps p).filter (·.topLevel)).map Step.id ∧
    (∀ t ∈ db.orderedSteps p, f.childrenOf t.id =
      ((db.orderedSteps p).filter (·.ancestry.map getParent = some (toS t.id))).map Step.id) ∧
    drawList ((updateAncestry p (createStepMapArray (.org (f.map toS))) db).2.orderedSteps p) =
      some (.org (f.map toS)) ∧
    ∀ g : Forest Nat, g.labels.Perm ((db.orderedSteps p).map Step.id) →
      drawList ((updateAncestry p (createStepMapArray (.org (g.map toS))) db).2.orderedSteps p) =
        some (.org (g.map toS))

/-- A saved map leaves the names as they are. -/
theorem plainName_saved {db : Database} {p : Nat} (h : ∀ s ∈ db.orderedSteps p, s.plainName = true)
    (entries : List MapEntry) :
    ∀ s ∈ (entries.foldl updateEntry db).orderedSteps p, s.plainName = true := by
  intro s hs
  rw [Database.mem_orderedSteps, projectSteps_foldl_updateEntry] at hs
  obtain ⟨t, ht, rfl⟩ := List.mem_map.mp hs
  rw [Step.plainName_congr (foldl_remapped_name entries t)]
  exact h t (Database.mem_orderedSteps.mpr ht)

/-- Step 1 at the top, 2 and 4 below it, 3 below 2, in both encodings of the top.  The last step has the name. -/
def branchedProject (name : Text) : Database :=
  let step (i : Nat) (name : Text) (position : Int) (ancestry : Option Text) : Step :=
    { blankStep i 1 0 with name, position, ancestry }
  { Database.oneProject "Lamp".toList none with
    steps := .ofRows [step 1 "Saw".toList 0 (some ['0']), step 2 "Cut".toList 1 (some "1".toList),
      step 3 "Sand".toList 2 (some "1/2".toList), step 4 name 3 (some "0/1".toList)] 5
      (by simp [step, Table.WellKeyed, Keyed.key, blankStep]) }
