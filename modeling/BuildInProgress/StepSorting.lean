import BuildInProgress.CreateRace

/-!
# Sorting the steps

`sort` numbers the posted steps from 1.  The other actions count from 0: `create` gives its step the number of
steps as position, `destroy` closes the gap its step leaves, and `broken?` expects 0, 1, 2, ….  What a sort
does to the numbering lasts until the project has lost all its steps.
-/

open Text Numbering

/-- A request that moves the steps of a project. -/
inductive NumberingRequest where
  | create (u : User) (now : Nat) (html : Bool) (params : List StepAttr)
  | destroy (u : User) (now : Nat) (key : StepKey)

namespace NumberingRequest

def perform (p : Nat) (db : Database) : NumberingRequest → Database
  | create u now html params => (StepsController.create u now html p params db).2
  | destroy u now key => (StepsController.destroy u now p key db).2

/-- The create submits no position, and the step to destroy is one of the project. -/
def OnProject (p : Nat) (db : Database) : NumberingRequest → Prop
  | create _ _ _ params => StepAttr.positionOf params = none
  | destroy _ _ key => ∃ s ∈ db.projectSteps p, db.findStep key = some s

instance decidableOnProject (p : Nat) (db : Database) : ∀ r, Decidable (OnProject p db r)
  | create _ _ _ params => inferInstanceAs (Decidable (StepAttr.positionOf params = none))
  | destroy _ _ key => inferInstanceAs (Decidable (∃ s ∈ db.projectSteps p, db.findStep key = some s))

end NumberingRequest

namespace Database

/-- The positions are 0, 1, 2, …, and the steps of the list that are still there come in its order. -/
structure SortedAs (db : Database) (p : Nat) (ids : List Nat) : Prop where
  unbroken : db.broken p = false
  distinct : ((db.projectSteps p).map Step.position).Nodup
  contiguous : (db.orderedSteps p).map Step.position =
    (List.range (db.projectSteps p).length).map Int.ofNat
  ordered : (((db.orderedSteps p).map Step.id).filter (· ∈ ids)).Sublist ids

/-- No step of the project is at position 0 or in front of it. -/
def FirstFree (db : Database) (p : Nat) : Prop := ∀ s ∈ db.projectSteps p, 1 ≤ s.position

variable {db db' : Database} {p : Nat}

theorem addressable_of_empty (h : db.projectSteps p = []) : Addressable db p := by
  rw [addressable_iff_numbered, h]
  exact Numbered.nil

theorem SortedAs.addressable {ids : List Nat} (h : SortedAs db p ids) : Addressable db p := by
  rw [addressable_iff, ← h.contiguous]
  exact ((db.perm_orderedSteps p).map Step.position).symm

theorem Addressable.sortedAs_nil (h : Addressable db p) : SortedAs db p [] where
  unbroken := h.unbroken
  distinct := h.distinct
  contiguous := h.contiguous
  ordered := by simp

/-- Without a step at position 0 the positions are 0, 1, 2, … only when there are none. -/
theorem FirstFree.empty_of_addressable (h : FirstFree db p) (haddr : Addressable db p) :
    db.projectSteps p = [] := by
  by_contra hne
  obtain ⟨s, hs, hpos⟩ := (addressable_iff_numbered.mp haddr).exists_number (List.length_pos_of_ne_nil hne)
  have hfirst := h s hs
  rw [Option.some.injEq] at hpos
  omega

end Database

namespace StepsController

open Database

variable {db : Database} {p : Nat}

/-! ## The sort -/

theorem steps_sortFrom (index : Nat) (ids : List Nat) (db : Database) :
    (sortFrom index ids db).steps =
      db.steps.modifyFrom (fun k s => { s with position := (k : Int) + 1 }) (fun _ _ => rfl) index ids := by
  induction ids generalizing index db with
  | nil => rfl
  | cons i ids ih => exact ih (index + 1) _

/-- A row after a sort: the index of its id counts from 1. -/
def ranked (ids : List Nat) (s : Step) : Step :=
  if s.id ∈ ids then { s with position := (ids.idxOf s.id : Int) + 1 } else s

theorem rows_sortFrom {ids : List Nat} (hn : ids.Nodup) (db : Database) :
    (sortFrom 0 ids db).steps.rows = db.steps.rows.map (ranked ids) := by
  rw [steps_sortFrom, Table.rows_modifyFrom _ hn]
  apply List.map_congr_left
  intro s _
  rw [Nat.zero_add]
  rfl

theorem projectSteps_sort (hproject : db.projects.find? p ≠ none) {ids : List Nat} (hn : ids.Nodup) :
    (sort p ids db).2.projectSteps p = (db.projectSteps p).map (ranked ids) := by
  obtain ⟨project, hproject⟩ := Option.ne_none_iff_exists'.mp hproject
  rw [sort, hproject]
  show (sortFrom 0 ids db).steps.rows.filter _ = _
  rw [rows_sortFrom hn, List.filter_map, projectSteps]
  congr 1
  apply List.filter_congr
  intro s _
  rw [Function.comp, ranked]
  split <;> rfl

/-- Of a list without repetitions, each element with its index. -/
theorem map_idxOf_eq {ids : List Nat} (hn : ids.Nodup) :
    ids.map (fun i => (i, (ids.idxOf i : Int) + 1)) = (ids.zipIdx 1).map fun e => (e.1, (e.2 : Int)) := by
  apply List.ext_getElem
  · simp
  · intro k hk _
    rw [List.length_map] at hk
    simp only [List.getElem_map, List.getElem_zipIdx, hn.idxOf_getElem k hk, Prod.mk.injEq, true_and]
    push_cast
    omega

/-- After a sort the steps come in the posted order, at the positions 1, 2, 3, …. -/
theorem map_orderedSteps_sort (hproject : db.projects.find? p ≠ none) {ids : List Nat}
    (hids : ids.Perm ((db.projectSteps p).map Step.id)) :
    ((sort p ids db).2.orderedSteps p).map (fun s => (s.id, s.position)) =
      (ids.zipIdx 1).map fun e => (e.1, (e.2 : Int)) := by
  have hnodup : ids.Nodup := hids.nodup_iff.mpr (db.nodup_projectSteps p)
  have hsteps : ((sort p ids db).2.projectSteps p).map (fun s => (s.id, s.position)) =
      ((db.projectSteps p).map Step.id).map fun i => (i, (ids.idxOf i : Int) + 1) := by
    rw [projectSteps_sort hproject hnodup, List.map_map, List.map_map]
    apply List.map_congr_left
    intro s hs
    have hmem : s.id ∈ ids := hids.mem_iff.mpr (List.mem_map_of_mem hs)
    rw [Function.comp, ranked, if_pos hmem]
    rfl
  apply map_orderedSteps_eq Prod.snd
  · intro s _
    rfl
  · rw [hsteps, ← map_idxOf_eq hnodup]
    exact (hids.map _).symm
  · rw [List.pairwise_iff_getElem]
    intro j k hj hk hlt
    simp only [List.getElem_map, List.getElem_zipIdx]
    omega

theorem firstFree_sort (hproject : db.projects.find? p ≠ none) {ids : List Nat}
    (hids : ids.Perm ((db.projectSteps p).map Step.id)) : FirstFree (sort p ids db).2 p := by
  intro s hs
  have hmem : (s.id, s.position) ∈ ((sort p ids db).2.orderedSteps p).map fun s => (s.id, s.position) :=
    List.mem_map_of_mem (mem_orderedSteps.mpr hs)
  rw [map_orderedSteps_sort hproject hids] at hmem
  obtain ⟨e, he, heq⟩ := List.mem_map.mp hmem
  have hindex := List.le_snd_of_mem_zipIdx he
  have hpos : (e.2 : Int) = s.position := congrArg Prod.snd heq
  omega

/-! ## The other requests -/

/-- A create without a position puts its step behind as many places as there are steps. -/
theorem map_position_create (u : User) (now : Nat) (html : Bool) (db : Database) {params : List StepAttr}
    (hparams : StepAttr.positionOf params = none) :
    ((create u now html p params db).2.projectSteps p).map Step.position =
        (db.projectSteps p).map Step.position ∨
      ((create u now html p params db).2.projectSteps p).map Step.position =
        (db.projectSteps p).map Step.position ++ [((db.projectSteps p).length : Int)] := by
  rw [create_eq_pending, getGlobalVariables]
  cases hproject : db.projects.find? p with
  | none => exact Or.inl rfl
  | some project =>
    have hid : project.id = p := (Table.find?_eq_some.mp hproject).2
    rw [Option.map_some]
    dsimp only
    generalize hpending : Pending.mk u html params project (db.projectSteps p).length = r
    cases haccepted : r.accepted now db with
    | false =>
      rw [Pending.create_of_not_accepted haccepted]
      exact Or.inl rfl
    | true =>
      right
      rw [Pending.map_position_create haccepted, ← hpending]
      dsimp only
      rw [if_pos hid, hparams, Option.getD_none]

theorem addressable_create (h : Addressable db p) (u : User) (now : Nat) (html : Bool) {params : List StepAttr}
    (hparams : StepAttr.positionOf params = none) : Addressable (create u now html p params db).2 p := by
  rcases map_position_create u now html db hparams with heq | heq
  · exact h.congr heq
  · exact h.concat heq

theorem firstFree_create (h : FirstFree db p) (hne : db.projectSteps p ≠ []) (u : User) (now : Nat) (html : Bool)
    {params : List StepAttr} (hparams : StepAttr.positionOf params = none) :
    FirstFree (create u now html p params db).2 p := by
  have hlength := List.length_pos_of_ne_nil hne
  have hold : ∀ x ∈ (db.projectSteps p).map Step.position, 1 ≤ x := List.forall_mem_map.mpr h
  rw [FirstFree, ← List.forall_mem_map (f := Step.position) (P := fun x => 1 ≤ x)]
  rcases map_position_create u now html db hparams with heq | heq
  · rw [heq]
    exact hold
  · rw [heq]
    intro x hx
    rcases List.mem_append.mp hx with hx | hx
    · exact hold x hx
    · rw [List.mem_singleton] at hx
      omega

theorem firstFree_destroy (h : FirstFree db p) (u : User) (now : Nat) {key : StepKey}
    (hkey : ∃ s ∈ db.projectSteps p, db.findStep key = some s) : FirstFree (destroy u now p key db).2 p := by
  obtain ⟨s, hs, hfind⟩ := hkey
  intro t' ht'
  obtain ⟨ht', hproj'⟩ := mem_projectSteps.mp ht'
  obtain ⟨t, ht, -, hproj, hpos⟩ := place_destroy u now p key db ht'
  have hold := h t (mem_projectSteps.mpr ⟨ht, hproj.trans hproj'⟩)
  rcases hpos with hpos | ⟨d, hd, -, -, -, -, -, hlt, -, hpos⟩
  · omega
  · -- the step moved to a place behind the one that is gone
    have hds : d = s := Option.some.inj (hd.symm.trans hfind)
    have hgone := h s hs
    rw [hds] at hlt
    omega

/-- When the row `m` of the step is gone, the loop closes the gap. -/
theorem addressable_afterDestroy {project : Project} {db' : Database} {d m : Step} (h : Addressable db project.id)
    (hm : m ∈ db.projectSteps project.id) (hid : m.id = d.id) (hposition : m.position = d.position)
    (hrows : db'.steps.rows = db.steps.rows.filter (·.id ≠ d.id)) (u : User) (now : Nat) :
    Addressable (afterDestroy u now project d db') project.id := by
  rw [addressable_iff_numbered] at h
  have hone : ∀ s ∈ db.projectSteps project.id, decide (s.id ≠ d.id) = false ↔ s = m := by
    intro s hs
    rw [decide_eq_false_iff_not, not_not, ← hid]
    exact ⟨eq_of_id hs hm, congrArg Step.id⟩
  have hsteps : db'.projectSteps project.id = (db.projectSteps project.id).filter (·.id ≠ d.id) := by
    rw [projectSteps, hrows, List.filter_filter, projectSteps, List.filter_filter]
    apply List.filter_congr
    intro s _
    exact Bool.and_comm _ _
  have hlength := length_filter_all_but (List.Nodup.of_map _ (db.nodup_projectSteps project.id)) hm hone
  rw [← hsteps] at hlength
  obtain ⟨hdistinct, hrange⟩ := numbered_iff.mp h
  have hafter := rows_afterDestroy u now project d db'
    (by
      apply List.Nodup.of_map some
      rw [List.map_map, hsteps]
      exact hdistinct.sublist (List.filter_sublist.map _))
    (by
      intro s hs heq
      rw [hsteps, List.mem_filter] at hs
      have hsm := h.inj hs.1 hm (congrArg some (heq.trans hposition.symm))
      rw [(hone s hs.1).mpr hsm] at hs
      exact Bool.false_ne_true hs.2)
  rw [addressable_iff_numbered, projectSteps_of_shifted hafter, hsteps]
  apply h.closeGap hm (congrArg some hposition) hone
  -- every position behind the gap is in the range of the loop
  intro s hs
  obtain ⟨i, hi, hsi⟩ := hrange s hs
  rw [Option.some.injEq] at hsi
  obtain ⟨k, hk, hmk⟩ := hrange m hm
  rw [Option.some.injEq, hposition] at hmk
  rw [position_shifted (mem_projectSteps.mp hs).2, ← hsteps, hsi, hmk, Option.map_some]
  congr 1
  split_ifs <;> omega

/-- A destroy of a step of the project leaves no gap. -/
theorem addressable_destroy (h : Addressable db p) (u : User) (now : Nat) {key : StepKey}
    (hkey : ∃ s ∈ db.projectSteps p, db.findStep key = some s) : Addressable (destroy u now p key db).2 p := by
  obtain ⟨s, hs, hfind⟩ := hkey
  rcases destroy_cases u now p key db with
    heq | ⟨project, d, hproject, hd, -, -, ⟨-, heq⟩ | ⟨-, heq⟩⟩
  · rw [heq]
    exact h
  · rw [heq]
    exact h.congr ((samePlaces_beforeDestroy now p d db).map_position p)
  · have hds : d = s := Option.some.inj (hd.symm.trans hfind)
    have hp : project.id = p := (Table.find?_eq_some.mp hproject).2
    subst hds hp
    rw [heq]
    have hsame := samePlaces_adoptChildren now project.id d db
    obtain ⟨m, hm, hid, hproj, hposition⟩ := SamePlaces.exists_step (Eq.symm hsame) (mem_projectSteps.mp hs).1
    exact addressable_afterDestroy (h.congr (hsame.map_position project.id))
      (mem_projectSteps.mpr ⟨hm, hproj.trans (mem_projectSteps.mp hs).2⟩) hid hposition.symm
      (rows_destroyStep_adoptChildren _ now d) u now

end StepsController

/-! ## Runs after a sort -/

namespace NumberingRequest

open Database StepsController

variable {db : Database} {p : Nat}

theorem addressable_perform (h : Addressable db p) {r : NumberingRequest} (hr : r.OnProject p db) :
    Addressable (r.perform p db) p := by
  cases r with
  | create u now html params => exact addressable_create h u now html hr
  | destroy u now key => exact addressable_destroy h u now hr

theorem firstFree_perform (h : FirstFree db p) (hne : db.projectSteps p ≠ []) {r : NumberingRequest}
    (hr : r.OnProject p db) : FirstFree (r.perform p db) p := by
  cases r with
  | create u now html params => exact firstFree_create h hne u now html hr
  | destroy u now key => exact firstFree_destroy h u now hr

variable {ids : List Nat} {rs : List NumberingRequest}

/-- At the end of a run that starts with a sort the positions are 0, 1, 2, … exactly when the project has been
without steps in between. -/
theorem addressable_after_sort_iff (hproject : db.projects.find? p ≠ none)
    (hids : ids.Perm ((db.projectSteps p).map Step.id))
    (hrs : Run.Along (perform p) (OnProject p) (sort p ids db).2 rs) :
    Addressable (Run.after (perform p) (sort p ids db).2 rs) p ↔
      ∃ n, (Run.after (perform p) (sort p ids db).2 (rs.take n)).projectSteps p = [] :=
  Run.restored_iff (I := (Addressable · p)) (H := (FirstFree · p)) (E := (projectSteps · p = []))
    (fun _ _ h hr => addressable_perform h hr) (fun _ _ h hne hr => firstFree_perform h hne hr)
    (fun _ h => addressable_of_empty h) (fun _ h haddr => h.empty_of_addressable haddr)
    (firstFree_sort hproject hids) hrs

/-- In every run of creates without a position and of destroys that follows a sort, all states have the positions
0, 1, 2, … and the posted order exactly when the project had no steps to sort. -/
theorem sorted_along_iff (hproject : db.projects.find? p ≠ none)
    (hids : ids.Perm ((db.projectSteps p).map Step.id))
    (hrs : Run.Along (perform p) (OnProject p) (sort p ids db).2 rs) :
    (∀ n, SortedAs (Run.after (perform p) (sort p ids db).2 (rs.take n)) p ids) ↔ db.projectSteps p = [] := by
  have hnodup : ids.Nodup := hids.nodup_iff.mpr (db.nodup_projectSteps p)
  have hempty : (sort p ids db).2.projectSteps p = [] ↔ db.projectSteps p = [] := by
    rw [projectSteps_sort hproject hnodup, List.map_eq_nil_iff]
  constructor
  · intro h
    -- already the state after the sort
    have hsorted : Addressable (sort p ids db).2 p := (h 0).addressable
    exact hempty.mp ((firstFree_sort hproject hids).empty_of_addressable hsorted)
  · intro h n
    have hnil : ids = [] := by
      rw [h] at hids
      exact hids.eq_nil
    have haddr := (addressable_after_sort_iff hproject hids (hrs.take n)).mpr ⟨0, hempty.mpr h⟩
    rw [hnil] at haddr ⊢
    exact haddr.sortedAs_nil

/-- A project without steps is sorted; then its author creates two steps and destroys the first. -/
theorem sorted_along_first_steps :
    let db := Database.stepless
    let rs : List NumberingRequest := [.create ada 1 true [.name "Saw".toList],
      .create ada 2 true [.name "Sand".toList], .destroy ada 3 (.ofId 11)]
    ((Run.after (perform 1) (sort 1 [] db).2 rs).orderedSteps 1).map (fun s => (s.id, s.position)) = [(12, 0)] ∧
    ∀ n, SortedAs (Run.after (perform 1) (sort 1 [] db).2 (rs.take n)) 1 [] :=
  ⟨by decide +kernel, (sorted_along_iff (by decide +kernel) (List.Perm.refl []) (by decide +kernel)).mpr rfl⟩

/-- Two steps, sorted the other way round, stand at 1 and 2, and the next step at 2 as well. -/
theorem sort_counts_from_one :
    let db := Run.after (StepRequest.perform 1) .stepless (fourSteps.take 2)
    let rs : List NumberingRequest := [.create ada 4 false [.parentId (some (.ofId 11)), .name "Glue".toList]]
    let sorted := (sort 1 [12, 11] db).2
    let after := Run.after (perform 1) sorted rs
    db.projects.find? 1 ≠ none ∧ (db.orderedSteps 1).map (fun s => (s.id, s.position)) = [(11, 0), (12, 1)] ∧
    [12, 11].Perm ((db.projectSteps 1).map Step.id) ∧ Run.Along (perform 1) (OnProject 1) sorted rs ∧
    (sorted.orderedSteps 1).map (fun s => (s.id, s.position)) = [(12, 1), (11, 2)] ∧ sorted.broken 1 = true ∧
    (after.orderedSteps 1).map (fun s => (s.id, s.position)) = [(12, 1), (11, 2), (13, 2)] ∧
    ¬ ∀ n, SortedAs (Run.after (perform 1) sorted (rs.take n)) 1 [12, 11] := by
  refine ⟨by decide +kernel, by decide +kernel, by decide +kernel, by decide +kernel, by decide +kernel,
    by decide +kernel, by decide +kernel, ?_⟩
  intro h
  exact absurd (h 0).unbroken (by decide +kernel)

end NumberingRequest
