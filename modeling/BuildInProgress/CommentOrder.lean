import Mathlib.Data.List.Basic

/-!
# The comments of a project page

The dropdown of a project page lists the comments of its steps, step after step.  A script of
`app/views/steps/index.html.erb`, which `_project_title.html.erb` repeats, sorts their ids with a merge sort
of its own and moves the items of the list into that order, so that the newest comment comes first.
-/

namespace CommentList

/-! ## The script -/

/-- The loop of `merge` from the indexes `il` and `ir` on, with the values they have when it ends. -/
def mergeLoop (left right result : List Int) (il ir : Nat) : List Int × Nat × Nat :=
  if h : il < left.length ∧ ir < right.length then
    if left[il] > right[ir] then mergeLoop left right (result ++ [left[il]]) (il + 1) ir
    else mergeLoop left right (result ++ [right[ir]]) il (ir + 1)
  else (result, il, ir)
termination_by left.length - il + (right.length - ir)

def merge (left right : List Int) : List Int :=
  let (result, il, ir) := mergeLoop left right [] 0 0
  result ++ left.drop il ++ right.drop ir

def mergeSort (items : List Int) : List Int :=
  if items.length < 2 then items
  else
    let middle := items.length / 2
    let left := items.take middle
    let right := items.drop middle
    merge (mergeSort left) (mergeSort right)
termination_by items.length
decreasing_by
  all_goals
    simp only [List.length_take, List.length_drop]
    omega

/-- `$(".comment-list").append(document.getElementById(id))`: an item that is in the list moves to its end. -/
def append (items : List Int) (id : Int) : List Int :=
  if id ∈ items then items.erase id ++ [id] else items

/-- The ids of the items in the order of the list, once the script has run. -/
def sortComments (items : List Int) : List Int := (mergeSort items).foldl append items

/-! ## The merge -/

/-- The order of the list: comments get ascending ids, so the greater one is the newer. -/
def newer (a b : Int) : Bool := decide (b ≤ a)

/-- What the loop has pushed and what it has left is, at any two indexes, what it had pushed and the merge of
the two rests.  Of two equal ids the one on the right goes first. -/
theorem mergeLoop_spec (left right result : List Int) (il ir : Nat) :
    (mergeLoop left right result il ir).1 ++ left.drop (mergeLoop left right result il ir).2.1 ++
        right.drop (mergeLoop left right result il ir).2.2 =
      result ++ (right.drop ir).merge (left.drop il) newer := by
  fun_induction mergeLoop left right result il ir with
  | case1 result il ir h hgt ih =>
    rw [ih, List.drop_eq_getElem_cons h.1, List.drop_eq_getElem_cons h.2, List.append_assoc]
    -- the one on the left is the newer one
    have hnot : ¬ newer right[ir] left[il] = true := by
      rw [newer, decide_eq_true_eq]
      omega
    rw [List.cons_merge_cons_neg _ _ _ hnot]
    rfl
  | case2 result il ir h hle ih =>
    rw [ih, List.drop_eq_getElem_cons h.1, List.drop_eq_getElem_cons h.2, List.append_assoc]
    have hnewer : newer right[ir] left[il] = true := by
      rw [newer, decide_eq_true_eq]
      omega
    rw [List.cons_merge_cons_pos _ _ _ hnewer]
    rfl
  | case3 result il ir h =>
    -- one of the two rests is empty, and the merge is the other
    by_cases hl : il < left.length
    · have hr : right.drop ir = [] := List.drop_eq_nil_of_le (by omega)
      rw [hr, List.nil_merge, List.append_nil]
    · have hl : left.drop il = [] := List.drop_eq_nil_of_le (by omega)
      rw [hl, List.merge_right, List.append_nil]

theorem merge_eq (left right : List Int) : merge left right = right.merge left newer :=
  mergeLoop_spec left right [] 0 0

theorem perm_merge (left right : List Int) : (merge left right).Perm (left ++ right) := by
  rw [merge_eq]
  exact (List.merge_perm_append newer).trans List.perm_append_comm

theorem pairwise_merge {left right : List Int} (hleft : left.Pairwise (· ≥ ·)) (hright : right.Pairwise (· ≥ ·)) :
    (merge left right).Pairwise (· ≥ ·) := by
  have hiff : ∀ l : List Int, (l.Pairwise fun a b => newer a b = true) ↔ l.Pairwise (· ≥ ·) := by
    intro l
    simp only [newer, decide_eq_true_eq, ge_iff_le]
  rw [merge_eq, ← hiff]
  apply List.pairwise_merge
  · intro a b c hab hbc
    rw [newer, decide_eq_true_eq] at *
    omega
  · intro a b
    rw [newer, newer, Bool.or_eq_true, decide_eq_true_eq, decide_eq_true_eq]
    omega
  · exact (hiff right).mpr hright
  · exact (hiff left).mpr hleft

/-! ## The sort -/

theorem perm_mergeSort (items : List Int) : (mergeSort items).Perm items := by
  fun_induction mergeSort items with
  | case1 items h => exact List.Perm.refl items
  | case2 items h middle left right ihleft ihright =>
    have hhalves : (mergeSort left ++ mergeSort right).Perm (left ++ right) := ihleft.append ihright
    have hitems : left ++ right = items := List.take_append_drop middle items
    rw [hitems] at hhalves
    exact (perm_merge _ _).trans hhalves

theorem pairwise_mergeSort (items : List Int) : (mergeSort items).Pairwise (· ≥ ·) := by
  fun_induction mergeSort items with
  | case1 items h =>
    -- at most one item
    match items, h with
    | [], _ => exact List.Pairwise.nil
    | [a], _ => exact List.pairwise_singleton _ a
  | case2 items h middle left right ihleft ihright => exact pairwise_merge ihleft ihright

/-- The merge sort gives every list back with its items in non-increasing order, each as often as before. -/
theorem mergeSort_newest_first (items : List Int) :
    (mergeSort items).Perm items ∧ (mergeSort items).Pairwise (· ≥ ·) ∧
      ∀ id, (mergeSort items).count id = items.count id :=
  ⟨perm_mergeSort items, pairwise_mergeSort items, (perm_mergeSort items).count_eq⟩

/-! ## The list on the page -/

/-- Each item goes behind those that have been moved; when all have been, the list is in their order. -/
theorem foldl_append {ids rest : List Int} (h : rest.Perm ids) (moved : List Int) :
    ids.foldl append (rest ++ moved) = moved ++ ids := by
  induction ids generalizing rest moved with
  | nil =>
    rw [h.eq_nil, List.append_nil]
    rfl
  | cons id ids ih =>
    have hmem : id ∈ rest := h.mem_iff.mpr List.mem_cons_self
    have hrest : (rest.erase id).Perm ids := by
      have herase := h.erase id
      rw [List.erase_cons_head] at herase
      exact herase
    rw [List.foldl_cons, append, if_pos (List.mem_append_left _ hmem), List.erase_append_left _ hmem,
      List.append_assoc, ih hrest, List.append_assoc]
    rfl

/-- The script leaves the list in the order the sort has found. -/
theorem sortComments_eq (items : List Int) : sortComments items = mergeSort items := by
  have hmoved := foldl_append (perm_mergeSort items).symm []
  rw [List.append_nil, List.nil_append] at hmoved
  exact hmoved

example : sortComments [3, 9, 4, 1, 7, 4] = [9, 7, 4, 4, 3, 1] := by decide +kernel

end CommentList
