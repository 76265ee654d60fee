import Mathlib.Data.List.Sort

/-!
# The first row of an ordered query

`ORDER BY .. LIMIT 1` sorts and takes the head: it is there unless the list is empty, and no element comes
before it.
-/

namespace First

variable {α : Type} {r : α → α → Prop} [DecidableRel r] {l : List α} {a : α}

theorem head_eq_none : (l.insertionSort r).head? = none ↔ l = [] := by
  rw [List.head?_eq_none_iff, ← List.length_eq_zero_iff, List.length_insertionSort, List.length_eq_zero_iff]

/-- The head of the sorted list comes before every element. -/
theorem of_head [Std.Total r] [IsTrans α r] (h : (l.insertionSort r).head? = some a) :
    a ∈ l ∧ ∀ b ∈ l, r a b := by
  have hsorted := List.pairwise_insertionSort r l
  have hmem : ∀ b, b ∈ l.insertionSort r ↔ b ∈ l := fun b => List.mem_insertionSort r
  cases hs : l.insertionSort r with
  | nil =>
    rw [hs] at h
    cases h
  | cons b rest =>
    rw [hs] at h hsorted hmem
    obtain rfl := Option.some.inj h
    refine ⟨(hmem b).mp List.mem_cons_self, fun c hc => ?_⟩
    rcases List.mem_cons.mp ((hmem c).mpr hc) with rfl | hc
    · exact (Std.Total.total c c : r c c ∨ r c c).elim id id
    · exact (List.pairwise_cons.mp hsorted).1 c hc

end First
