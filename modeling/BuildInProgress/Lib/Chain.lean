import Mathlib.Data.List.Nodup
import Mathlib.Data.List.Range
import Mathlib.Data.Nat.Find

/-!
# Chains of references

Each element refers to at most one other.  A chain that leads from one element to another can be cut down
to one that visits no element twice, so it is no longer than a list of all elements that refer to anything.
-/

namespace Chain

variable {α : Type} (up : α → Option α)

/-- The element `n` references further. -/
def climb : Nat → α → Option α
  | 0, a => some a
  | n + 1, a => (climb n a).bind up

variable {up}

theorem climb_add (m n : Nat) (a : α) : climb up (m + n) a = (climb up m a).bind (climb up n) := by
  induction n with
  | zero =>
    show climb up m a = (climb up m a).bind some
    rw [Option.bind_fun_some]
  | succ n ih =>
    show (climb up (m + n) a).bind up = _
    rw [ih, Option.bind_assoc]
    rfl

-- a chain goes through all the shorter ones
theorem isSome_climb_of_le {m n : Nat} (h : m ≤ n) {a b : α} (hn : climb up n a = some b) :
    (climb up m a).isSome = true := by
  obtain ⟨k, rfl⟩ := Nat.exists_eq_add_of_le h
  rw [climb_add] at hn
  obtain ⟨c, hc, -⟩ := Option.bind_eq_some_iff.mp hn
  rw [hc]
  rfl

theorem exists_climb_le {l : List α} (hl : ∀ a, (up a).isSome = true → a ∈ l) {n : Nat} {a b : α}
    (h : climb up n a = some b) : ∃ k ≤ l.length, climb up k a = some b := by
  classical
  have hex : ∃ k, climb up k a = some b := ⟨n, h⟩
  refine ⟨Nat.find hex, ?_, Nat.find_spec hex⟩
  have hfind : climb up (Nat.find hex) a = some b := Nat.find_spec hex
  have hmin : ∀ j, j < Nat.find hex → climb up j a ≠ some b := fun j hj => Nat.find_min hex hj
  generalize Nat.find hex = k at hfind hmin
  -- the elements before the last one
  have hpos : ∀ j < k, ∃ c ∈ l, climb up j a = some c := by
    intro j hj
    have hnext := isSome_climb_of_le hj hfind
    obtain ⟨c, hc⟩ := Option.isSome_iff_exists.mp (isSome_climb_of_le (Nat.le_of_lt hj) hfind)
    refine ⟨c, hl c ?_, hc⟩
    have hup : (climb up (j + 1) a).isSome = true := hnext
    rw [climb, hc, Option.bind_some] at hup
    exact hup
  -- none of them twice: the part between would be left out of a shorter chain
  have hinj : ∀ i j, i < j → j < k → climb up i a ≠ climb up j a := by
    intro i j hij hjk heq
    apply hmin (i + (k - j)) (by omega)
    rw [climb_add, heq, ← climb_add, Nat.add_sub_cancel' (Nat.le_of_lt hjk)]
    exact hfind
  have hnodup : ((List.range k).map fun j => climb up j a).Nodup := by
    refine List.Nodup.map_on ?_ List.nodup_range
    intro i hi j hj heq
    rw [List.mem_range] at hi hj
    rcases Nat.lt_trichotomy i j with hlt | rfl | hlt
    · exact absurd heq (hinj i j hlt hj)
    · rfl
    · exact absurd heq.symm (hinj j i hlt hi)
  have hsub : ((List.range k).map fun j => climb up j a) ⊆ l.map some := by
    intro c hc
    obtain ⟨j, hj, rfl⟩ := List.mem_map.mp hc
    obtain ⟨c, hc, heq⟩ := hpos j (List.mem_range.mp hj)
    rw [heq]
    exact List.mem_map_of_mem hc
  have hlen := hnodup.length_le_of_subset hsub
  rw [List.length_map, List.length_map, List.length_range] at hlen
  exact hlen

end Chain
