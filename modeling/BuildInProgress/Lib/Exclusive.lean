import Mathlib.Data.List.Basic
import Mathlib.Logic.Function.Basic

/-!
# Exclusive holdings

A list says who holds what, nothing or one value each.  It is exclusive when no value has two holders.
What adding a holder and changing one holding do to that is all the operations on such a list need.
-/

namespace Holdings

variable {ι ν : Type}

def Exclusive (l : List (ι × Option ν)) : Prop :=
  ∀ a ∈ l, ∀ b ∈ l, ∀ v, a.2 = some v → b.2 = some v → a.1 = b.1

/-- The value is free for `i` to hold. -/
def FreeFor (l : List (ι × Option ν)) (i : ι) (o : Option ν) : Prop :=
  ∀ v, o = some v → ∀ a ∈ l, a.1 ≠ i → a.2 ≠ some v

variable {l l' : List (ι × Option ν)} {i : ι} {o : Option ν}

theorem Exclusive.subset (h : Exclusive l) (hsub : l' ⊆ l) : Exclusive l' :=
  fun a ha b hb => h a (hsub ha) b (hsub hb)

theorem freeFor_none : FreeFor l i none := by
  intro v hv
  cases hv

/-- What a holder of an exclusive list has is free for them. -/
theorem Exclusive.freeFor (h : Exclusive l) (hmem : (i, o) ∈ l) : FreeFor l i o :=
  fun v hv a ha hne hav => hne (h a ha (i, o) hmem v hav hv)

theorem exclusive_concat (h : Exclusive l) (hi : ∀ a ∈ l, a.1 ≠ i) : Exclusive (l ++ [(i, o)]) ↔ FreeFor l i o := by
  constructor
  · intro hnew v hv a ha hne hav
    exact hne (hnew a (List.mem_append_left _ ha) (i, o) (by simp) v hav hv)
  · intro hfree a ha b hb v hav hbv
    rcases List.mem_append.mp ha with ha | ha <;> rcases List.mem_append.mp hb with hb | hb
    · exact h a ha b hb v hav hbv
    · rw [List.mem_singleton.mp hb] at hbv
      exact absurd hav (hfree v hbv a ha (hi a ha))
    · rw [List.mem_singleton.mp ha] at hav
      exact absurd hbv (hfree v hav b hb (hi b hb))
    · rw [List.mem_singleton.mp ha, List.mem_singleton.mp hb]

/-- The list after `i` has got another value. -/
def write [DecidableEq ι] (l : List (ι × Option ν)) (i : ι) (o : Option ν) : List (ι × Option ν) :=
  l.map fun a => if a.1 = i then (i, o) else a

variable [DecidableEq ι]

theorem mem_write {a : ι × Option ν} (ha : a ∈ write l i o) : a = (i, o) ∨ a ∈ l ∧ a.1 ≠ i := by
  obtain ⟨b, hb, rfl⟩ := List.mem_map.mp ha
  split
  · exact Or.inl rfl
  · rename_i hne
    exact Or.inr ⟨hb, hne⟩

theorem mem_write_of_ne {a : ι × Option ν} (ha : a ∈ l) (hne : a.1 ≠ i) : a ∈ write l i o :=
  List.mem_map.mpr ⟨a, ha, if_neg hne⟩

theorem exclusive_write (h : Exclusive l) (hi : ∃ a ∈ l, a.1 = i) : Exclusive (write l i o) ↔ FreeFor l i o := by
  obtain ⟨x, hx, hxi⟩ := hi
  constructor
  · intro hnew v hv a ha hne hav
    have hwritten : (i, o) ∈ write l i o := List.mem_map.mpr ⟨x, hx, if_pos hxi⟩
    exact hne (hnew a (mem_write_of_ne ha hne) (i, o) hwritten v hav hv)
  · intro hfree a ha b hb v hav hbv
    rcases mem_write ha with rfl | ⟨ha, hai⟩ <;> rcases mem_write hb with rfl | ⟨hb, hbi⟩
    · rfl
    · exact absurd hbv (hfree v hav b hb hbi)
    · exact absurd hav (hfree v hbv a ha hai)
    · exact h a ha b hb v hav hbv

/-! ## The holder of one value -/

/-- Of all of `S`, only `i` holds `v`. -/
def Sole (S : ι → Prop) (f : ι → ν) (i : ι) (v : ν) : Prop := S i ∧ ∀ j, S j → (f j = v ↔ j = i)

variable {S S' : ι → Prop} {f : ι → ν} {j : ι} {v w : ν}

/-- A holder `j` gets another value, or comes in with it. -/
theorem Sole.update_iff (h : Sole S f i v) (hS : ∀ k, S' k ↔ k = j ∨ S k) :
    Sole S' (Function.update f j w) i v ↔ (w = v ↔ j = i) := by
  constructor
  · intro hnew
    have hj := hnew.2 j ((hS j).mpr (Or.inl rfl))
    rw [Function.update_self] at hj
    exact hj
  · intro hw
    refine ⟨(hS i).mpr (Or.inr h.1), fun k hk => ?_⟩
    by_cases hkj : k = j
    · rw [hkj, Function.update_self]
      exact hw
    · rw [Function.update_of_ne hkj]
      exact h.2 k (((hS k).mp hk).resolve_left hkj)

/-- Nobody of `S` holds `v`. -/
def Vacant (S : ι → Prop) (f : ι → ν) (v : ν) : Prop := ∀ j, S j → f j ≠ v

theorem Vacant.update (h : Vacant S f v) (hS : ∀ k, S' k ↔ k = j ∨ S k) (hw : w ≠ v) :
    Vacant S' (Function.update f j w) v := by
  intro k hk
  by_cases hkj : k = j
  · rw [hkj, Function.update_self]
    exact hw
  · rw [Function.update_of_ne hkj]
    exact h k (((hS k).mp hk).resolve_left hkj)

/-- What nobody held belongs to the one who gets it. -/
theorem Vacant.sole (h : Vacant S f v) (hS : ∀ k, S' k ↔ k = j ∨ S k) : Sole S' (Function.update f j v) j v := by
  refine ⟨(hS j).mpr (Or.inl rfl), fun k hk => ?_⟩
  by_cases hkj : k = j
  · rw [hkj, Function.update_self]
    exact iff_of_true rfl rfl
  · rw [Function.update_of_ne hkj]
    exact iff_of_false (h k (((hS k).mp hk).resolve_left hkj)) hkj

/-- The value that only `i` held is nobody's when `i` gets another. -/
theorem Sole.vacant (h : Sole S f i v) (hw : w ≠ v) : Vacant S (Function.update f i w) v := by
  intro k hk
  by_cases hki : k = i
  · rw [hki, Function.update_self]
    exact hw
  · rw [Function.update_of_ne hki]
    exact fun hv => hki ((h.2 k hk).mp hv)

end Holdings
