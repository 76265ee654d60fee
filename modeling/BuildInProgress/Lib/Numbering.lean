import Mathlib.Data.List.Nodup
import Mathlib.Data.List.Perm.Subperm
import Mathlib.Data.List.Range

/-!
# Numbered lists

A list is numbered when its elements carry the numbers 0, 1, 2, … up to its length, each once and in any
order.  An element may carry no number at all, and then the list is not numbered.
-/

namespace Numbering

variable {α β : Type} {pos : α → Option Int} {l : List α}

def Numbered (pos : α → Option Int) (l : List α) : Prop :=
  (l.map pos).Perm ((List.range l.length).map fun i : Nat => some (i : Int))

instance (pos : α → Option Int) (l : List α) : Decidable (Numbered pos l) :=
  inferInstanceAs (Decidable (List.Perm _ _))

theorem nodup_numbers (n : Nat) : ((List.range n).map fun i : Nat => some (i : Int)).Nodup :=
  List.Nodup.map (fun _ _ h => Int.ofNat.inj (Option.some.inj h)) List.nodup_range

/-- Distinct numbers below the length are all of them. -/
theorem numbered_iff :
    Numbered pos l ↔ (l.map pos).Nodup ∧ ∀ a ∈ l, ∃ i : Nat, i < l.length ∧ pos a = some (i : Int) := by
  constructor
  · intro h
    refine ⟨h.nodup_iff.mpr (nodup_numbers _), fun a ha => ?_⟩
    obtain ⟨i, hi, heq⟩ := List.mem_map.mp (h.mem_iff.mp (List.mem_map_of_mem ha))
    exact ⟨i, List.mem_range.mp hi, heq.symm⟩
  · rintro ⟨hnodup, hbound⟩
    refine (List.subperm_of_subset hnodup ?_).perm_of_length_le (by simp)
    intro x hx
    obtain ⟨a, ha, rfl⟩ := List.mem_map.mp hx
    obtain ⟨i, hi, heq⟩ := hbound a ha
    rw [heq]
    exact List.mem_map.mpr ⟨i, List.mem_range.mpr hi, rfl⟩

/-- One element of a list goes. -/
theorem length_filter_all_but (hn : l.Nodup) {m : α} (hm : m ∈ l) {p : α → Bool}
    (hp : ∀ a ∈ l, p a = false ↔ a = m) : (l.filter p).length + 1 = l.length := by
  have hone : (l.filter fun a => !p a).Perm [m] := by
    refine (List.perm_ext_iff_of_nodup (hn.filter _) (List.nodup_singleton m)).mpr ?_
    intro a
    rw [List.mem_filter, List.mem_singleton, Bool.not_eq_true']
    constructor
    · intro ha
      exact (hp a ha.1).mp ha.2
    · rintro rfl
      exact ⟨hm, (hp a hm).mpr rfl⟩
  have hsplit := List.length_eq_length_filter_add (l := l) p
  have hsingle := hone.length_eq
  simp only [List.length_singleton] at hsingle
  omega

namespace Numbered

theorem nil : Numbered pos [] := List.Perm.nil

theorem inj (h : Numbered pos l) {a b : α} (ha : a ∈ l) (hb : b ∈ l) (heq : pos a = pos b) : a = b :=
  List.inj_on_of_nodup_map (numbered_iff.mp h).1 ha hb heq

theorem exists_number (h : Numbered pos l) {i : Nat} (hi : i < l.length) : ∃ a ∈ l, pos a = some (i : Int) := by
  have hmem : some (i : Int) ∈ l.map pos :=
    h.mem_iff.mpr (List.mem_map.mpr ⟨i, List.mem_range.mpr hi, rfl⟩)
  exact List.mem_map.mp hmem

theorem congr {pos' : β → Option Int} {l' : List β} (h : Numbered pos l) (heq : l'.map pos' = l.map pos) :
    Numbered pos' l' := by
  have hlen : l'.length = l.length := by
    rw [← List.length_map pos', heq, List.length_map]
  rw [Numbered, heq, hlen]
  exact h

theorem map {f : β → α} {l : List β} (h : Numbered (fun b => pos (f b)) l) : Numbered pos (l.map f) :=
  h.congr (by rw [List.map_map]; rfl)

theorem of_perm {l' : List α} (h : Numbered pos l) (hperm : l'.Perm l) : Numbered pos l' := by
  rw [Numbered, hperm.length_eq]
  exact (hperm.map pos).trans h

/-- The next element takes the next number. -/
theorem concat (h : Numbered pos l) {a : α} (ha : pos a = some (l.length : Int)) : Numbered pos (l ++ [a]) := by
  rw [Numbered, List.map_append, List.map_singleton, ha, List.length_append, List.length_singleton,
    List.range_succ, List.map_append, List.map_singleton]
  exact List.Perm.append_right _ h

/-- The next elements take the next numbers, in their order. -/
theorem append (h : Numbered pos l) {l' : List α}
    (hl' : ∀ i (hi : i < l'.length), pos l'[i] = some ((l.length : Int) + i)) : Numbered pos (l ++ l') := by
  induction l' generalizing l with
  | nil =>
    rw [List.append_nil]
    exact h
  | cons a l' ih =>
    rw [List.append_cons]
    have hfirst := hl' 0 (Nat.zero_lt_succ _)
    refine ih (h.concat (hfirst.trans (congrArg some (Int.add_zero _)))) fun i hi => ?_
    have hnext := hl' (i + 1) (Nat.succ_lt_succ hi)
    rw [List.getElem_cons_succ] at hnext
    rw [hnext, List.length_append, List.length_singleton]
    push_cast
    congr 1
    omega

/-- When only elements at the end go, the others keep their numbers. -/
theorem filter (h : Numbered pos l) {p : α → Bool}
    (hfront : ∀ a ∈ l, ∀ b ∈ l, p b = true → ∀ i j, pos a = some i → pos b = some j → i < j → p a = true) :
    Numbered pos (l.filter p) := by
  obtain ⟨hnodup, hbound⟩ := numbered_iff.mp h
  refine numbered_iff.mpr ⟨hnodup.sublist (List.filter_sublist.map _), fun b hb => ?_⟩
  rw [List.mem_filter] at hb
  obtain ⟨j, hj, hbj⟩ := hbound b hb.1
  refine ⟨j, ?_, hbj⟩
  -- the numbers up to `j` are all kept, and they are `j + 1`
  have hkept : (List.range (j + 1)).map (fun i : Nat => some (i : Int)) ⊆ (l.filter p).map pos := by
    intro x hx
    obtain ⟨i, hi, rfl⟩ := List.mem_map.mp hx
    rw [List.mem_range] at hi
    obtain ⟨a, ha, hai⟩ := h.exists_number (show i < l.length by omega)
    refine List.mem_map.mpr ⟨a, List.mem_filter.mpr ⟨ha, ?_⟩, hai⟩
    by_cases hij : i = j
    · rw [h.inj ha hb.1 (by rw [hai, hbj, hij])]
      exact hb.2
    · exact hfront a ha b hb.1 hb.2 i j hai hbj (by omega)
  have hlen := (List.subperm_of_subset (nodup_numbers (j + 1)) hkept).length_le
  rw [List.length_map, List.length_range, List.length_map] at hlen
  omega

/-- One element goes, and those behind it move up. -/
theorem closeGap (h : Numbered pos l) {m : α} (hm : m ∈ l) {k : Int} (hk : pos m = some k) {p : α → Bool}
    (hp : ∀ a ∈ l, p a = false ↔ a = m) {f : α → β} {pos' : β → Option Int}
    (hf : ∀ a ∈ l, pos' (f a) = (pos a).map fun x => if k < x then x - 1 else x) :
    Numbered pos' ((l.filter p).map f) := by
  obtain ⟨hnodup, hbound⟩ := numbered_iff.mp h
  obtain ⟨n, hn, hmn⟩ := hbound m hm
  have hkn : k = n := Option.some.inj (hk.symm.trans hmn)
  have hlen := length_filter_all_but (List.Nodup.of_map pos hnodup) hm hp
  -- the number of a kept element, before and after
  have hnumber : ∀ a ∈ l.filter p, ∃ i : Nat, i < l.length ∧ i ≠ n ∧ pos a = some (i : Int) ∧
      pos' (f a) = some ((if n < i then i - 1 else i : Nat) : Int) := by
    intro a ha
    rw [List.mem_filter] at ha
    obtain ⟨i, hi, hai⟩ := hbound a ha.1
    have hne : i ≠ n := by
      rintro rfl
      have heq := h.inj ha.1 hm (hai.trans hmn.symm)
      rw [(hp a ha.1).mpr heq] at ha
      cases ha.2
    refine ⟨i, hi, hne, hai, ?_⟩
    rw [hf a ha.1, hai, Option.map_some, hkn]
    by_cases hlt : n < i
    · rw [if_pos hlt, if_pos (by exact_mod_cast hlt)]
      congr 1
      omega
    · rw [if_neg hlt, if_neg (by exact_mod_cast hlt)]
  rw [numbered_iff, List.length_map]
  constructor
  · rw [List.map_map]
    refine List.Nodup.map_on ?_ ((List.Nodup.of_map pos hnodup).filter _)
    intro a ha b hb heq
    obtain ⟨i, -, hin, hai, hfa⟩ := hnumber a ha
    obtain ⟨j, -, hjn, hbj, hfb⟩ := hnumber b hb
    have hboth : (if n < i then i - 1 else i) = if n < j then j - 1 else j := by
      have hcast := Option.some.inj (hfa.symm.trans (Eq.trans heq hfb))
      exact_mod_cast hcast
    have hij : i = j := by split_ifs at hboth <;> omega
    exact h.inj (List.mem_of_mem_filter ha) (List.mem_of_mem_filter hb) (by rw [hai, hbj, hij])
  · intro b hb
    obtain ⟨a, ha, rfl⟩ := List.mem_map.mp hb
    obtain ⟨i, hi, hne, -, hfa⟩ := hnumber a ha
    refine ⟨_, ?_, hfa⟩
    split_ifs <;> omega

end Numbered

end Numbering
