import BuildInProgress.Lib.Chain
import Mathlib.Logic.Function.Basic
import Mathlib.Logic.Relation

/-!
# Materialized paths

A table of materialized paths stores with every key the keys on the way to it, from the top down.  The table is
sound when each path is the path of the last key on it, followed by that key.  A sound table has no cycles, every
path in it is the only one that the references upwards allow, and a selection of its keys is sound again.
-/

namespace Lineage

open Chain

variable {α : Type}

/-! ## Chains to the top -/

/-- Each element of the list refers to the next one, the last one to nothing. -/
def Ascends (up : α → Option α) : List α → Prop
  | [] => True
  | a :: l => up a = l.head? ∧ Ascends up l

/-- Only one list leads from an element to the top. -/
theorem Ascends.unique {up : α → Option α} {a : α} {l m : List α} (hl : Ascends up (a :: l))
    (hm : Ascends up (a :: m)) : l = m := by
  induction l generalizing a m with
  | nil =>
    have hnone : m.head? = none := hm.1.symm.trans hl.1
    exact (List.head?_eq_none_iff.mp hnone).symm
  | cons b l ih =>
    obtain ⟨m', rfl⟩ := List.head?_eq_some_iff.mp (hm.1.symm.trans hl.1)
    rw [ih hl.2 hm.2]

/-- What follows on the list is referred to. -/
theorem Ascends.exists_link {up : α → Option α} {a b : α} {l : List α} (h : Ascends up (a :: l)) (hb : b ∈ l) :
    ∃ c, up c = some b := by
  induction l generalizing a with
  | nil => cases hb
  | cons c l ih =>
    rcases List.mem_cons.mp hb with rfl | hb
    · exact ⟨a, h.1⟩
    · exact ih h.2 hb

/-- What is on the list is reached by climbing, and nothing is reached behind its end. -/
theorem Ascends.climb {up : α → Option α} {a : α} {l : List α} (h : Ascends up (a :: l)) (k : Nat) :
    climb up k a = (a :: l)[k]? := by
  induction k generalizing a l with
  | zero => rfl
  | succ k ih =>
    have hnext : Chain.climb up (1 + k) a = (Chain.climb up 1 a).bind (Chain.climb up k) := climb_add 1 k a
    have hone : Chain.climb up 1 a = l.head? := h.1
    rw [Nat.add_comm k 1, hnext, hone, Nat.add_comm 1 k, List.getElem?_cons_succ]
    cases l with
    | nil => rfl
    | cons b l => exact ih h.2

/-! ## Sound tables -/

/-- The key above `a`, the last one on its path. -/
def up (path : α → Option (List α)) (a : α) : Option α := (path a).bind List.getLast?

/-- The path of a key is empty, or it is that of the key above it and then this key. -/
def Sound (path : α → Option (List α)) : Prop :=
  ∀ a p, path a = some p → p = [] ∨ ∃ q b, p = q ++ [b] ∧ path b = some q

section Sound

variable {path : α → Option (List α)} {a b : α} {p q : List α}

/-- What stands in front of a key on a path is the path of that key. -/
theorem Sound.path_of_mem (h : Sound path) {r : List α} (ha : path a = some (q ++ b :: r)) : path b = some q := by
  induction r using List.reverseRecOn generalizing a with
  | nil =>
    rcases h a _ ha with hnil | ⟨q', b', heq, hb⟩
    · simp at hnil
    · obtain ⟨rfl, hbb⟩ := List.append_inj' heq rfl
      rw [List.cons.injEq] at hbb
      rw [hbb.1]
      exact hb
  | append_singleton r c ih =>
    rcases h a _ ha with hnil | ⟨q', b', heq, hb⟩
    · simp at hnil
    · have hq : q' = q ++ b :: r := by
        rw [← List.cons_append, ← List.append_assoc] at heq
        exact (List.append_inj' heq rfl).1.symm
      exact ih (hq ▸ hb)

theorem Sound.exists_path (h : Sound path) (ha : path a = some p) (hb : b ∈ p) :
    ∃ q r, path b = some q ∧ p = q ++ b :: r := by
  obtain ⟨q, r, rfl⟩ := List.append_of_mem hb
  exact ⟨q, r, h.path_of_mem ha, rfl⟩

/-- No key is on its own path. -/
theorem Sound.notMem (h : Sound path) (ha : path a = some p) : a ∉ p := by
  intro hmem
  obtain ⟨q, r, hq, rfl⟩ := h.exists_path ha hmem
  rw [ha, Option.some.injEq] at hq
  have hlen := congrArg List.length hq
  rw [List.length_append, List.length_cons] at hlen
  omega

theorem Sound.nodup (h : Sound path) (ha : path a = some p) : p.Nodup := by
  rw [List.nodup_iff_sublist]
  intro c hc
  obtain ⟨l, m, rfl, hl, hm⟩ := List.append_sublist_iff.mp (show ([c] ++ [c]).Sublist p from hc)
  rw [List.singleton_sublist] at hl hm
  -- the second one has the first on its own path
  obtain ⟨m₁, m₂, rfl⟩ := List.append_of_mem hm
  have hpath : path c = some (l ++ m₁) := h.path_of_mem (r := m₂) (by rw [List.append_assoc]; exact ha)
  exact h.notMem hpath (List.mem_append_left _ hl)

theorem Sound.ascends (h : Sound path) (ha : path a = some p) : Ascends (up path) (a :: p.reverse) := by
  induction p using List.reverseRecOn generalizing a with
  | nil => exact ⟨by rw [up, ha]; rfl, trivial⟩
  | append_singleton p b ih =>
    have hb : path b = some p := h.path_of_mem (r := []) ha
    rw [List.reverse_append, List.reverse_singleton, List.singleton_append]
    refine ⟨?_, ih hb⟩
    rw [up, ha, Option.bind_some, List.getLast?_concat, List.head?_cons]

/-- Paths along which one reference leads to the top are sound. -/
theorem sound_of_ascends {link : α → Option α} (hsome : ∀ a p, path a = some p → ∀ b ∈ p, (path b).isSome = true)
    (hasc : ∀ a p, path a = some p → Ascends link (a :: p.reverse)) : Sound path := by
  intro a p ha
  rcases List.eq_nil_or_concat p with rfl | ⟨q, b, rfl⟩
  · exact Or.inl rfl
  · rw [List.concat_eq_append] at ha ⊢
    refine Or.inr ⟨q, b, rfl, ?_⟩
    obtain ⟨q', hb⟩ := Option.isSome_iff_exists.mp (hsome a _ ha b (by simp))
    have hrest : Ascends link (b :: q.reverse) := by
      have h := (hasc a _ ha).2
      rw [List.reverse_append, List.reverse_singleton, List.singleton_append] at h
      exact h
    have heq := (hasc b q' hb).unique hrest
    rw [hb, List.reverse_injective heq]

/-- The keys on a path are those that the references upwards reach. -/
theorem Sound.mem_path_iff (h : Sound path) (ha : path a = some p) :
    b ∈ p ↔ Relation.TransGen (fun x y => up path x = some y) a b := by
  constructor
  · intro hb
    induction p using List.reverseRecOn generalizing a with
    | nil => cases hb
    | append_singleton p c ih =>
      have hc : path c = some p := h.path_of_mem (r := []) ha
      have hstep : up path a = some c := by rw [up, ha, Option.bind_some, List.getLast?_concat]
      rcases List.mem_append.mp hb with hb | hb
      · exact .head hstep (ih hc hb)
      · rw [List.mem_singleton] at hb
        rw [hb]
        exact .single hstep
  · intro hb
    have hstep : ∀ {x y : α} {q : List α}, path x = some q → up path x = some y → y ∈ q := by
      intro x y q hx hy
      rw [up, hx, Option.bind_some] at hy
      exact List.mem_of_getLast? hy
    induction hb using Relation.TransGen.head_induction_on generalizing p with
    | single hab => exact hstep ha hab
    | head hac _ ih =>
      obtain ⟨q, r, hq, rfl⟩ := h.exists_path ha (hstep ha hac)
      exact List.mem_append_left _ (ih hq)

end Sound

/-! ## Selections -/

/-- The table of the keys in `S`, with what of the paths is in `S`. -/
def restrict (S : α → Bool) (path : α → Option (List α)) (a : α) : Option (List α) :=
  if S a then (path a).map (List.filter S) else none

theorem Sound.restrict {path : α → Option (List α)} (h : Sound path) (S : α → Bool) : Sound (restrict S path) := by
  intro a p ha
  rw [Lineage.restrict] at ha
  split at ha
  · obtain ⟨l, hl, rfl⟩ := Option.map_eq_some_iff.mp ha
    rcases List.eq_nil_or_concat (l.filter S) with hnil | ⟨q, b, hq⟩
    · exact Or.inl hnil
    · rw [List.concat_eq_append] at hq
      refine Or.inr ⟨q, b, hq, ?_⟩
      have hb : b ∈ l.filter S := by
        rw [hq]
        simp
      obtain ⟨hbl, hbS⟩ := List.mem_filter.mp hb
      obtain ⟨q', r, hpath, rfl⟩ := h.exists_path hl hbl
      rw [Lineage.restrict, if_pos hbS, hpath, Option.map_some, Option.some.injEq]
      -- `b` is the last one in `S`, so nothing behind it on the path is
      rw [List.filter_append, List.filter_cons_of_pos hbS] at hq
      have hnot : b ∉ r.filter S := by
        have hnodup := (h.nodup hl).sublist (List.filter_sublist (p := S))
        rw [List.filter_append, List.filter_cons_of_pos hbS, List.nodup_append] at hnodup
        exact (List.nodup_cons.mp hnodup.2.1).1
      rcases List.eq_nil_or_concat (r.filter S) with hr | ⟨r', c, hr⟩
      · rw [hr] at hq
        exact (List.append_inj' hq rfl).1
      · rw [List.concat_eq_append] at hr
        rw [hr, ← List.cons_append, ← List.append_assoc] at hq
        have hcb : c = b := by
          have hlast := (List.append_inj' hq rfl).2
          rw [List.cons.injEq] at hlast
          exact hlast.1
        rw [hr, hcb] at hnot
        simp at hnot
  · cases ha

/-! ## Moving, pruning and cutting -/

section Changes

variable {path : α → Option (List α)} {a : α} {p₀ p : List α}

/-- A key can be given another path, without what is below it, when it has nothing below it. -/
theorem Sound.update_iff [DecidableEq α] (h : Sound path) (ha : path a = some p₀) (hnot : a ∉ p)
    (hp : p = [] ∨ ∃ q b, p = q ++ [b] ∧ path b = some q) :
    Sound (Function.update path a (some p)) ↔ p = p₀ ∨ ∀ b q, path b = some q → a ∉ q := by
  constructor
  · intro hs
    by_cases heq : p = p₀
    · exact Or.inl heq
    · right
      intro b q hb hmem
      -- what is below `a` has the old path of `a` in front of it
      obtain ⟨q₁, q₂, hq, rfl⟩ := h.exists_path hb hmem
      have hba : b ≠ a := by
        rintro rfl
        exact h.notMem hb hmem
      have hnew := hs.path_of_mem ((Function.update_of_ne hba (some p) path).trans hb)
      rw [Function.update_self, Option.some.injEq] at hnew
      rw [ha, Option.some.injEq] at hq
      exact heq (hnew.trans hq.symm)
  · rintro (rfl | hfree) b q hb
    · rw [← ha, Function.update_eq_self] at hb
      rcases h b q hb with hnil | ⟨q', c, heq, hc⟩
      · exact Or.inl hnil
      · exact Or.inr ⟨q', c, heq, by rw [← ha, Function.update_eq_self, hc]⟩
    · by_cases hba : b = a
      · rw [hba, Function.update_self, Option.some.injEq] at hb
        rcases hp with hnil | ⟨q', c, heq, hc⟩
        · exact Or.inl (hb ▸ hnil)
        · have hca : c ≠ a := by
            rintro rfl
            exact hnot (by rw [heq]; simp)
          exact Or.inr ⟨q', c, hb ▸ heq, by rw [Function.update_of_ne hca, hc]⟩
      · rw [Function.update_of_ne hba] at hb
        rcases h b q hb with hnil | ⟨q', c, heq, hc⟩
        · exact Or.inl hnil
        · have hca : c ≠ a := by
            rintro rfl
            exact hfree b q hb (by rw [heq]; simp)
          exact Or.inr ⟨q', c, heq, by rw [Function.update_of_ne hca, hc]⟩

/-- Without a key and all that is below it. -/
theorem Sound.prune (h : Sound path) {path' : α → Option (List α)}
    (hkeep : ∀ b q, path b = some q → a ≠ b → a ∉ q → path' b = some q)
    (honly : ∀ b q, path' b = some q → path b = some q ∧ a ≠ b ∧ a ∉ q) : Sound path' := by
  intro b q hb
  obtain ⟨hq, -, hmem⟩ := honly b q hb
  rcases h b q hq with hnil | ⟨q', c, rfl, hc⟩
  · exact Or.inl hnil
  · rw [List.mem_append, List.mem_singleton, not_or] at hmem
    exact Or.inr ⟨q', c, rfl, hkeep c q' hc hmem.2 hmem.1⟩

/-- With what is above a key, and the key itself, cut off from the paths below it. -/
theorem Sound.cut (h : Sound path) {path' : α → Option (List α)}
    (hbelow : ∀ b l r, path b = some (l ++ a :: r) → path' b = some r)
    (hkeep : ∀ b q, path b = some q → a ≠ b → a ∉ q → path' b = some q)
    (honly : ∀ b, (path' b).isSome = true → (path b).isSome = true ∧ a ≠ b) : Sound path' := by
  intro b q hb
  obtain ⟨hsome, hab⟩ := honly b (by rw [hb]; rfl)
  obtain ⟨p, hp⟩ := Option.isSome_iff_exists.mp hsome
  by_cases hmem : a ∈ p
  · obtain ⟨l, r, rfl⟩ := List.append_of_mem hmem
    have hq := hbelow b l r hp
    rw [hb, Option.some.injEq] at hq
    subst hq
    rcases List.eq_nil_or_concat q with hnil | ⟨q', c, rfl⟩
    · exact Or.inl hnil
    · rw [List.concat_eq_append] at hp ⊢
      have hc := h.path_of_mem (q := l ++ a :: q') (r := []) (by rw [hp, List.append_assoc, List.cons_append])
      exact Or.inr ⟨q', c, rfl, hbelow c l q' hc⟩
  · have hq := hkeep b p hp hab hmem
    rw [hb, Option.some.injEq] at hq
    subst hq
    rcases h b q hp with hnil | ⟨q', c, rfl, hc⟩
    · exact Or.inl hnil
    · rw [List.mem_append, List.mem_singleton, not_or] at hmem
      exact Or.inr ⟨q', c, rfl, hkeep c q' hc hmem.2 hmem.1⟩

/-- With another path for a key, and for what is below it. -/
theorem Sound.move (h : Sound path) (ha : path a = some p₀) (hnot : a ∉ p)
    (hp : p = [] ∨ ∃ q b, p = q ++ [b] ∧ path b = some q) {path' : α → Option (List α)} (hself : path' a = some p)
    (hbelow : ∀ b r, path b = some (p₀ ++ a :: r) → path' b = some (p ++ a :: r))
    (hkeep : ∀ b q, path b = some q → b ≠ a → a ∉ q → path' b = some q)
    (honly : ∀ b, (path' b).isSome = true → (path b).isSome = true) :
    Sound path' ∧ up path' a = p.getLast? ∧ ∀ b, b ≠ a → up path' b = up path b := by
  -- the cases of a key besides `a`
  have hcases : ∀ b q, path b = some q → b ≠ a →
      (∃ r, q = p₀ ++ a :: r ∧ path' b = some (p ++ a :: r)) ∨ a ∉ q ∧ path' b = some q := by
    intro b q hb hne
    by_cases hmem : a ∈ q
    · obtain ⟨q₁, r, hq, rfl⟩ := h.exists_path hb hmem
      rw [ha, Option.some.injEq] at hq
      subst hq
      exact Or.inl ⟨r, rfl, hbelow b r hb⟩
    · exact Or.inr ⟨hmem, hkeep b q hb hne hmem⟩
  refine ⟨?_, by rw [up, hself, Option.bind_some], ?_⟩
  · intro b q hb
    by_cases hne : b = a
    · rw [hne, hself, Option.some.injEq] at hb
      subst hb
      rcases hp with hnil | ⟨q', c, rfl, hc⟩
      · exact Or.inl hnil
      · rw [List.mem_append, List.mem_singleton, not_or] at hnot
        exact Or.inr ⟨q', c, rfl, hkeep c q' hc (Ne.symm hnot.2) hnot.1⟩
    · obtain ⟨q₀, hq₀⟩ := Option.isSome_iff_exists.mp (honly b (by rw [hb]; rfl))
      rcases hcases b q₀ hq₀ hne with ⟨r, rfl, hq⟩ | ⟨hmem, hq⟩
      · rw [hb, Option.some.injEq] at hq
        subst hq
        rcases List.eq_nil_or_concat r with rfl | ⟨r', c, rfl⟩
        · exact Or.inr ⟨p, a, rfl, hself⟩
        · rw [List.concat_eq_append] at hq₀ ⊢
          have hc := h.path_of_mem (q := p₀ ++ a :: r') (r := []) (by rw [hq₀, List.append_assoc, List.cons_append])
          exact Or.inr ⟨p ++ a :: r', c, by rw [List.append_assoc, List.cons_append], hbelow c r' hc⟩
      · rw [hb, Option.some.injEq] at hq
        subst hq
        rcases h b q hq₀ with hnil | ⟨q', c, rfl, hc⟩
        · exact Or.inl hnil
        · rw [List.mem_append, List.mem_singleton, not_or] at hmem
          exact Or.inr ⟨q', c, rfl, hkeep c q' hc (Ne.symm hmem.2) hmem.1⟩
  · intro b hne
    cases hb : path b with
    | none =>
      have hb' : path' b = none := by
        rw [← Option.not_isSome_iff_eq_none]
        intro hsome
        have hsome' := honly b hsome
        rw [hb] at hsome'
        cases hsome'
      rw [up, up, hb, hb']
    | some q =>
      rcases hcases b q hb hne with ⟨r, rfl, hq⟩ | ⟨-, hq⟩
      · rw [up, up, hb, hq, Option.bind_some, Option.bind_some, List.getLast?_append, List.getLast?_append]
        cases hr : (a :: r).getLast? with
        | none => simp at hr
        | some c => rfl
      · rw [up, up, hb, hq]

end Changes

end Lineage
