import BuildInProgress.Lib.Chain
import BuildInProgress.Lib.Lineage
import Mathlib.Data.Finset.Max
import Mathlib.Data.Finset.Image

/-!
# Breaking cycles

References among ordered elements may run in cycles.  When the elements are taken up from the least to the greatest
and one whose reference leads back to it loses that reference, each cycle loses one reference, that of its greatest
element, and nothing else is lost.
-/

namespace Chain

variable {α : Type}

section Cycles

variable {up : α → Option α} {a b : α}

def OnCycle (up : α → Option α) (a : α) : Prop := ∃ k, climb up (k + 1) a = some a

def Acyclic (up : α → Option α) : Prop := ∀ a, ¬ OnCycle up a

theorem climb_succ' (k : Nat) (a : α) : climb up (k + 1) a = (up a).bind (climb up k) := by
  rw [Nat.add_comm k 1, climb_add 1 k a]
  rfl

/-- An element that is on no cycle is reached from below after one number of steps only. -/
theorem eq_of_climb_eq (h : ¬ OnCycle up a) {m n : Nat} (hm : climb up m b = some a) (hn : climb up n b = some a) :
    m = n := by
  have hlt : ∀ {m n : Nat}, climb up m b = some a → climb up n b = some a → ¬ m < n := by
    intro m n hm hn hmn
    obtain ⟨k, rfl⟩ := Nat.exists_eq_add_of_lt hmn
    rw [Nat.add_assoc, climb_add, hm] at hn
    exact h ⟨k, hn⟩
  exact Nat.le_antisymm (Nat.not_lt.mp (hlt hn hm)) (Nat.not_lt.mp (hlt hm hn))

/-- Fewer references lead to the same elements as far as they lead anywhere. -/
theorem climb_of_sub {up' : α → Option α} (h : ∀ a b, up' a = some b → up a = some b) {n : Nat}
    (hn : climb up' n a = some b) : climb up n a = some b := by
  induction n generalizing b with
  | zero => exact hn
  | succ n ih =>
    obtain ⟨c, hc, hup⟩ := Option.bind_eq_some_iff.mp hn
    rw [climb, ih hc, Option.bind_some]
    exact h c b hup

theorem OnCycle.of_sub {up' : α → Option α} (h : ∀ a b, up' a = some b → up a = some b) (ha : OnCycle up' a) :
    OnCycle up a := by
  obtain ⟨k, hk⟩ := ha
  exact ⟨k, climb_of_sub h hk⟩

/-- A chain that is longer than the list of all that refer to something has been around a cycle. -/
theorem exists_cycle_of_long {l : List α} (hl : ∀ a, (up a).isSome = true → a ∈ l) {n : Nat} (hn : l.length < n)
    (h : climb up n a = some b) : OnCycle up b ∧ ∃ k ≤ l.length, climb up k a = some b := by
  obtain ⟨k, hk, hkb⟩ := exists_climb_le hl h
  refine ⟨⟨n - k - 1, ?_⟩, k, hk, hkb⟩
  have hnk : n = k + (n - k - 1 + 1) := by omega
  rw [hnk, climb_add, hkb, Option.bind_some] at h
  exact h

theorem Acyclic.climb_eq_none (h : Acyclic up) {l : List α} (hl : ∀ a, (up a).isSome = true → a ∈ l) {n : Nat}
    (hn : l.length < n) (a : α) : climb up n a = none := by
  cases hc : climb up n a with
  | none => rfl
  | some b => exact absurd (exists_cycle_of_long hl hn hc).1 (h b)

/-- What a cycle leads to is on the way around. -/
theorem exists_climb_around {k : Nat} (hk : climb up (k + 1) a = some a) {n : Nat} (hn : climb up n a = some b) :
    ∃ i ≤ k, climb up i a = some b := by
  induction n generalizing b with
  | zero => exact ⟨0, Nat.zero_le k, hn⟩
  | succ n ih =>
    obtain ⟨c, hc, hup⟩ := Option.bind_eq_some_iff.mp hn
    obtain ⟨i, hi, hic⟩ := ih hc
    have hnext : climb up (i + 1) a = some b := by rw [climb, hic, Option.bind_some, hup]
    rcases Nat.lt_or_eq_of_le hi with hlt | rfl
    · exact ⟨i + 1, hlt, hnext⟩
    · rw [hk] at hnext
      exact ⟨0, Nat.zero_le i, hnext⟩

theorem isSome_climb_of_onCycle (h : OnCycle up a) (n : Nat) : (climb up n a).isSome = true := by
  obtain ⟨k, hk⟩ := h
  -- around the cycle as often as it takes
  have hround : ∀ m, climb up (m * (k + 1)) a = some a := by
    intro m
    induction m with
    | zero => rw [Nat.zero_mul, climb]
    | succ m ih => rw [Nat.succ_mul, climb_add, ih, Option.bind_some, hk]
  refine isSome_climb_of_le ?_ (hround n)
  calc n = n * 1 := (Nat.mul_one n).symm
    _ ≤ n * (k + 1) := Nat.mul_le_mul_left n (Nat.succ_le_succ (Nat.zero_le k))

theorem OnCycle.of_climb (h : OnCycle up a) {n : Nat} (hn : climb up n a = some b) : OnCycle up b := by
  obtain ⟨k, hk⟩ := h
  obtain ⟨i, hi, hib⟩ := exists_climb_around hk hn
  refine ⟨k, ?_⟩
  -- from `b` on to `a`, and from there to `b` again
  have hrest : climb up (k + 1 - i) b = some a := by
    have hsplit : k + 1 = i + (k + 1 - i) := by omega
    rw [hsplit, climb_add, hib, Option.bind_some] at hk
    exact hk
  have hsplit : k + 1 = (k + 1 - i) + i := by omega
  rw [hsplit, climb_add, hrest, Option.bind_some, hib]

theorem not_onCycle_of_ascends {l : List α} (h : Lineage.Ascends up (a :: l)) : ¬ OnCycle up a := by
  intro hcycle
  have hsome := isSome_climb_of_onCycle hcycle (l.length + 1)
  rw [h.climb, List.getElem?_eq_none (by rw [List.length_cons])] at hsome
  cases hsome

/-- Chains without a cycle come to their end. -/
theorem exists_ascends {n : Nat} (h : climb up n a = none) : ∃ l, Lineage.Ascends up (a :: l) ∧ l.length < n := by
  induction n generalizing a with
  | zero => cases h
  | succ n ih =>
    rw [climb_succ'] at h
    cases hup : up a with
    | none => exact ⟨[], ⟨hup, trivial⟩, Nat.succ_pos n⟩
    | some b =>
      rw [hup, Option.bind_some] at h
      obtain ⟨l, hl, hlen⟩ := ih h
      exact ⟨b :: l, ⟨hup, hl⟩, Nat.succ_lt_succ hlen⟩

end Cycles

/-! ## The greatest element of a cycle -/

section Newest

variable [LinearOrder α] {up : α → Option α} {a b : α}

def Newest (up : α → Option α) (a : α) : Prop := OnCycle up a ∧ ∀ k b, climb up k a = some b → b ≤ a

/-- Every cycle has a greatest element. -/
theorem exists_newest (h : OnCycle up a) : ∃ n b, climb up n a = some b ∧ Newest up b := by
  obtain ⟨k, hk⟩ := h
  -- the elements once around
  obtain ⟨b, hb, hmax⟩ := ((Finset.range (k + 1)).image fun i => (climb up i a).getD a).exists_max_image id
    ⟨_, Finset.mem_image_of_mem _ (Finset.mem_range.mpr (Nat.succ_pos k))⟩
  obtain ⟨n, -, hnb⟩ := Finset.mem_image.mp hb
  obtain ⟨c, hc⟩ := Option.isSome_iff_exists.mp (isSome_climb_of_onCycle ⟨k, hk⟩ n)
  rw [hc, Option.getD_some] at hnb
  rw [hnb] at hc
  refine ⟨n, b, hc, OnCycle.of_climb ⟨k, hk⟩ hc, ?_⟩
  intro m d hd
  have hfrom : climb up (n + m) a = some d := by rw [climb_add, hc, Option.bind_some, hd]
  obtain ⟨i, hi, hid⟩ := exists_climb_around hk hfrom
  refine hmax d (Finset.mem_image.mpr ⟨i, Finset.mem_range.mpr (Nat.lt_succ_of_le hi), ?_⟩)
  rw [hid, Option.getD_some]

open Classical in
/-- The references of the elements in `S` when the greatest element of every cycle has lost its own. -/
noncomputable def broken (up : α → Option α) (S : α → Prop) (a : α) : Option α :=
  if S a ∧ ¬ Newest up a then up a else none

theorem broken_eq_some {S : α → Prop} : broken up S a = some b ↔ up a = some b ∧ S a ∧ ¬ Newest up a := by
  rw [broken]
  split
  · rename_i h
    exact (and_iff_left h).symm
  · rename_i h
    exact iff_of_false (by simp) fun hn => h hn.2

theorem acyclic_broken (up : α → Option α) (S : α → Prop) : Acyclic (broken up S) := by
  intro a ha
  have hsub : ∀ x y, broken up S x = some y → up x = some y := fun x y h => (broken_eq_some.mp h).1
  obtain ⟨n, b, hb, hnew⟩ := exists_newest (ha.of_sub hsub)
  -- the greatest one is on this cycle, so it has a reference left
  obtain ⟨c, hc⟩ := Option.isSome_iff_exists.mp (isSome_climb_of_onCycle ha n)
  rw [climb_of_sub hsub hc, Option.some.injEq] at hb
  have hnext := isSome_climb_of_onCycle ha (n + 1)
  rw [climb, hc, Option.bind_some, hb] at hnext
  obtain ⟨d, hd⟩ := Option.isSome_iff_exists.mp hnext
  exact (broken_eq_some.mp hd).2.2 hnew

theorem broken_congr {S S' : α → Prop} (h : ∀ a, (up a).isSome = true → (S a ↔ S' a)) :
    broken up S = broken up S' := by
  funext a
  rw [broken, broken]
  cases hup : up a with
  | none => rw [ite_self, ite_self]
  | some b =>
    have hS := h a (by rw [hup]; rfl)
    rw [hS]

theorem broken_of_acyclic (h : Acyclic up) {S : α → Prop} (hS : ∀ a, (up a).isSome = true → S a) :
    broken up S = up := by
  funext a
  rw [broken]
  split
  · rfl
  · rename_i hno
    cases hup : up a with
    | none => rfl
    | some b => exact absurd ⟨hS a (by rw [hup]; rfl), fun hn => h a hn.1⟩ hno

variable {g : α → Option α}

/-- When all smaller elements have been taken up, the reference of `a` leads back to `a` exactly if `a` is the
greatest element of a cycle. -/
theorem comes_back_iff (hlt : ∀ x, x ≠ a → g x = broken up (· < a) x) (ha : g a = up a) :
    OnCycle g a ↔ Newest up a := by
  have hsub : ∀ x y, g x = some y → up x = some y := by
    intro x y h
    by_cases hx : x = a
    · rw [hx, ← ha, ← hx]
      exact h
    · rw [hlt x hx] at h
      exact (broken_eq_some.mp h).1
  have hle : ∀ x y, g x = some y → x ≤ a := by
    intro x y h
    by_cases hx : x = a
    · exact hx.le
    · rw [hlt x hx] at h
      exact (broken_eq_some.mp h).2.1.le
  constructor
  · intro hcycle
    refine ⟨hcycle.of_sub hsub, ?_⟩
    intro k b hb
    -- all that `a` leads to is on the cycle of `g`, and refers to something there
    obtain ⟨c, hc⟩ := Option.isSome_iff_exists.mp (isSome_climb_of_onCycle hcycle k)
    rw [climb_of_sub hsub hc, Option.some.injEq] at hb
    have hnext := isSome_climb_of_onCycle hcycle (k + 1)
    rw [climb, hc, Option.bind_some] at hnext
    obtain ⟨d, hd⟩ := Option.isSome_iff_exists.mp hnext
    exact hb ▸ hle c d hd
  · rintro ⟨⟨k, hk⟩, hmax⟩
    -- around the cycle of `up` up to the first return to `a`, all references are still there
    have hex : ∃ j, climb up (j + 1) a = some a := ⟨k, hk⟩
    classical
    refine ⟨Nat.find hex, ?_⟩
    have hfirst : climb up (Nat.find hex + 1) a = some a := Nat.find_spec hex
    have hmin : ∀ j < Nat.find hex, climb up (j + 1) a ≠ some a := fun j hj => Nat.find_min hex hj
    generalize Nat.find hex = m at hfirst hmin
    have hsame : ∀ j ≤ m + 1, climb g j a = climb up j a := by
      intro j hj
      induction j with
      | zero => rfl
      | succ j ih =>
        rw [climb, climb, ih (Nat.le_of_succ_le hj)]
        obtain ⟨c, hc⟩ := Option.isSome_iff_exists.mp (isSome_climb_of_le (Nat.le_of_succ_le hj) hfirst)
        rw [hc, Option.bind_some, Option.bind_some]
        cases j with
        | zero =>
          rw [climb, Option.some.injEq] at hc
          rw [← hc, ha]
        | succ j =>
          have hca : c ≠ a := fun h => hmin j (by omega) (h ▸ hc)
          have hclt : c < a := lt_of_le_of_ne (hmax (j + 1) c hc) hca
          -- from `c` the greater `a` is reached
          have hnot : ¬ Newest up c := by
            rintro ⟨-, hcmax⟩
            have hsplit : m + 1 = (j + 1) + (m - j) := by omega
            have hrest : climb up (m - j) c = some a := by
              rw [hsplit, climb_add, hc, Option.bind_some] at hfirst
              exact hfirst
            exact absurd hclt (not_lt.mpr (hcmax (m - j) a hrest))
          rw [hlt c hca, broken, if_pos ⟨hclt, hnot⟩]
    rw [hsame (m + 1) (Nat.le_refl _), hfirst]

/-- Without the reference of `a` when it is the greatest element of a cycle, all elements up to `a` are taken up. -/
theorem broken_le (hlt : ∀ x, x ≠ a → g x = broken up (· < a) x) (ha : g a = up a) :
    (Newest up a → Function.update g a none = broken up (· ≤ a)) ∧ (¬ Newest up a → g = broken up (· ≤ a)) := by
  have hother : ∀ x, x ≠ a → g x = broken up (· ≤ a) x := by
    intro x hx
    rw [hlt x hx, broken, broken]
    congr 1
    rw [lt_iff_le_and_ne, eq_iff_iff, and_iff_left hx]
  constructor
  · intro hnew
    funext x
    by_cases hx : x = a
    · rw [hx, Function.update_self, broken, if_neg fun h => h.2 hnew]
    · rw [Function.update_of_ne hx, hother x hx]
  · intro hnew
    funext x
    by_cases hx : x = a
    · rw [hx, ha, broken, if_pos ⟨le_refl a, hnew⟩]
    · exact hother x hx

/-- The walk from the reference of `a` comes to an end, or back to `a`, before it is longer than the list of all
elements. -/
theorem walk_ends (hlt : ∀ x, x ≠ a → g x = broken up (· < a) x) {l : List α}
    (hl : ∀ x, (g x).isSome = true → x ∈ l) (p : α) :
    climb g (l.length + 1) p = none ∨ ∃ k ≤ l.length, climb g k p = some a := by
  cases hc : climb g (l.length + 1) p with
  | none => exact Or.inl rfl
  | some b =>
    right
    obtain ⟨hcycle, -⟩ := exists_cycle_of_long hl (Nat.lt_succ_self _) hc
    by_contra hno
    -- a cycle that does not go through `a` is one of the references that are left
    have hne : ∀ n c, climb g n b = some c → c ≠ a := by
      intro n c hn hca
      have hreach : climb g (l.length + 1 + n) p = some a := by
        rw [climb_add, hc, Option.bind_some, hn, hca]
      obtain ⟨k, hk, hka⟩ := exists_climb_le hl hreach
      exact hno ⟨k, hk, hka⟩
    obtain ⟨m, hm⟩ := hcycle
    refine acyclic_broken up (· < a) b ⟨m, ?_⟩
    have hsame : ∀ j, climb (broken up (· < a)) j b = climb g j b := by
      intro j
      induction j with
      | zero => rfl
      | succ j ih =>
        rw [climb, climb, ih]
        cases hj : climb g j b with
        | none => rfl
        | some c => rw [Option.bind_some, Option.bind_some, hlt c (hne j c hj)]
    rw [hsame, hm]

end Newest

end Chain
