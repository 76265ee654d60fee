import BuildInProgress.Lib.Table
import Mathlib.Algebra.BigOperators.Group.List.Lemmas
import Mathlib.Algebra.GroupWithZero.Nat
import Mathlib.Data.List.Nodup

/-!
# Lists of rows

What a query returns is a list.  These are the facts about searching, counting and looping over such lists that
several tables need.
-/

namespace Rows

/-! ## Searching -/

theorem find?_eq_of_unique {α : Type} {l : List α} {q : α → Bool} {a : α} (ha : a ∈ l) (hq : q a = true)
    (hunique : ∀ b ∈ l, q b = true → b = a) : l.find? q = some a := by
  cases hfind : l.find? q with
  | none =>
    have hno := List.find?_eq_none.mp hfind a ha
    exact absurd hq hno
  | some b => rw [hunique b (List.mem_of_find?_eq_some hfind) (List.find?_some hfind)]

theorem mem_of_lookup {α β : Type} [BEq α] [LawfulBEq α] {l : List (α × β)} {a : α} {b : β} (h : l.lookup a = some b) :
    (a, b) ∈ l := by
  obtain ⟨l₁, l₂, rfl, -⟩ := List.lookup_eq_some_iff.mp h
  simp

theorem map_getLast?_cons {α β : Type} (f : α → β) (a : α) (l : List α) :
    (a :: l).getLast?.map f = some ((l.getLast?.map f).getD (f a)) := by
  rw [List.getLast?_cons, Option.map_some]
  cases l.getLast? with
  | none => rfl
  | some b => rfl

/-! ## Keeping a selection -/

/-- Rows that keep their keys leave a selection as it is when none of its rows changes and none comes in or goes. -/
theorem filter_map_eq_iff {α β : Type} {l : List α} {key : α → β} (hn : (l.map key).Nodup) {f : α → α}
    (hf : ∀ a, key (f a) = key a) {p : α → Bool} :
    (l.map f).filter p = l.filter p ↔ ∀ a ∈ l, f a = a ∨ p a = false ∧ p (f a) = false := by
  constructor
  · intro h a ha
    by_contra hno
    rw [not_or, not_and_or, Bool.not_eq_false, Bool.not_eq_false] at hno
    rcases hno.2 with hold | hnew
    · -- the row has to be among the new ones
      have hmem : a ∈ (l.map f).filter p := by
        rw [h]
        exact List.mem_filter.mpr ⟨ha, hold⟩
      obtain ⟨b, hb, hba⟩ := List.mem_map.mp (List.mem_filter.mp hmem).1
      have hkey : key b = key a := by rw [← hf b, hba]
      rw [List.inj_on_of_nodup_map hn hb ha hkey] at hba
      exact hno.1 hba
    · have hmem : f a ∈ l.filter p := by
        rw [← h]
        exact List.mem_filter.mpr ⟨List.mem_map_of_mem ha, hnew⟩
      exact hno.1 (List.inj_on_of_nodup_map hn (List.mem_filter.mp hmem).1 ha (hf a))
  · intro h
    induction l with
    | nil => rfl
    | cons a l ih =>
      rw [List.forall_mem_cons] at h
      have hrest := ih (List.nodup_cons.mp hn).2 h.2
      rcases h.1 with hsame | ⟨hold, hnew⟩
      · rw [List.map_cons, hsame, List.filter_cons, List.filter_cons, hrest]
      · rw [List.map_cons, List.filter_cons_of_neg (by simp [hnew]), List.filter_cons_of_neg (by simp [hold]), hrest]

theorem filter_filter_eq_iff {α : Type} {l : List α} {p r : α → Bool} :
    (l.filter r).filter p = l.filter p ↔ ∀ a ∈ l, p a = true → r a = true := by
  rw [List.filter_filter]
  constructor
  · intro h a ha hp
    have hmem : a ∈ l.filter p := List.mem_filter.mpr ⟨ha, hp⟩
    rw [← h, List.mem_filter, Bool.and_eq_true] at hmem
    exact hmem.2.2
  · intro h
    refine List.filter_congr fun a ha => ?_
    cases hp : p a with
    | false => rfl
    | true => rw [h a ha hp]; rfl

/-! ## Rows outside

Which changes leave the rows alone that a foreign key puts outside of a set.
-/

section Outside

variable {α β : Type} {column : α → Option Nat} {S : Nat → Prop} {l l' : List α}

/-- The rows that point to a key outside of `S` are the same. -/
def Outside (column : α → Option Nat) (S : Nat → Prop) (l l' : List α) : Prop :=
  ∀ q, ¬ S q → l'.filter (fun a => column a = some q) = l.filter fun a => column a = some q

theorem Outside.refl (column : α → Option Nat) (S : Nat → Prop) (l : List α) : Outside column S l l := fun _ _ => rfl

theorem not_inside_iff {c : Option Nat} : ¬ Inside S c ↔ ∃ q, ¬ S q ∧ c = some q := by
  rw [Inside]
  push Not
  exact exists_congr fun q => and_comm

theorem outside_concat_iff {a : α} : Outside column S l (l ++ [a]) ↔ Inside S (column a) := by
  constructor
  · intro h
    by_contra hno
    obtain ⟨q, hq, ha⟩ := not_inside_iff.mp hno
    have hlength := congrArg List.length (h q hq)
    rw [List.filter_append, List.filter_cons_of_pos (by simpa using ha), List.length_append] at hlength
    simp at hlength
  · exact fun h q hq => List.filter_concat_outside hq h

theorem outside_map_iff {key : α → β} (hn : (l.map key).Nodup) {f : α → α} (hf : ∀ a, key (f a) = key a) :
    Outside column S l (l.map f) ↔ ∀ a ∈ l, f a = a ∨ Inside S (column a) ∧ Inside S (column (f a)) := by
  constructor
  · intro h a ha
    by_contra hno
    rw [not_or, not_and_or, not_inside_iff, not_inside_iff] at hno
    obtain ⟨hne, ⟨q, hq, hold⟩ | ⟨q, hq, hnew⟩⟩ := hno
    · rcases (filter_map_eq_iff hn hf).mp (h q hq) a ha with hsame | ⟨hout, -⟩
      · exact hne hsame
      · exact of_decide_eq_false hout hold
    · rcases (filter_map_eq_iff hn hf).mp (h q hq) a ha with hsame | ⟨-, hout⟩
      · exact hne hsame
      · exact of_decide_eq_false hout hnew
  · exact fun h q hq => List.filter_map_outside hq h

theorem outside_filter_iff {r : α → Bool} :
    Outside column S l (l.filter r) ↔ ∀ a ∈ l, r a = true ∨ Inside S (column a) := by
  constructor
  · intro h a ha
    by_contra hno
    rw [not_or, not_inside_iff] at hno
    obtain ⟨hr, q, hq, hcolumn⟩ := hno
    exact hr (filter_filter_eq_iff.mp (h q hq) a ha (decide_eq_true hcolumn))
  · exact fun h q hq => List.filter_filter_outside hq h

/-- Some rows are rewritten under their keys and columns, and of all some are kept. -/
theorem outside_map_filter_iff {key : α → β} (hn : (l.map key).Nodup) {f : α → α} (hf : ∀ a, key (f a) = key a)
    (hcolumn : ∀ a, column (f a) = column a) {r : α → Bool} (hr : ∀ a, r (f a) = r a) :
    Outside column S l ((l.map f).filter r) ↔ ∀ a ∈ l, f a = a ∧ r a = true ∨ Inside S (column a) := by
  have hmap : (l.map f).filter r = (l.filter r).map f := by
    rw [List.filter_map]
    exact congrArg _ (List.filter_congr fun a _ => hr a)
  constructor
  · intro h a ha
    by_contra hno
    rw [not_or, not_inside_iff] at hno
    obtain ⟨hchange, q, hq, hq'⟩ := hno
    -- the row is still there, under its key, so it is itself
    have hmem : a ∈ ((l.map f).filter r).filter fun a => column a = some q := by
      rw [h q hq]
      exact List.mem_filter.mpr ⟨ha, decide_eq_true hq'⟩
    obtain ⟨hfiltered, -⟩ := List.mem_filter.mp hmem
    rw [hmap] at hfiltered
    obtain ⟨b, hb, hba⟩ := List.mem_map.mp hfiltered
    obtain ⟨hbl, hbr⟩ := List.mem_filter.mp hb
    have hkey : key b = key a := by rw [← hf b, hba]
    rw [List.inj_on_of_nodup_map hn hbl ha hkey] at hba hbr
    exact hchange ⟨hba, hbr⟩
  · intro h q hq
    have hkept := @List.filter_map_outside _ column _ _ l hq f fun a ha =>
      (h a ha).imp And.left fun hin => ⟨hin, (hcolumn a).symm ▸ hin⟩
    have hrest := @List.filter_filter_outside _ column _ _ (l.map f) hq r fun b hb => by
      obtain ⟨a, ha, rfl⟩ := List.mem_map.mp hb
      rw [hr, hcolumn]
      exact (h a ha).imp And.right id
    exact hrest.trans hkept

end Outside

/-! ## Writing by key -/

/-- For each of the listed keys in turn, the rows with the key are written with the index of the key. -/
def writeFrom {α : Type} (key : α → Nat) (write : Nat → α → α) : Nat → List Nat → List α → List α
  | _, [], rows => rows
  | index, i :: ids, rows =>
    writeFrom key write (index + 1) ids (rows.map fun a => if key a = i then write index a else a)

/-- The last index of a key. -/
def lastIdxOf (ids : List Nat) (i : Nat) : Nat := ids.length - 1 - ids.reverse.idxOf i

/-- What is written last stays. -/
theorem writeFrom_eq {α : Type} {key : α → Nat} {write : Nat → α → α} (hkey : ∀ n a, key (write n a) = key a)
    (hwrite : ∀ m n a, write n (write m a) = write n a) (ids : List Nat) (rows : List α) :
    writeFrom key write 0 ids rows =
      rows.map fun a => if key a ∈ ids then write (lastIdxOf ids (key a)) a else a := by
  have hsnoc : ∀ (ids : List Nat) (index j : Nat) (rows : List α), writeFrom key write index (ids ++ [j]) rows =
      writeFrom key write (index + ids.length) [j] (writeFrom key write index ids rows) := by
    intro ids
    induction ids with
    | nil => exact fun _ _ _ => rfl
    | cons i ids ih =>
      intro index j rows
      have hindex : index + (i :: ids).length = index + 1 + ids.length := by
        rw [List.length_cons]
        omega
      rw [List.cons_append, writeFrom, ih, hindex]
      rfl
  induction ids using List.reverseRecOn with
  | nil => simp [writeFrom]
  | append_singleton ids j ih =>
    rw [hsnoc, ih, Nat.zero_add, writeFrom, writeFrom, List.map_map]
    refine List.map_congr_left fun a _ => ?_
    have hsame : key (if key a ∈ ids then write (lastIdxOf ids (key a)) a else a) = key a := by
      split
      · exact hkey _ _
      · rfl
    have hlast : lastIdxOf (ids ++ [j]) (key a) = ids.length - (j :: ids.reverse).idxOf (key a) := by
      rw [lastIdxOf, List.reverse_append, List.length_append]
      rfl
    rw [Function.comp, hsame, hlast]
    by_cases hj : key a = j
    · subst hj
      have hmem : key a ∈ ids ++ [key a] := by simp
      rw [if_pos rfl, if_pos hmem, List.idxOf_cons_self, Nat.sub_zero]
      split
      · exact hwrite _ _ _
      · rfl
    · have hmem : key a ∈ ids ++ [j] ↔ key a ∈ ids := by simp [hj]
      rw [if_neg hj, List.idxOf_cons_ne _ (Ne.symm hj)]
      by_cases hm : key a ∈ ids
      · rw [if_pos hm, if_pos (hmem.mpr hm), lastIdxOf]
        congr 1
        omega
      · rw [if_neg hm, if_neg fun h => hm (hmem.mp h)]

/-! ## Counting -/

theorem foldl_add_eq {α : Type} (f : α → Nat) (l : List α) (n : Nat) :
    l.foldl (fun m a => m + f a) n = n + (l.map f).sum := by
  induction l generalizing n with
  | nil => rfl
  | cons a l ih => rw [List.foldl_cons, ih, List.map_cons, List.sum_cons, Nat.add_assoc]

/-- Adding up how often each repeated value occurs is counting its occurrences. -/
theorem sum_repeated {α : Type} [DecidableEq α] (l : List α) :
    ((l.dedup.filter fun v => 1 < (l.filter (· = v)).length).map fun v => (l.filter (· = v)).length).sum =
      l.countP fun v => 1 < (l.filter (· = v)).length := by
  have hcount : ∀ v, (l.filter (· = v)).length = l.count v := fun v => by
    rw [List.count, List.countP_eq_length_filter]
    rfl
  simp only [hcount]
  exact List.sum_map_count_dedup_filter_eq_countP _ l

/-- A list without repetitions has more than `s` that is selected exactly when another element is. -/
theorem one_lt_length_filter {α : Type} {l : List α} (hl : l.Nodup) {q : α → Bool} {s : α} (hs : s ∈ l)
    (hq : q s = true) : 1 < (l.filter q).length ↔ ∃ u ∈ l, u ≠ s ∧ q u = true := by
  have hmem : s ∈ l.filter q := List.mem_filter.mpr ⟨hs, hq⟩
  constructor
  · intro hlen
    by_contra hnone
    have hsub : l.filter q ⊆ [s] := by
      intro u hu
      obtain ⟨hul, huq⟩ := List.mem_filter.mp hu
      by_contra hne
      exact hnone ⟨u, hul, fun heq => hne (List.mem_singleton.mpr heq), huq⟩
    have hle := (List.subperm_of_subset (hl.filter q) hsub).length_le
    exact absurd hlen (Nat.not_lt.mpr hle)
  · rintro ⟨u, hu, hne, huq⟩
    have hpair : [u, s].Nodup := by simpa using hne
    have hsub : [u, s] ⊆ l.filter q := by
      intro x hx
      rcases List.mem_pair.mp hx with rfl | rfl
      · exact List.mem_filter.mpr ⟨hu, huq⟩
      · exact hmem
    exact (List.subperm_of_subset hpair hsub).length_le

/-! ## Loops -/

/-- A loop that raises at one of its elements raises. -/
theorem foldlM_eq_none {α β : Type} {f : β → α → Option β} {l : List α} {a : α} (ha : a ∈ l)
    (h : ∀ b, f b a = none) (b : β) : l.foldlM f b = none := by
  induction l generalizing b with
  | nil => cases ha
  | cons c l ih =>
    rw [List.foldlM_cons]
    rcases List.mem_cons.mp ha with rfl | ha
    · rw [h]
      rfl
    · cases f b c with
      | none => rfl
      | some b' => exact ih ha b'

end Rows
