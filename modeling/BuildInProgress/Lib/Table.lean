import Mathlib.Data.List.Nodup

/-!
# Tables with a serial primary key

A table is the list of its rows together with the next value of its key sequence.  Two facts are
carried by the type because every database keeps them: no two rows share a key, and every key has
been drawn from the sequence.  Row updates, deletions and insertions are the only ways to build a
new table from an old one, so the facts never have to be proved again.
-/

/-- A row type with its primary key. -/
class Keyed (α : Type) where
  key : α → Nat

open Keyed

/-- Rewriting each row to itself changes nothing. -/
theorem List.map_eq_self_of_forall {α : Type} {f : α → α} {l : List α} (h : ∀ a ∈ l, f a = a) :
    l.map f = l := by
  rw [List.map_congr_left h, List.map_id']

/-- The list when the element with the key `i` is replaced. -/
theorem List.mem_map_replace {α : Type} {l : List α} {k : α → Nat} {i : Nat} {b x : α} (h : ∃ a ∈ l, k a = i) :
    x ∈ l.map (fun a => if k a = i then b else a) ↔ x = b ∨ x ∈ l ∧ k x ≠ i := by
  rw [List.mem_map]
  constructor
  · rintro ⟨a, ha, rfl⟩
    split
    · exact Or.inl rfl
    · rename_i hne
      exact Or.inr ⟨ha, hne⟩
  · rintro (rfl | ⟨hx, hne⟩)
    · obtain ⟨a, ha, hk⟩ := h
      exact ⟨a, ha, if_pos hk⟩
    · exact ⟨x, hx, if_neg hne⟩

theorem List.takeWhile_congr {α : Type} {p q : α → Bool} {l : List α} (h : ∀ a ∈ l, p a = q a) :
    l.takeWhile p = l.takeWhile q := by
  induction l with
  | nil => rfl
  | cons a l ih =>
    rw [List.takeWhile_cons, List.takeWhile_cons, h a List.mem_cons_self,
      ih fun b hb => h b (List.mem_cons_of_mem _ hb)]

/-! ## Rows by a foreign key

The rows that a foreign key puts outside of a set are the same after a change to rows inside. -/

/-- A foreign key points into `S`, or nowhere. -/
def Inside (S : Nat → Prop) (column : Option Nat) : Prop := ∀ q, column = some q → S q

section Outside

variable {α : Type} {column : α → Option Nat} {S : Nat → Prop} {q : Nat} {l : List α}

theorem List.filter_map_outside (hq : ¬ S q) {f : α → α}
    (h : ∀ a ∈ l, f a = a ∨ Inside S (column a) ∧ Inside S (column (f a))) :
    (l.map f).filter (fun a => column a = some q) = l.filter fun a => column a = some q := by
  induction l with
  | nil => rfl
  | cons a l ih =>
    have hrest := ih fun x hx => h x (List.mem_cons_of_mem _ hx)
    rcases h a List.mem_cons_self with heq | ⟨hbefore, hafter⟩
    · rw [List.map_cons, heq, List.filter_cons, List.filter_cons, hrest]
    · have h1 : ¬ column a = some q := fun e => hq (hbefore q e)
      have h2 : ¬ column (f a) = some q := fun e => hq (hafter q e)
      rw [List.map_cons, List.filter_cons_of_neg (by simpa using h2),
        List.filter_cons_of_neg (by simpa using h1), hrest]

theorem List.filter_filter_outside (hq : ¬ S q) {p : α → Bool}
    (h : ∀ a ∈ l, p a = true ∨ Inside S (column a)) :
    (l.filter p).filter (fun a => column a = some q) = l.filter fun a => column a = some q := by
  rw [List.filter_filter]
  apply List.filter_congr
  intro a ha
  rcases h a ha with hp | hin
  · rw [hp, Bool.and_true]
  · have hout : ¬ column a = some q := fun e => hq (hin q e)
    rw [decide_eq_false hout, Bool.false_and]

theorem List.filter_concat_outside (hq : ¬ S q) {a : α} (h : Inside S (column a)) :
    (l ++ [a]).filter (fun a => column a = some q) = l.filter fun a => column a = some q := by
  have hout : ¬ column a = some q := fun e => hq (h q e)
  rw [List.filter_append, List.filter_cons_of_neg (by simpa using hout), List.filter_nil, List.append_nil]

end Outside

/-! A search does not see what happens to rows it does not look for. -/

theorem List.find?_map_unseen {α : Type} {l : List α} {p : α → Bool} {f : α → α}
    (h : ∀ a ∈ l, f a = a ∨ p a = false ∧ p (f a) = false) : (l.map f).find? p = l.find? p := by
  induction l with
  | nil => rfl
  | cons a l ih =>
    have hrest := ih fun x hx => h x (List.mem_cons_of_mem _ hx)
    rcases h a List.mem_cons_self with heq | ⟨hbefore, hafter⟩
    · rw [List.map_cons, heq, List.find?_cons, List.find?_cons, hrest]
    · rw [List.map_cons, List.find?_cons, List.find?_cons, hbefore, hafter, hrest]

theorem List.find?_filter_unseen {α : Type} {l : List α} {p f : α → Bool}
    (h : ∀ a ∈ l, p a = true → f a = true) : (l.filter f).find? p = l.find? p := by
  induction l with
  | nil => rfl
  | cons a l ih =>
    have hrest := ih fun x hx => h x (List.mem_cons_of_mem _ hx)
    cases hp : p a with
    | true =>
      rw [List.filter_cons_of_pos (h a List.mem_cons_self hp), List.find?_cons, List.find?_cons, hp]
    | false =>
      rw [List.filter_cons, List.find?_cons, hp, ← hrest]
      split
      · rw [List.find?_cons, hp]
      · rfl

theorem List.find?_concat_unseen {α : Type} {l : List α} {p : α → Bool} {a : α} (h : p a = false) :
    (l ++ [a]).find? p = l.find? p := by
  rw [List.find?_append, List.find?_cons, h, List.find?_nil, Option.or_none]

structure Table (α : Type) [Keyed α] where
  rows : List α
  next : Nat
  next_pos : 0 < next
  nodup : (rows.map key).Nodup
  bound : ∀ r ∈ rows, 0 < key r ∧ key r < next

namespace Table

variable {α : Type} [Keyed α]

def empty : Table α where
  rows := []
  next := 1
  next_pos := Nat.one_pos
  nodup := List.nodup_nil
  bound := by simp

/-- What a list of rows and the next key need in order to be a table. -/
def WellKeyed (rows : List α) (next : Nat) : Prop :=
  0 < next ∧ (rows.map key).Nodup ∧ ∀ r ∈ rows, 0 < key r ∧ key r < next

instance (rows : List α) (next : Nat) : Decidable (WellKeyed rows next) := inferInstanceAs (Decidable (_ ∧ _ ∧ _))

/-- A table written out. -/
def ofRows (rows : List α) (next : Nat) (h : WellKeyed rows next) : Table α := ⟨rows, next, h.1, h.2.1, h.2.2⟩

@[simp] theorem rows_ofRows (rows : List α) (next : Nat) (h : WellKeyed rows next) :
    (ofRows rows next h).rows = rows := rfl

@[simp] theorem next_ofRows (rows : List α) (next : Nat) (h : WellKeyed rows next) :
    (ofRows rows next h).next = next := rfl

/-- Rewrite every row, keeping its key. -/
def map (t : Table α) (f : α → α) (hf : ∀ r, key (f r) = key r) : Table α where
  rows := t.rows.map f
  next := t.next
  next_pos := t.next_pos
  nodup := by
    have h : key ∘ f = key := funext hf
    rw [List.map_map, h]
    exact t.nodup
  bound := by
    intro r hr
    obtain ⟨r', hr', rfl⟩ := List.mem_map.mp hr
    rw [hf]
    exact t.bound r' hr'

/-- Rewrite the row with key `i`. -/
def modify (t : Table α) (i : Nat) (f : α → α) (hf : ∀ r, key (f r) = key r) : Table α :=
  t.map (fun r => if key r = i then f r else r) (by intro r; split <;> simp [hf])

/-- Keep the rows that satisfy `p`. -/
def filter (t : Table α) (p : α → Bool) : Table α where
  rows := t.rows.filter p
  next := t.next
  next_pos := t.next_pos
  nodup := t.nodup.sublist (List.filter_sublist.map _)
  bound := fun r hr => t.bound r (List.mem_of_mem_filter hr)

/-- Add a row under the next key of the sequence. -/
def insert (t : Table α) (mk : Nat → α) (hmk : ∀ i, key (mk i) = i) : Table α where
  rows := t.rows ++ [mk t.next]
  next := t.next + 1
  next_pos := Nat.succ_pos _
  nodup := by
    rw [List.map_append, List.map_singleton, hmk, List.nodup_append]
    refine ⟨t.nodup, List.nodup_singleton _, ?_⟩
    intro i hi j hj
    obtain ⟨r, hr, rfl⟩ := List.mem_map.mp hi
    have hb := (t.bound r hr).2
    rw [List.mem_singleton] at hj
    omega
  bound := by
    intro r hr
    rcases List.mem_append.mp hr with h | h
    · have hb := t.bound r h
      omega
    · rw [List.mem_singleton.mp h, hmk]
      exact ⟨t.next_pos, Nat.lt_succ_self _⟩

def find? (t : Table α) (i : Nat) : Option α :=
  t.rows.find? (fun r => key r == i)

@[simp] theorem rows_map (t : Table α) (f : α → α) (hf : ∀ r, key (f r) = key r) :
    (t.map f hf).rows = t.rows.map f := rfl

@[simp] theorem rows_modify (t : Table α) (i : Nat) (f : α → α) (hf : ∀ r, key (f r) = key r) :
    (t.modify i f hf).rows = t.rows.map (fun r => if key r = i then f r else r) := rfl

@[simp] theorem rows_filter (t : Table α) (p : α → Bool) :
    (t.filter p).rows = t.rows.filter p := rfl

/-- A map that keeps every row keeps the table. -/
theorem map_eq_self {t : Table α} {f : α → α} {hf : ∀ r, key (f r) = key r} (h : ∀ r ∈ t.rows, f r = r) :
    t.map f hf = t := by
  cases t with
  | mk rows next next_pos nodup bound =>
    have hrows : rows.map f = rows := List.map_eq_self_of_forall h
    unfold map
    simp only [hrows]

/-- A filter that keeps every row keeps the table. -/
theorem filter_eq_self {t : Table α} {p : α → Bool} (h : ∀ r ∈ t.rows, p r = true) : t.filter p = t := by
  cases t with
  | mk rows next next_pos nodup bound =>
    have hrows : rows.filter p = rows := List.filter_eq_self.mpr h
    unfold filter
    simp only [hrows]

theorem filter_congr {t : Table α} {p q : α → Bool} (h : ∀ r ∈ t.rows, p r = q r) : t.filter p = t.filter q := by
  cases t with
  | mk rows next next_pos nodup bound =>
    have hrows : rows.filter p = rows.filter q := List.filter_congr h
    unfold filter
    simp only [hrows]

theorem filter_filter (t : Table α) (p q : α → Bool) : (t.filter p).filter q = t.filter fun r => p r && q r := by
  cases t with
  | mk rows next next_pos nodup bound =>
    have hrows : (rows.filter p).filter q = rows.filter fun r => p r && q r := by
      rw [List.filter_filter]
      exact List.filter_congr fun r _ => Bool.and_comm _ _
    unfold filter
    simp only [hrows]

/-- A filter does not see a change of the row that it takes away. -/
theorem filter_modify (t : Table α) (i : Nat) (f : α → α) (hf : ∀ r, key (f r) = key r) :
    (t.modify i f hf).filter (fun r => key r ≠ i) = t.filter fun r => key r ≠ i := by
  have hrows : (t.modify i f hf).rows.filter (fun r => key r ≠ i) = t.rows.filter fun r => key r ≠ i := by
    rw [modify, map]
    dsimp only
    rw [List.filter_map]
    have hsame : ((fun r => decide (key r ≠ i)) ∘ fun r => if key r = i then f r else r) = fun r => decide (key r ≠ i) := by
      funext r
      rw [Function.comp]
      split
      · rw [hf]
      · rfl
    rw [hsame]
    apply List.map_eq_self_of_forall
    intro r hr
    exact if_neg (of_decide_eq_true (List.mem_filter.mp hr).2)
  unfold filter
  simp only [hrows]
  rfl

@[simp] theorem rows_insert (t : Table α) (mk : Nat → α) (hmk : ∀ i, key (mk i) = i) :
    (t.insert mk hmk).rows = t.rows ++ [mk t.next] := rfl

@[simp] theorem next_modify (t : Table α) (i : Nat) (f : α → α) (hf : ∀ r, key (f r) = key r) :
    (t.modify i f hf).next = t.next := rfl

/-- Rewriting the row that was inserted last. -/
theorem rows_modify_concat {t t' : Table α} {r : α} (h : t'.rows = t.rows ++ [r]) (hr : key r = t.next)
    (f : α → α) (hf : ∀ r, key (f r) = key r) : (t'.modify t.next f hf).rows = t.rows ++ [f r] := by
  rw [rows_modify, h, List.map_append, List.map_singleton, if_pos hr]
  congr 1
  apply List.map_eq_self_of_forall
  intro r hr
  exact if_neg (Nat.ne_of_lt (t.bound r hr).2)

/-- Rewrite the rows with the given keys one after the other, each with its place in the list, counted from
`k`. -/
def modifyFrom (f : Nat → α → α) (hf : ∀ k r, key (f k r) = key r) : Nat → List Nat → Table α → Table α
  | _, [], t => t
  | k, i :: ids, t => modifyFrom f hf (k + 1) ids (t.modify i (f k) (hf k))

theorem rows_modifyFrom {f : Nat → α → α} (hf : ∀ k r, key (f k r) = key r) {ids : List Nat} (hn : ids.Nodup)
    (k : Nat) (t : Table α) :
    (t.modifyFrom f hf k ids).rows =
      t.rows.map fun r => if key r ∈ ids then f (k + ids.idxOf (key r)) r else r := by
  induction ids generalizing k t with
  | nil =>
    symm
    apply List.map_eq_self_of_forall
    intro r _
    exact if_neg List.not_mem_nil
  | cons i ids ih =>
    rw [List.nodup_cons] at hn
    rw [modifyFrom, ih hn.2, rows_modify, List.map_map]
    apply List.map_congr_left
    intro r _
    rw [Function.comp]
    by_cases hi : key r = i
    · -- the row is rewritten now and not again
      rw [if_pos hi, hf, hi, if_neg hn.1, if_pos List.mem_cons_self, List.idxOf_cons_self, Nat.add_zero]
    · rw [if_neg hi]
      by_cases hr : key r ∈ ids
      · rw [if_pos hr, if_pos (List.mem_cons_of_mem _ hr), List.idxOf_cons_ne _ (Ne.symm hi)]
        congr 1
        omega
      · rw [if_neg hr, if_neg fun h => hr ((List.mem_cons.mp h).resolve_left hi)]

/-- A key names at most one row. -/
theorem eq_of_key {t : Table α} {r r' : α} (hr : r ∈ t.rows) (hr' : r' ∈ t.rows)
    (hk : key r = key r') : r = r' :=
  List.inj_on_of_nodup_map t.nodup hr hr' hk

/-- Lists of rows with the same keys are the same. -/
theorem eq_of_map_key {t : Table α} {l m : List α} (hl : ∀ r ∈ l, r ∈ t.rows) (hm : ∀ r ∈ m, r ∈ t.rows)
    (h : l.map key = m.map key) : l = m := by
  induction l generalizing m with
  | nil => exact (List.map_eq_nil_iff.mp h.symm).symm
  | cons a l ih =>
    obtain ⟨b, m, rfl, hkey, hrest⟩ := List.map_eq_cons_iff.mp h.symm
    obtain ⟨ha, hl⟩ := List.forall_mem_cons.mp hl
    obtain ⟨hb, hm⟩ := List.forall_mem_cons.mp hm
    rw [eq_of_key hb ha hkey, ih hl hm hrest.symm]

theorem find?_eq_some {t : Table α} {i : Nat} {r : α} :
    t.find? i = some r ↔ r ∈ t.rows ∧ key r = i := by
  constructor
  · intro h
    exact ⟨List.mem_of_find?_eq_some h, by simpa using List.find?_some h⟩
  · rintro ⟨hr, rfl⟩
    cases hf : t.find? (key r) with
    | none =>
      have hn := List.find?_eq_none.mp hf r hr
      simp at hn
    | some r' =>
      have hr' := List.mem_of_find?_eq_some hf
      have hk : key r' = key r := by simpa using List.find?_some hf
      rw [eq_of_key hr' hr hk]

theorem find?_of_mem {t : Table α} {r : α} (hr : r ∈ t.rows) : t.find? (key r) = some r :=
  find?_eq_some.mpr ⟨hr, rfl⟩

theorem find?_eq_none {t : Table α} {i : Nat} :
    t.find? i = none ↔ ∀ r ∈ t.rows, key r ≠ i := by
  simp [find?, List.find?_eq_none]

theorem isSome_find? {t : Table α} {i : Nat} : (t.find? i).isSome = true ↔ i ∈ t.rows.map key := by
  rw [Option.isSome_iff_exists, List.mem_map]
  exact exists_congr fun r => find?_eq_some

/-- What is written to the rows under a key depends on the one row that the key finds. -/
theorem map_congr_found {t : Table α} {i : Nat} {r : α} (hr : t.find? i = some r) {f g : α → α} (h : f r = g r) :
    (t.rows.map fun a => if key a = i then f a else a) = t.rows.map fun a => if key a = i then g a else a := by
  obtain ⟨hmem, hkey⟩ := find?_eq_some.mp hr
  apply List.map_congr_left
  intro a ha
  by_cases hai : key a = i
  · rw [if_pos hai, if_pos hai, eq_of_key ha hmem (hai.trans hkey.symm), h]
  · rw [if_neg hai, if_neg hai]

theorem map_found_self {t : Table α} {i : Nat} {r : α} (hr : t.find? i = some r) {f : α → α} (h : f r = r) :
    (t.rows.map fun a => if key a = i then f a else a) = t.rows := by
  rw [map_congr_found hr (g := id) h]
  simp

theorem map_not_found {t : Table α} {i : Nat} (h : t.find? i = none) (f : α → α) :
    (t.rows.map fun a => if key a = i then f a else a) = t.rows := by
  have hnone := find?_eq_none.mp h
  apply List.map_eq_self_of_forall
  intro a ha
  exact if_neg (hnone a ha)

/-- When the rows are rewritten and keep their keys, the row that is found is rewritten. -/
theorem find?_of_rows_map {t t' : Table α} {f : α → α} (hrows : t'.rows = t.rows.map f)
    (hf : ∀ r, key (f r) = key r) (i : Nat) : t'.find? i = (t.find? i).map f := by
  rw [find?, hrows, List.find?_map, find?]
  congr 2
  funext r
  rw [Function.comp, hf]

theorem find?_map (t : Table α) (f : α → α) (hf : ∀ r, key (f r) = key r) (i : Nat) :
    (t.map f hf).find? i = (t.find? i).map f :=
  find?_of_rows_map (t.rows_map f hf) hf i

theorem find?_modify (t : Table α) (i : Nat) (f : α → α) (hf : ∀ r, key (f r) = key r) (j : Nat) :
    (t.modify i f hf).find? j = (t.find? j).map fun r => if key r = i then f r else r :=
  t.find?_map _ _ j

/-- The row that a search finds is found changed, when the change does not matter to the search. -/
theorem find?_where_modify {t : Table α} {q : α → Bool} {r : α} (hr : t.rows.find? q = some r) (f : α → α)
    (hf : ∀ r, key (f r) = key r) (hq : ∀ a, q (f a) = q a) :
    (t.modify (key r) f hf).rows.find? q = some (f r) := by
  have hsame : (q ∘ fun a => if key a = key r then f a else a) = q := by
    funext a
    rw [Function.comp]
    split
    · exact hq a
    · rfl
  rw [rows_modify, List.find?_map, hsame, hr, Option.map_some, if_pos rfl]

/-- A new row is not found under an old key. -/
theorem find?_insert_of_ne (t : Table α) (mk : Nat → α) (hmk : ∀ i, key (mk i) = i) {i : Nat}
    (h : i ≠ t.next) : (t.insert mk hmk).find? i = t.find? i := by
  have hnew : [mk t.next].find? (fun r => key r == i) = none := by
    simp [hmk, h.symm]
  rw [find?, rows_insert, List.find?_append, hnew, Option.or_none, find?]

end Table
