import Mathlib.Data.List.Count
import Mathlib.Data.List.Nodup
import Mathlib.Data.List.Dedup

/-!
# Exact tallies

Some rows of a table carry a tag.  The tally is exact for a set of tags when each tag of the set is on
one row and every other tag on none.  Here is what adding and deleting rows do to that.
-/

namespace Tally

variable {α κ : Type} [DecidableEq κ]

/-- The number of rows that carry the tag. -/
def count (tag : α → Option κ) (rows : List α) (k : κ) : Nat := rows.countP fun a => tag a = some k

open Classical in
/-- One row for each tag of `S`, none for any other tag. -/
def Exact (tag : α → Option κ) (S : κ → Prop) (rows : List α) : Prop :=
  ∀ k, count tag rows k = if S k then 1 else 0

variable {tag : α → Option κ} {S S' G : κ → Prop} {rows new : List α}

theorem count_eq (k : κ) : count tag rows k = (rows.filterMap tag).count k := by
  induction rows with
  | nil => rfl
  | cons a rows ih =>
    rw [count, List.countP_cons, ← count, ih, List.filterMap_cons]
    cases htag : tag a with
    | none => simp
    | some k' => simp [List.count_cons]

theorem exact_iff :
    Exact tag S rows ↔ (rows.filterMap tag).Nodup ∧ ∀ k, k ∈ rows.filterMap tag ↔ S k := by
  have hpos : ∀ k, k ∈ rows.filterMap tag ↔ 0 < count tag rows k := fun k => by
    rw [count_eq, List.count_pos_iff]
  constructor
  · intro h
    constructor
    · apply List.nodup_iff_count_le_one.mpr
      intro k
      rw [← count_eq, h k]
      split <;> omega
    · intro k
      rw [hpos, h k]
      split
      · rename_i hk
        exact iff_of_true (by omega) hk
      · rename_i hk
        exact iff_of_false (by omega) hk
  · intro h k
    have hle : count tag rows k ≤ 1 := by
      rw [count_eq]
      exact List.nodup_iff_count_le_one.mp h.1 k
    have hmem := (hpos k).symm.trans (h.2 k)
    by_cases hk : S k
    · have hlt := hmem.mpr hk
      rw [if_pos hk]
      omega
    · have hzero : ¬ 0 < count tag rows k := fun hlt => hk (hmem.mp hlt)
      rw [if_neg hk]
      omega

/-- A tag names at most one row. -/
theorem Exact.unique (h : Exact tag S rows) {a b : α} {k : κ} (ha : a ∈ rows) (hb : b ∈ rows) (hak : tag a = some k)
    (hbk : tag b = some k) : a = b := by
  have hlength : (rows.filter fun a => tag a = some k).length ≤ 1 := by
    rw [← List.countP_eq_length_filter, ← count, h k]
    split <;> omega
  have ha' : a ∈ rows.filter fun a => tag a = some k := List.mem_filter.mpr ⟨ha, decide_eq_true hak⟩
  have hb' : b ∈ rows.filter fun a => tag a = some k := List.mem_filter.mpr ⟨hb, decide_eq_true hbk⟩
  match hrows : rows.filter fun a => tag a = some k, hlength with
  | [], _ =>
    rw [hrows] at ha'
    cases ha'
  | [c], _ =>
    rw [hrows, List.mem_singleton] at ha' hb'
    rw [ha', hb']

/-- An exact tally knows its set. -/
theorem Exact.congr_iff (h : Exact tag S rows) : Exact tag S' rows ↔ ∀ k, S' k ↔ S k := by
  have hmem := (exact_iff.mp h).2
  constructor
  · intro h' k
    rw [← (exact_iff.mp h').2, hmem]
  · intro hset
    exact exact_iff.mpr ⟨(exact_iff.mp h).1, fun k => by rw [hmem, hset]⟩

/-- Rows are added: their tags have to be new and different. -/
theorem Exact.append_iff (h : Exact tag S rows) :
    Exact tag S' (rows ++ new) ↔ (new.filterMap tag).Nodup ∧ (∀ k ∈ new.filterMap tag, ¬ S k) ∧
      ∀ k, S' k ↔ S k ∨ k ∈ new.filterMap tag := by
  obtain ⟨hnodup, hmem⟩ := exact_iff.mp h
  rw [exact_iff, List.filterMap_append, List.nodup_append, and_assoc, and_assoc]
  constructor
  · intro hall
    refine ⟨hall.2.1, fun k hk hSk => ?_, fun k => ?_⟩
    · exact hall.2.2.1 k ((hmem k).mpr hSk) k hk rfl
    · rw [← hall.2.2.2, List.mem_append, hmem]
  · intro hnew
    refine ⟨hnodup, hnew.1, fun k hk k' hk' heq => ?_, fun k => ?_⟩
    · exact hnew.2.1 k' hk' ((hmem k').mp (heq ▸ hk))
    · rw [List.mem_append, hmem, hnew.2.2]

/-- Rows are deleted by their tags. -/
theorem Exact.filter_iff (h : Exact tag S rows) {keep : α → Bool}
    (hkeep : ∀ a ∈ rows, ∀ k, tag a = some k → (keep a = true ↔ ¬ G k)) :
    Exact tag S' (rows.filter keep) ↔ ∀ k, S' k ↔ S k ∧ ¬ G k := by
  obtain ⟨hnodup, hmem⟩ := exact_iff.mp h
  have hnodup' : ((rows.filter keep).filterMap tag).Nodup := hnodup.sublist (List.filter_sublist.filterMap tag)
  have hmem' : ∀ k, k ∈ (rows.filter keep).filterMap tag ↔ S k ∧ ¬ G k := by
    intro k
    rw [← hmem, List.mem_filterMap, List.mem_filterMap]
    constructor
    · intro hk
      obtain ⟨a, ha, htag⟩ := hk
      have hrow := List.mem_filter.mp ha
      exact ⟨⟨a, hrow.1, htag⟩, (hkeep a hrow.1 k htag).mp hrow.2⟩
    · intro hk
      obtain ⟨⟨a, ha, htag⟩, hleft⟩ := hk
      exact ⟨a, List.mem_filter.mpr ⟨ha, (hkeep a ha k htag).mpr hleft⟩, htag⟩
  rw [exact_iff, and_iff_right hnodup']
  apply forall_congr'
  intro k
  rw [hmem']
  exact iff_comm

end Tally
