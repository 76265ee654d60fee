import BuildInProgress.Lib.Text

/-!
# The ancestry gem

`ancestry-2.1.0` stores the ids on the way to a record as one text column.  Steps use it for their
place in the process map, projects for the project they remix.  Both ask to adopt the children of
a destroyed record.
-/

namespace Ancestry

open Text

/-- `ANCESTRY_PATTERN`, `/\A[0-9]+(\/[0-9]+)*\Z/`.  `\Z` also matches before a final newline. -/
def pattern (t : Text) : Bool :=
  let body := if t.getLast? = some '\n' then t.dropLast else t
  (body.splitOn '/').all fun c => !c.isEmpty && c.all Char.isDigit

/-- `validates_format_of ancestry_column, :allow_nil => true` -/
def validFormat : Option Text → Bool
  | none => true
  | some t => pattern t

/-- `blank?` of the column. -/
def blankColumn : Option Text → Bool
  | none => true
  | some t => blank t

/-- `child_ancestry` of the record `id` whose column holds `column`. -/
def childAncestry (column : Option Text) (id : Nat) : Text :=
  match column with
  | none => toS id
  | some t => if blank t then toS id else t ++ '/' :: toS id

/-- `ancestor_ids`.  The column holds digits and slashes, so `to_i` reads no sign. -/
def ancestorIds (column : Option Text) : List Nat := (split '/' (column.getD [])).map toNat

/-- `descendant_conditions`: the column is `child_ancestry` or starts with it and a slash. -/
def descendant (child : Text) (column : Option Text) : Bool :=
  match column with
  | none => false
  | some t => t == child || startsWith t (child ++ ['/'])

/-- What `apply_orphan_strategy` writes into a descendant of `id` under `:adopt`. -/
def adopt (id : Nat) (column : Option Text) : Text :=
  render ((ancestorIds column).filter (· ≠ id))

/-! ## Rendered paths -/

/-- Joined numerals have the pattern when none of them is empty. -/
theorem pattern_join {ts : List Text} (hne : ts ≠ []) (hdigits : ∀ t ∈ ts, ∀ c ∈ t, c.isDigit = true) :
    pattern (join '/' ts) = ts.all fun t => !t.isEmpty := by
  -- no final newline is taken off
  have hlast : (join '/' ts).getLast? ≠ some '\n' := by
    intro h
    rcases mem_join (List.mem_of_getLast? h) with hsep | ⟨t, ht, hc⟩
    · exact absurd hsep (by decide)
    · exact absurd (hdigits t ht _ hc) (by decide)
  have hsplit : (join '/' ts).splitOn '/' = ts :=
    List.splitOn_intercalate '/' (fun t ht hc => absurd (hdigits t ht _ hc) (by decide)) hne
  rw [pattern, if_neg hlast, hsplit, Bool.eq_iff_iff, List.all_eq_true, List.all_eq_true]
  apply forall₂_congr
  intro t ht
  rw [List.all_eq_true.mpr (hdigits t ht), Bool.and_true]

theorem pattern_render {l : List Nat} (hl : l ≠ []) : pattern (render l) = true := by
  rw [render, pattern_join, List.all_eq_true]
  · intro t ht
    obtain ⟨n, -, rfl⟩ := List.mem_map.mp ht
    rw [Bool.not_eq_true', List.isEmpty_eq_false_iff]
    exact toS_ne_nil n
  · simpa using hl
  · intro t ht c hc
    obtain ⟨n, -, rfl⟩ := List.mem_map.mp ht
    exact isDigit_of_mem_toS hc

@[simp] theorem ancestorIds_render (l : List Nat) : ancestorIds (some (render l)) = l :=
  map_toNat_split_render l

@[simp] theorem ancestorIds_none : ancestorIds none = [] := by decide

@[simp] theorem ancestorIds_nil : ancestorIds (some []) = [] := by decide

theorem childAncestry_render {l : List Nat} (hl : l ≠ []) (id : Nat) :
    childAncestry (some (render l)) id = render (l ++ [id]) := by
  rw [childAncestry, if_neg (by simp [blank_render hl]), render_concat hl]

theorem childAncestry_blank {column : Option Text} (h : blankColumn column = true) (id : Nat) :
    childAncestry column id = render [id] := by
  cases column with
  | none => simp [childAncestry]
  | some t =>
    rw [blankColumn] at h
    simp [childAncestry, h]

theorem blank_childAncestry (column : Option Text) (id : Nat) : blank (childAncestry column id) = false := by
  cases column with
  | none => exact blank_toS id
  | some t =>
    rw [childAncestry]
    split
    · exact blank_toS id
    · rw [blank, List.all_append, List.all_cons, ← blank, ← blank, blank_toS, Bool.and_false, Bool.and_false]

/-- Below a record with path `l`, the descendants are the records whose path extends `l`. -/
theorem descendant_render {l m : List Nat} (hl : l ≠ []) :
    descendant (render l) (some (render m)) = true ↔ l <+: m := by
  rw [descendant, Bool.or_eq_true, beq_iff_eq, render_inj, startsWith_render_slash hl]
  constructor
  · rintro (rfl | ⟨k, -, rfl⟩)
    · exact List.prefix_refl m
    · exact List.prefix_append l k
  · rintro ⟨k, rfl⟩
    by_cases hk : k = []
    · left
      rw [hk, List.append_nil]
    · right
      exact ⟨k, hk, rfl⟩

theorem adopt_render (id : Nat) (l : List Nat) :
    adopt id (some (render l)) = render (l.filter (· ≠ id)) := by
  rw [adopt, ancestorIds_render]

/-! ## Any column -/

/-- The id of a record is on the way to each of its descendants. -/
theorem mem_ancestorIds_of_descendant {column : Option Text} {id : Nat} {t : Text}
    (h : descendant (childAncestry column id) (some t) = true) : id ∈ ancestorIds (some t) := by
  have hself : (toS id).splitOn '/' = [toS id] := by
    have h := splitOn_render (List.cons_ne_nil id [])
    rwa [render_singleton] at h
  -- the last component of the text of the children
  have hchild : toS id ∈ (childAncestry column id).splitOn '/' := by
    cases column with
    | none => exact hself ▸ List.mem_singleton_self _
    | some a =>
      rw [childAncestry]
      split
      · exact hself ▸ List.mem_singleton_self _
      · rw [List.splitOn_append_cons_self, hself]
        exact List.mem_append_right _ (List.mem_singleton_self _)
  have ht : toS id ∈ t.splitOn '/' := by
    rw [descendant, Bool.or_eq_true, beq_iff_eq] at h
    rcases h with rfl | h
    · exact hchild
    · obtain ⟨rest, rfl⟩ := List.isPrefixOf_iff_prefix.mp h
      rw [List.append_assoc, List.singleton_append, List.splitOn_append_cons_self]
      exact List.mem_append_left _ hchild
  rw [ancestorIds, Option.getD_some, ← toNat_toS id]
  exact List.mem_map_of_mem (mem_split ht (toS_ne_nil id))

/-- A path that holds the id is rewritten. -/
theorem adopt_ne {id : Nat} {t : Text} (h : id ∈ ancestorIds (some t)) : adopt id (some t) ≠ t := by
  intro heq
  have hids := ancestorIds_render ((ancestorIds (some t)).filter (· ≠ id))
  rw [← adopt, heq] at hids
  rw [hids] at h
  simpa using List.of_mem_filter h

/-- No component is added. -/
theorem count_adopt_le (id : Nat) (t : Text) : (adopt id (some t)).count '/' ≤ t.count '/' := by
  rw [adopt]
  generalize hl : (ancestorIds (some t)).filter (· ≠ id) = l
  by_cases hne : l = []
  · rw [hne]
    exact Nat.zero_le _
  · have hcount := length_splitOn '/' (render l)
    rw [splitOn_render hne, List.length_map] at hcount
    have hlength : l.length ≤ (split '/' t).length := by
      rw [← hl]
      exact (List.length_filter_le _ _).trans (by rw [ancestorIds, List.length_map, Option.getD_some])
    have hsplit := length_split_le '/' t
    omega

end Ancestry
