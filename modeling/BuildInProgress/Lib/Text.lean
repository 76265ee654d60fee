import Mathlib.Data.List.Basic
import Mathlib.Data.List.Infix
import Mathlib.Data.List.DropRight

/-!
# Text columns and slash-separated paths

Text is the list of its characters.  The operations are those of Ruby's `String` that a
materialized-path encoding uses: decimal conversion, `split`, `join`, `gsub`, prefix and substring
tests.  A path of ids is rendered as its decimals joined by slashes; rendering loses nothing, and
prefixes of rendered paths are rendered prefixes.
-/

abbrev Text := List Char

namespace Text

/-- `Integer#to_s` on a natural number. -/
def toS (n : Nat) : Text := Nat.toDigits 10 n

/-- The digits `to_i` reads.  A single underscore may stand between two digits; the flag says
whether one may come next. -/
def leadingDigits : Bool → Text → Text
  | _, [] => []
  | under, c :: cs =>
    if c.isDigit then c :: leadingDigits true cs
    else if under && c == '_' then leadingDigits false cs
    else []

/-- `String#to_i` of a text without a sign. -/
def toNat (t : Text) : Nat := Nat.ofDigitChars 10 (leadingDigits false t) 0

/-- What `to_i`, `strip` and `strptime` skip: a blank, or one of the five control characters from tab to return. -/
def isSpace (c : Char) : Bool := c == ' ' || 9 ≤ c.toNat && c.toNat ≤ 13

/-- `[[:space:]]` of Ruby 2.1: the white space of Unicode 6.1. -/
def isWideSpace (c : Char) : Bool :=
  isSpace c || 0x2000 ≤ c.toNat && c.toNat ≤ 0x200A ||
    [0x85, 0xA0, 0x1680, 0x180E, 0x2028, 0x2029, 0x202F, 0x205F, 0x3000].contains c.toNat

/-- `String#to_i`. -/
def toI (t : Text) : Int :=
  match t.dropWhile isSpace with
  | '-' :: ds => -(toNat ds : Int)
  | '+' :: ds => toNat ds
  | ds => toNat ds

/-- `blank?`. -/
def blank (t : Text) : Bool := t.all isWideSpace

/-- `String#split` drops trailing empty fields. -/
def split (sep : Char) (t : Text) : List Text := (t.splitOn sep).rdropWhile List.isEmpty

def join (sep : Char) (ts : List Text) : Text := [sep].intercalate ts

/-- The part after the last separator, the whole text when there is none. -/
def afterLast (sep : Char) (t : Text) : Text := t.rtakeWhile (· != sep)

/-- `String#gsub` with a plain text: leftmost matches that do not overlap.  The counter is the
number of characters of the last match still to be skipped. -/
def gsubFrom (pat rep : Text) : Nat → Text → Text
  | _, [] => []
  | k + 1, _ :: cs => gsubFrom pat rep k cs
  | 0, c :: cs =>
    if pat.isPrefixOf (c :: cs) then rep ++ gsubFrom pat rep (pat.length - 1) cs
    else c :: gsubFrom pat rep 0 cs

def gsub (pat rep t : Text) : Text := gsubFrom pat rep 0 t

/-- `String#sub` with a plain text: the first match only. -/
def sub (pat rep : Text) : Text → Text
  | [] => []
  | c :: cs => if pat.isPrefixOf (c :: cs) then rep ++ (c :: cs).drop pat.length else c :: sub pat rep cs

/-- `Integer#to_s`. -/
def intToS (n : Int) : Text := if n < 0 then '-' :: toS n.natAbs else toS n.natAbs

def startsWith (t pre : Text) : Bool := pre.isPrefixOf t

/-- `String#include?`. -/
def includes (t sub : Text) : Bool := t.tails.any sub.isPrefixOf

def downcase (t : Text) : Text := t.map Char.toLower

/-! ## Decimals -/

theorem isDigit_of_mem_toS {n : Nat} {c : Char} (h : c ∈ toS n) : c.isDigit = true :=
  Nat.isDigit_of_mem_toDigits (by decide) (by decide) h

theorem toS_ne_nil (n : Nat) : toS n ≠ [] := Nat.toDigits_ne_nil

theorem slash_notMem_toS (n : Nat) : '/' ∉ toS n := fun h => by
  have hd := isDigit_of_mem_toS h
  revert hd
  decide

theorem leadingDigits_of_digits (under : Bool) (t : Text) (h : ∀ c ∈ t, c.isDigit = true) :
    leadingDigits under t = t := by
  induction t generalizing under with
  | nil => rfl
  | cons c cs ih =>
    rw [leadingDigits, if_pos (h c List.mem_cons_self),
      ih true fun d hd => h d (List.mem_cons_of_mem c hd)]

@[simp] theorem toNat_toS (n : Nat) : toNat (toS n) = n := by
  rw [toNat, leadingDigits_of_digits _ _ fun _ => isDigit_of_mem_toS]
  exact Nat.ofDigitChars_ten_toDigits

theorem toS_injective : Function.Injective toS := fun m n h => by
  rw [← toNat_toS m, h, toNat_toS]

@[simp] theorem toS_inj {m n : Nat} : toS m = toS n ↔ m = n := toS_injective.eq_iff

theorem not_isWideSpace_of_isDigit {c : Char} (h : c.isDigit = true) : isWideSpace c = false := by
  have hdigit : 48 ≤ c.toNat ∧ c.toNat ≤ 57 := by
    simpa [Char.isDigit, Char.le_def, UInt32.le_iff_toNat_le] using h
  have hblank : (c == ' ') = false := by
    rw [beq_eq_false_iff_ne]
    rintro rfl
    exact absurd hdigit.1 (by decide)
  rw [isWideSpace, isSpace, hblank, List.contains_eq_mem]
  simp only [List.mem_cons, List.not_mem_nil, Bool.false_or, Bool.or_eq_false_iff, Bool.and_eq_false_iff,
    decide_eq_false_iff_not, or_false]
  refine ⟨⟨?_, ?_⟩, ?_⟩ <;> omega

theorem not_isSpace_of_isDigit {c : Char} (h : c.isDigit = true) : isSpace c = false := by
  have hwide := not_isWideSpace_of_isDigit h
  rw [isWideSpace, Bool.or_eq_false_iff, Bool.or_eq_false_iff] at hwide
  exact hwide.1.1

@[simp] theorem toI_toS (n : Nat) : toI (toS n) = n := by
  have hn := toNat_toS n
  have hd : ∀ c ∈ toS n, c.isDigit = true := fun _ => isDigit_of_mem_toS
  cases hs : toS n with
  | nil => exact absurd hs (toS_ne_nil n)
  | cons c cs =>
    rw [hs] at hn hd
    have hc := hd c List.mem_cons_self
    have hw := not_isSpace_of_isDigit hc
    rw [toI, List.dropWhile_cons_of_neg (by simp [hw])]
    split
    · rename_i heq
      rw [(List.cons.inj heq).1] at hc
      exact absurd hc (by decide)
    · rename_i heq
      rw [(List.cons.inj heq).1] at hc
      exact absurd hc (by decide)
    · rw [hn]

theorem blank_toS (n : Nat) : blank (toS n) = false := by
  cases hs : toS n with
  | nil => exact absurd hs (toS_ne_nil n)
  | cons c cs =>
    have hc : c.isDigit = true := isDigit_of_mem_toS (n := n) (by rw [hs]; exact List.mem_cons_self)
    rw [blank, List.all_cons, not_isWideSpace_of_isDigit hc, Bool.false_and]

/-- A blank text is read as zero. -/
theorem toI_of_blank {t : Text} (h : blank t = true) : toI t = 0 := by
  have hdrop : ∀ c ∈ t.dropWhile isSpace, isWideSpace c = true := fun c hc =>
    List.all_eq_true.mp h c ((List.dropWhile_sublist isSpace).subset hc)
  have hminus : isWideSpace '-' = false := by decide
  have hplus : isWideSpace '+' = false := by decide
  rw [toI]
  split
  · rename_i heq
    have hwide := hdrop '-' (by rw [heq]; exact List.mem_cons_self)
    rw [hminus] at hwide
    cases hwide
  · rename_i heq
    have hwide := hdrop '+' (by rw [heq]; exact List.mem_cons_self)
    rw [hplus] at hwide
    cases hwide
  · cases hds : t.dropWhile isSpace with
    | nil => rfl
    | cons c cs =>
      have hwide := hdrop c (by rw [hds]; exact List.mem_cons_self)
      have hdigit : c.isDigit = false := by
        rw [Bool.eq_false_iff]
        intro hdigit
        rw [not_isWideSpace_of_isDigit hdigit] at hwide
        cases hwide
      rw [toNat, leadingDigits, if_neg (by rw [hdigit]; exact Bool.false_ne_true), Bool.false_and,
        if_neg Bool.false_ne_true]
      rfl

/-! ## Rendered paths -/

theorem mem_join {sep c : Char} {ts : List Text} (h : c ∈ join sep ts) : c = sep ∨ ∃ t ∈ ts, c ∈ t := by
  induction ts with
  | nil => cases h
  | cons t ts ih =>
    by_cases hne : ts = []
    · rw [hne, join, List.intercalate_singleton] at h
      exact Or.inr ⟨t, List.mem_cons_self, h⟩
    · rw [join, List.intercalate_cons_of_ne_nil hne, List.mem_append, List.mem_append, List.mem_singleton] at h
      rcases h with (h | h) | h
      · exact Or.inr ⟨t, List.mem_cons_self, h⟩
      · exact Or.inl h
      · rcases ih h with hsep | ⟨t', ht', hc⟩
        · exact Or.inl hsep
        · exact Or.inr ⟨t', List.mem_cons_of_mem t ht', hc⟩

/-- The ids of a path joined by slashes. -/
def render (l : List Nat) : Text := join '/' (l.map toS)

@[simp] theorem render_nil : render [] = [] := rfl

@[simp] theorem render_singleton (n : Nat) : render [n] = toS n := by
  simp [render, join]

theorem render_zero : render [0] = ['0'] := by decide

theorem render_cons {n : Nat} {l : List Nat} (hl : l ≠ []) :
    render (n :: l) = toS n ++ '/' :: render l := by
  cases l with
  | nil => exact absurd rfl hl
  | cons m l => simp [render, join, List.intercalate]

theorem render_concat {l : List Nat} {n : Nat} (hl : l ≠ []) :
    render (l ++ [n]) = render l ++ '/' :: toS n := by
  induction l with
  | nil => exact absurd rfl hl
  | cons m l ih =>
    by_cases h : l = []
    · subst h
      rw [List.singleton_append, render_cons (by simp), render_singleton, render_singleton]
    · rw [List.cons_append, render_cons (by simp), ih h, render_cons h, List.append_assoc,
        List.cons_append]

theorem render_append {l k : List Nat} (hl : l ≠ []) (hk : k ≠ []) : render (l ++ k) = render l ++ '/' :: render k := by
  induction l with
  | nil => exact absurd rfl hl
  | cons n l ih =>
    by_cases h : l = []
    · rw [h, render_singleton, List.singleton_append, render_cons hk]
    · rw [List.cons_append, render_cons (by simp [h]), ih h, render_cons h, List.append_assoc, List.cons_append]

theorem splitOn_render {l : List Nat} (hl : l ≠ []) : (render l).splitOn '/' = l.map toS := by
  apply List.splitOn_intercalate
  · intro t ht
    obtain ⟨n, -, rfl⟩ := List.mem_map.mp ht
    exact slash_notMem_toS n
  · simpa using hl

theorem split_render (l : List Nat) : split '/' (render l) = l.map toS := by
  by_cases hl : l = []
  · subst hl
    decide
  · rw [split, splitOn_render hl, List.rdropWhile_eq_self_iff]
    intro hne he
    obtain ⟨n, -, hn⟩ := List.mem_map.mp (List.getLast_mem hne)
    rw [← hn, List.isEmpty_iff] at he
    exact toS_ne_nil n he

/-- Reading the components of a rendered path back gives the path. -/
theorem map_toNat_split_render (l : List Nat) : (split '/' (render l)).map toNat = l := by
  rw [split_render, List.map_map]
  have h : toNat ∘ toS = id := funext toNat_toS
  rw [h, List.map_id]

theorem render_injective : Function.Injective render := fun l m h => by
  rw [← map_toNat_split_render l, h, map_toNat_split_render]

@[simp] theorem render_inj {l m : List Nat} : render l = render m ↔ l = m :=
  render_injective.eq_iff

theorem render_eq_nil {l : List Nat} : render l = [] ↔ l = [] := by
  rw [← render_nil, render_inj]

theorem blank_render {l : List Nat} (hl : l ≠ []) : blank (render l) = false := by
  cases l with
  | nil => exact absurd rfl hl
  | cons n l =>
    have hb := blank_toS n
    cases l with
    | nil => simpa using hb
    | cons m l =>
      rw [render_cons (by simp)]
      simp only [blank, List.all_append, Bool.and_eq_false_iff]
      exact Or.inl hb

/-- A rendered path followed by a slash is a prefix of exactly the rendered longer paths. -/
theorem startsWith_render_slash {l m : List Nat} (hl : l ≠ []) :
    startsWith (render m) (render l ++ ['/']) = true ↔ ∃ k, k ≠ [] ∧ m = l ++ k := by
  rw [startsWith, List.isPrefixOf_iff_prefix]
  constructor
  · rintro ⟨b, hb⟩
    rw [List.append_assoc, List.singleton_append] at hb
    have hm : m ≠ [] := by
      rintro rfl
      simp at hb
    have hsplit := congrArg (List.splitOn '/') hb
    rw [List.splitOn_append_cons_self, splitOn_render hl, splitOn_render hm] at hsplit
    have htake : (m.take l.length).map toS = l.map toS := by
      rw [List.map_take, ← hsplit, List.take_left' (by simp)]
    have hpre : m.take l.length = l := List.map_injective_iff.mpr toS_injective htake
    refine ⟨m.drop l.length, ?_, ?_⟩
    · intro hd
      have hlen := congrArg List.length hsplit
      have hpos := List.length_pos_iff.mpr (List.splitOn_ne_nil '/' b)
      rw [List.length_append, List.length_map, List.length_map] at hlen
      rw [List.drop_eq_nil_iff] at hd
      omega
    · conv_lhs => rw [← List.take_append_drop l.length m, hpre]
  · rintro ⟨k, hk, rfl⟩
    refine ⟨render k, ?_⟩
    rw [List.append_assoc, List.singleton_append]
    induction l with
    | nil => exact absurd rfl hl
    | cons n l ih =>
      by_cases h : l = []
      · subst h
        rw [render_singleton, List.singleton_append, render_cons hk]
      · rw [render_cons h, List.cons_append, render_cons (by simp [h]), ← ih h, List.append_assoc,
          List.cons_append]

/-! ## The last component -/

theorem afterLast_append (sep : Char) (a b : Text) (hb : sep ∉ b) :
    afterLast sep (a ++ sep :: b) = b := by
  induction b using List.reverseRecOn with
  | nil => exact List.rtakeWhile_concat_neg _ _ _ (by simp)
  | append_singleton b c ih =>
    rw [List.mem_append, List.mem_singleton, not_or] at hb
    rw [← List.cons_append, ← List.append_assoc, afterLast,
      List.rtakeWhile_concat_pos _ _ _ (by simpa using Ne.symm hb.2)]
    exact congrArg (· ++ [c]) (ih hb.1)

theorem afterLast_of_notMem (sep : Char) (t : Text) (h : sep ∉ t) : afterLast sep t = t := by
  rw [afterLast, List.rtakeWhile_eq_self_iff]
  intro c hc
  simp only [bne_iff_ne, ne_eq]
  rintro rfl
  exact h hc

theorem afterLast_render_concat (l : List Nat) (n : Nat) :
    afterLast '/' (render (l ++ [n])) = toS n := by
  by_cases h : l = []
  · subst h
    rw [List.nil_append, render_singleton, afterLast_of_notMem _ _ (slash_notMem_toS n)]
  · rw [render_concat h, afterLast_append _ _ _ (slash_notMem_toS n)]

/-! ## Substitution in rendered paths -/

theorem gsub_of_notMem {pat : Text} {sep : Char} (hp : sep ∈ pat) (rep t : Text) (ht : sep ∉ t) :
    gsub pat rep t = t := by
  unfold gsub
  induction t with
  | nil => rfl
  | cons c cs ih =>
    have hc : pat.isPrefixOf (c :: cs) = false := by
      rw [Bool.eq_false_iff, ne_eq, List.isPrefixOf_iff_prefix]
      exact fun h => ht (h.subset hp)
    rw [gsubFrom, if_neg (by simp [hc]), ih fun h => ht (List.mem_cons_of_mem c h)]

theorem gsubFrom_skip (pat rep a t : Text) :
    gsubFrom pat rep a.length (a ++ t) = gsubFrom pat rep 0 t := by
  induction a with
  | nil => rfl
  | cons c a ih => simpa only [List.length_cons, List.cons_append, gsubFrom] using ih

theorem eq_of_prefix_sep {w f t : Text} {sep : Char} (hw : sep ∉ w) (hf : sep ∉ f)
    (h : w ++ [sep] <+: f ++ sep :: t) : w = f := by
  obtain ⟨b, hb⟩ := h
  rw [List.append_assoc, List.singleton_append] at hb
  have hsplit := congrArg (List.splitOn sep) hb
  rw [List.splitOn_append_cons_self_of_not_mem hw, List.splitOn_append_cons_self_of_not_mem hf]
    at hsplit
  exact (List.cons.inj hsplit).1

/-- A field that does not end in `w` is copied together with its separator. -/
theorem gsub_field {w : Text} {sep : Char} (hw : sep ∉ w) (rep f t : Text) (hf : sep ∉ f)
    (hs : ¬ w <:+ f) : gsub (w ++ [sep]) rep (f ++ sep :: t) = f ++ sep :: gsub (w ++ [sep]) rep t := by
  unfold gsub
  induction f with
  | nil =>
    have hp : ¬ w ++ [sep] <+: sep :: t := fun h =>
      hs (eq_of_prefix_sep hw List.not_mem_nil h ▸ List.suffix_refl _)
    rw [List.nil_append, gsubFrom, if_neg (by rwa [List.isPrefixOf_iff_prefix]), List.nil_append]
  | cons c cs ih =>
    have hp : ¬ w ++ [sep] <+: c :: (cs ++ sep :: t) := fun h =>
      hs (eq_of_prefix_sep hw hf h ▸ List.suffix_refl _)
    rw [List.cons_append, gsubFrom, if_neg (by rwa [List.isPrefixOf_iff_prefix]),
      ih (fun h => hf (List.mem_cons_of_mem c h)) (fun h => hs (h.trans (List.suffix_cons c cs))),
      List.cons_append]

/-- A field equal to `w` is matched together with its separator. -/
theorem gsub_match (w : Text) (sep : Char) (rep t : Text) :
    gsub (w ++ [sep]) rep (w ++ sep :: t) = rep ++ gsub (w ++ [sep]) rep t := by
  have hp : w ++ [sep] <+: w ++ sep :: t := ⟨t, by simp⟩
  unfold gsub
  cases w with
  | nil => rw [List.nil_append, List.nil_append, gsubFrom, if_pos (by simp)]; rfl
  | cons c cs =>
    have hp' : (c :: cs ++ [sep]).isPrefixOf (c :: (cs ++ sep :: t)) = true :=
      List.isPrefixOf_iff_prefix.mpr hp
    change gsubFrom _ rep 0 (c :: (cs ++ sep :: t)) = _
    rw [gsubFrom, if_pos hp']
    have hskip := gsubFrom_skip (c :: cs ++ [sep]) rep (cs ++ [sep]) t
    rw [List.append_assoc, List.singleton_append] at hskip
    rw [show (c :: cs ++ [sep]).length - 1 = (cs ++ [sep]).length by simp, hskip]

/-- Of a field that ends in `w` the rest is joined to the next field. -/
theorem gsub_suffix {w u : Text} {sep : Char} (hw : sep ∉ w) (hu : sep ∉ u) (rep t : Text) :
    gsub (w ++ [sep]) rep (u ++ w ++ sep :: t) = u ++ rep ++ gsub (w ++ [sep]) rep t := by
  induction u with
  | nil => exact gsub_match w sep rep t
  | cons c u ih =>
    -- the first match is at the separator, so it is not at `c`
    have hp : ¬ w ++ [sep] <+: c :: (u ++ w ++ sep :: t) := by
      intro h
      have hf : sep ∉ c :: (u ++ w) := by
        rw [← List.cons_append, List.mem_append]
        exact fun hmem => hmem.elim hu hw
      have heq := congrArg List.length (eq_of_prefix_sep hw hf h)
      rw [List.length_cons, List.length_append] at heq
      omega
    have ih := ih fun h => hu (List.mem_cons_of_mem c h)
    rw [gsub] at ih
    rw [List.cons_append, List.cons_append, gsub, gsubFrom, if_neg (by rwa [List.isPrefixOf_iff_prefix]), ih]
    rfl

/-- Each component in front of the last one that ends in the digits of `d` costs a separator. -/
theorem count_gsub_render (d : Nat) (m : List Nat) (x : Nat) :
    (gsub (toS d ++ ['/']) [] (render (m ++ [x]))).count '/' = (m.filter fun i => ¬ toS d <:+ toS i).length := by
  induction m with
  | nil =>
    rw [List.nil_append, render_singleton, gsub_of_notMem (show '/' ∈ _ by simp) [] (toS x) (slash_notMem_toS x)]
    exact List.count_eq_zero.mpr (slash_notMem_toS x)
  | cons a m ih =>
    rw [List.cons_append, render_cons (by simp)]
    by_cases ha : toS d <:+ toS a
    · obtain ⟨u, hu⟩ := ha
      have hslash : '/' ∉ u := fun hmem => slash_notMem_toS a (hu ▸ List.mem_append_left _ hmem)
      have hrest : (List.filter (fun i => ¬ toS d <:+ toS i) (a :: m)) = m.filter fun i => ¬ toS d <:+ toS i :=
        List.filter_cons_of_neg (by simp [← hu])
      rw [← hu, gsub_suffix (slash_notMem_toS d) hslash, List.append_nil, List.count_append,
        List.count_eq_zero.mpr hslash, ih, hrest, Nat.zero_add]
    · have hrest : (List.filter (fun i => ¬ toS d <:+ toS i) (a :: m)).length =
          (m.filter fun i => ¬ toS d <:+ toS i).length + 1 := by
        rw [List.filter_cons_of_pos (by simpa using ha), List.length_cons]
      rw [gsub_field (slash_notMem_toS d) [] (toS a) _ (slash_notMem_toS a) ha, List.count_append,
        List.count_eq_zero.mpr (slash_notMem_toS a), List.count_cons_self, ih, hrest, Nat.zero_add]

theorem length_splitOn (sep : Char) (t : Text) : (t.splitOn sep).length = t.count sep + 1 := by
  induction t with
  | nil => rfl
  | cons c t ih =>
    rw [List.splitOn_cons_eq_if_modifyHead]
    by_cases h : (c == sep) = true
    · rw [if_pos h, List.length_cons, ih, beq_iff_eq.mp h, List.count_cons_self]
    · rw [if_neg h, List.length_modifyHead, ih, List.count_cons_of_ne (by simpa using h)]

/-- A text has no more components than separators, and one. -/
theorem length_split_le (sep : Char) (t : Text) : (split sep t).length ≤ t.count sep + 1 := by
  rw [← length_splitOn]
  exact (List.rdropWhile_prefix _ _).length_le

/-- A component that is not empty is no trailing one. -/
theorem mem_split {sep : Char} {t c : Text} (hc : c ∈ t.splitOn sep) (hne : c ≠ []) : c ∈ split sep t := by
  rw [← List.rdropWhile_append_rtakeWhile (p := List.isEmpty) (l := t.splitOn sep), List.mem_append] at hc
  refine hc.resolve_right fun hlast => hne ?_
  exact List.isEmpty_iff.mp (List.mem_rtakeWhile_imp hlast)

/-- Every match that is taken out costs the separators of the pattern. -/
theorem count_gsubFrom_le (pat : Text) (sep : Char) (k : Nat) (t : Text) :
    (gsubFrom pat [] k t).count sep ≤ (t.drop k).count sep := by
  induction t generalizing k with
  | nil => cases k <;> exact Nat.le_refl _
  | cons c cs ih =>
    cases k with
    | succ k => exact ih k
    | zero =>
      rw [gsubFrom]
      split
      · -- the matched part is skipped
        rw [List.nil_append, List.drop_zero]
        exact (ih _).trans (((List.drop_sublist _ cs).trans (List.sublist_cons_self c cs)).count_le sep)
      · rw [List.drop_zero, List.count_cons, List.count_cons]
        exact Nat.add_le_add_right (ih 0) _

theorem gsub_eq_or_count_lt {pat : Text} {sep : Char} (hp : sep ∈ pat) (t : Text) :
    gsub pat [] t = t ∨ (gsub pat [] t).count sep < t.count sep := by
  unfold gsub
  induction t with
  | nil => exact Or.inl rfl
  | cons c cs ih =>
    rw [gsubFrom]
    split
    · rename_i hmatch
      obtain ⟨rest, hrest⟩ := List.isPrefixOf_iff_prefix.mp hmatch
      have hle := count_gsubFrom_le pat sep (pat.length - 1) cs
      have hdrop : cs.drop (pat.length - 1) = rest := by
        have hpos := List.length_pos_of_mem hp
        have hall : (c :: cs).drop pat.length = rest := by rw [← hrest, List.drop_left]
        rwa [show pat.length = pat.length - 1 + 1 by omega, List.drop_succ_cons] at hall
      have hpat := List.count_pos_iff.mpr hp
      refine Or.inr ?_
      rw [List.nil_append, ← hrest, List.count_append]
      rw [hdrop] at hle
      omega
    · rcases ih with heq | hlt
      · exact Or.inl (by rw [heq])
      · refine Or.inr ?_
        rw [List.count_cons, List.count_cons]
        omega

end Text
