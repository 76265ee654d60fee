import BuildInProgress.Lib.Rows
import BuildInProgress.Lib.Text

/-!
# Text in the scripts of a page

A page that is rendered on the server can write a text between the quotes of a string in a script, and put the string
into the page when the script runs.  The text is escaped for HTML, which says nothing about the script: a line break
or half an escape sequence leaves no string.
-/

namespace Script

/-- What `ERB::Util.html_escape` writes for the characters that it escapes. -/
def entities : List (Char × Text) :=
  [('&', "&amp;".toList), ('<', "&lt;".toList), ('>', "&gt;".toList), ('"', "&quot;".toList),
    (Char.ofNat 39, "&#39;".toList)]

/-- `ERB::Util.html_escape` -/
def htmlEscape (t : Text) : Text := t.flatMap fun c => (entities.lookup c).getD [c]

/-! ## Strings -/

/-- The line breaks of a script, which no string between quotes may contain. -/
def isLineBreak (c : Char) : Bool := [0xA, 0xD, 0x2028, 0x2029].contains c.toNat

/-- The value of a hexadecimal digit. -/
def hexDigit (c : Char) : Option Nat :=
  if c.isDigit then some (c.toNat - 48)
  else if 'a' ≤ c ∧ c ≤ 'f' then some (c.toNat - 87)
  else if 'A' ≤ c ∧ c ≤ 'F' then some (c.toNat - 55)
  else none

/-- Where the reading of a string is. -/
inductive Reading where
  | plain
  /-- behind a backslash -/
  | escape
  /-- behind `\u` -/
  | unicode
  /-- in front of `left` hexadecimal digits -/
  | hex (left value : Nat)
  /-- behind `\u` and a brace, and whether there was a digit -/
  | braces (value : Nat) (any : Bool)
  /-- at most `left` octal digits follow -/
  | octal (left value : Nat)
  /-- behind a backslash and a carriage return -/
  | continued
  deriving DecidableEq, Repr

namespace Reading

/-- A character that is in no escape sequence.  Between double quotes there is no double quote. -/
def readPlain (c : Char) : Option (Reading × List Nat) :=
  if c = '\\' then some (escape, [])
  else if c = '"' || isLineBreak c then none
  else some (plain, [c.toNat])

/-- The character behind a backslash. -/
def readEscape (c : Char) : Reading × List Nat :=
  if c = 'u' then (unicode, [])
  else if c = 'x' then (hex 2 0, [])
  else if '0' ≤ c ∧ c ≤ '3' then (octal 2 (c.toNat - 48), [])
  else if '4' ≤ c ∧ c ≤ '7' then (octal 1 (c.toNat - 48), [])
  else if c.toNat = 0xD then (continued, [])
  else if isLineBreak c then (plain, [])
  else
    (plain, [if c = 'b' then 8 else if c = 't' then 9 else if c = 'n' then 10 else if c = 'v' then 11
      else if c = 'f' then 12 else if c = 'r' then 13 else c.toNat])

/-- One of `left + 1` hexadecimal digits. -/
def readHex (left value : Nat) (c : Char) : Option (Reading × List Nat) :=
  (hexDigit c).map fun d => if left = 0 then (plain, [16 * value + d]) else (hex left (16 * value + d), [])

/-- The next character: where the reading is behind it, and the characters of the string that are read.  `none` is a
syntax error. -/
def step : Reading → Char → Option (Reading × List Nat)
  | plain, c => readPlain c
  | escape, c => some (readEscape c)
  | unicode, c => if c.toNat = 0x7B then some (braces 0 false, []) else readHex 3 0 c
  | hex left value, c => readHex (left - 1) value c
  | braces value any, c =>
    if c.toNat = 0x7D then if any then some (plain, [value]) else none
    else (hexDigit c).bind fun d => if 16 * value + d ≤ 0x10FFFF then some (braces (16 * value + d) true, []) else none
  | octal left value, c =>
    if '0' ≤ c ∧ c ≤ '7' then
      if left ≤ 1 then some (plain, [8 * value + (c.toNat - 48)]) else some (octal (left - 1) (8 * value + (c.toNat - 48)), [])
    else (readPlain c).map fun r => (r.1, value :: r.2)
  | continued, c => if c.toNat = 0xA then some (plain, []) else readPlain c

/-- The text ends in front of a character that is no letter, no digit and no backslash. -/
def close : Reading → Option (List Nat)
  | plain => some []
  | escape => some []
  | octal _ value => some [value]
  | continued => some []
  | _ => none

def read : Reading → Text → Option (List Nat)
  | r, [] => r.close
  | r, c :: cs => (r.step c).bind fun next => (read next.1 cs).map (next.2 ++ ·)

/-- Characters that begin no escape sequence and end no string stand for themselves. -/
theorem read_plain {t : Text} (h : ∀ c ∈ t, c ≠ '\\' ∧ c ≠ '"' ∧ isLineBreak c = false) :
    read plain t = some (t.map Char.toNat) := by
  induction t with
  | nil => rfl
  | cons c cs ih =>
    obtain ⟨⟨hslash, hquote, hbreak⟩, hcs⟩ := List.forall_mem_cons.mp h
    have hstep : step plain c = some (plain, [c.toNat]) := by
      rw [step, readPlain, if_neg hslash, hbreak, Bool.or_false, decide_eq_false hquote, if_neg Bool.false_ne_true]
    rw [read, hstep, Option.bind_some, ih hcs]
    rfl

end Reading

/-- The characters of the string that a text between double quotes stands for. -/
def stringValue (t : Text) : Option (List Nat) := Reading.read .plain t

/-- A character of the escaped text is one of the text that needs no escape, or of an entity. -/
theorem mem_htmlEscape {t : Text} {c : Char} (h : c ∈ htmlEscape t) :
    (c ∈ t ∧ entities.lookup c = none) ∨ ∃ e ∈ entities, c ∈ e.2 := by
  obtain ⟨d, hd, hc⟩ := List.mem_flatMap.mp h
  cases hlookup : entities.lookup d with
  | none =>
    rw [hlookup, Option.getD_none, List.mem_singleton] at hc
    exact Or.inl (hc ▸ ⟨hd, hlookup⟩)
  | some e =>
    rw [hlookup] at hc
    exact Or.inr ⟨(d, e), Rows.mem_of_lookup hlookup, hc⟩

/-- The escape leaves neither a double quote nor the beginning of a tag, and brings no backslash and no line break. -/
theorem of_mem_htmlEscape {t : Text} {c : Char} (h : c ∈ htmlEscape t) :
    (c ≠ '"' ∧ c ≠ '<') ∧ (c ∈ t ∨ c ≠ '\\' ∧ isLineBreak c = false) := by
  rcases mem_htmlEscape h with ⟨hmem, hnone⟩ | ⟨e, he, hc⟩
  · refine ⟨⟨?_, ?_⟩, Or.inl hmem⟩
    · rintro rfl
      exact absurd hnone (by decide)
    · rintro rfl
      exact absurd hnone (by decide)
  · -- what stands for the characters holds none of them
    have hall : (entities.all fun e => e.2.all fun c => c != '"' && c != '<' && c != '\\' && !isLineBreak c) = true := by
      decide
    have hc := List.all_eq_true.mp (List.all_eq_true.mp hall e he) c hc
    simp only [Bool.and_eq_true, bne_iff_ne, Bool.not_eq_true'] at hc
    exact ⟨hc.1.1, Or.inr ⟨hc.1.2, hc.2⟩⟩

/-- A text with neither a backslash nor a line break makes a string. -/
theorem stringValue_htmlEscape {t : Text} (h : ∀ c ∈ t, c ≠ '\\' ∧ isLineBreak c = false) :
    stringValue (htmlEscape t) = some ((htmlEscape t).map Char.toNat) := by
  refine Reading.read_plain fun c hc => ?_
  obtain ⟨⟨hquote, -⟩, hmem | hother⟩ := of_mem_htmlEscape hc
  · exact ⟨(h c hmem).1, hquote, (h c hmem).2⟩
  · exact ⟨hother.1, hquote, hother.2⟩

/-! ## Markup -/

/-- What behind `<` makes it the beginning of a tag, an end tag, a declaration or a comment: a letter or one of `/`,
`!` and `?`. -/
def opensMarkup (n : Nat) : Bool :=
  65 ≤ n && n ≤ 90 || 97 ≤ n && n ≤ 122 || [0x2F, 0x21, 0x3F].contains n

/-- The characters contain no markup, so the page shows them as text. -/
def isText : List Nat → Bool
  | [] => true
  | [_] => true
  | m :: n :: ns => !(m = 0x3C && opensMarkup n) && isText (n :: ns)

theorem isText_of_notMem {ns : List Nat} (h : 0x3C ∉ ns) : isText ns = true := by
  induction ns with
  | nil => rfl
  | cons m ns ih =>
    cases ns with
    | nil => rfl
    | cons n ns =>
      rw [List.mem_cons, not_or] at h
      rw [isText, ih h.2, Bool.and_true, decide_eq_false (Ne.symm h.1), Bool.false_and, Bool.not_false]

theorem isText_htmlEscape (t : Text) : isText ((htmlEscape t).map Char.toNat) = true := by
  refine isText_of_notMem fun h => ?_
  obtain ⟨c, hc, hn⟩ := List.mem_map.mp h
  exact (of_mem_htmlEscape hc).1.2 (Char.ext (UInt32.toNat_inj.mp hn))

end Script
