import BuildInProgress.Lib.Calendar
import BuildInProgress.Lib.Text

/-!
# Formatted times

`strftime` and `strptime` with the conversions of a date, a clock of twelve hours and a zone.  A conversion reads back
what it prints unless the text behind it goes on as it ends, and a format does so if its conversions do.
-/

namespace Strftime

open Text Calendar

/-- A time as the clock and the calendar of a zone show it. -/
structure LocalTime where
  date : Date
  hour : Nat
  minute : Nat
  second : Nat
  zone : Text
  hour_lt : hour < 24
  minute_lt : minute < 60
  second_lt : second < 60

namespace LocalTime

/-- The local time with this many seconds since the year 0. -/
def ofSeconds (n : Int) (zone : Text) : LocalTime where
  date := ofDays (n / 86400)
  hour := (n % 86400 / 3600).toNat
  minute := (n % 3600 / 60).toNat
  second := (n % 60).toNat
  zone := zone
  hour_lt := by omega
  minute_lt := by omega
  second_lt := by omega

def seconds (l : LocalTime) : Int := l.date.days * 86400 + (l.hour * 3600 + l.minute * 60 + l.second : Nat)

theorem seconds_ofSeconds (n : Int) (zone : Text) : (ofSeconds n zone).seconds = n := by
  show (ofDays (n / 86400)).days * 86400 +
    ((n % 86400 / 3600).toNat * 3600 + (n % 3600 / 60).toNat * 60 + (n % 60).toNat : Nat) = n
  rw [days_ofDays]
  omega

end LocalTime

inductive Directive where
  | month
  | day
  | year
  /-- `%I` -/
  | hour
  | minute
  | second
  | meridian
  | zone
  | char (c : Char)
  deriving DecidableEq, Repr

namespace Directive

def ofLetter : Char → Directive
  | 'm' => month
  | 'd' => day
  | 'Y' => year
  | 'I' => hour
  | 'M' => minute
  | 'S' => second
  | 'p' => meridian
  | 'Z' => zone
  | c => char c

/-- The conversion reads digits, or the character is one. -/
def numeric : Directive → Bool
  | meridian => false
  | zone => false
  | char c => c.isDigit
  | _ => true

end Directive

open Directive

/-- The directives of a format. -/
def directives : Text → List Directive
  | '%' :: c :: fmt => ofLetter c :: directives fmt
  | c :: fmt => char c :: directives fmt
  | [] => []

/-! ## Printing -/

def pad (w n : Nat) : Text := List.replicate (w - (toS n).length) '0' ++ toS n

def print (l : LocalTime) : Directive → Text
  | month => pad 2 l.date.month
  | day => pad 2 l.date.day
  | year => if l.date.year < 0 then '-' :: pad 4 l.date.year.natAbs else pad 4 l.date.year.natAbs
  | hour => pad 2 ((l.hour + 11) % 12 + 1)
  | minute => pad 2 l.minute
  | second => pad 2 l.second
  | meridian => if l.hour < 12 then ['A', 'M'] else ['P', 'M']
  | zone => l.zone
  | char c => [c]

def LocalTime.strftime (l : LocalTime) (fmt : Text) : Text := (directives fmt).flatMap (print l)

/-! ## Reading -/

/-- What has been read; `DateTime.strptime` begins with the first day of the Julian period. -/
structure Elements where
  year : Int := -4712
  month : Nat := 1
  day : Nat := 1
  hour : Nat := 0
  minute : Nat := 0
  second : Nat := 0
  meridian : Option Nat := none
  offset : Int := 0
  deriving DecidableEq, Repr

/-- At least one digit and at most `w`. -/
def readDigits (w : Nat) (t : Text) : Option (Nat × Text) :=
  let ds := (t.takeWhile Char.isDigit).take w
  if ds = [] then none else some (Nat.ofDigitChars 10 ds 0, t.drop ds.length)

def readNumber (lo hi : Nat) (t : Text) : Option (Nat × Text) :=
  (readDigits 2 t).filter fun r => decide (lo ≤ r.1 ∧ r.1 ≤ hi)

/-- A blank may stand for the first digit. -/
def readPadded (hi : Nat) : Text → Option (Nat × Text)
  | ' ' :: t => (readDigits 1 t).filter fun r => decide (1 ≤ r.1 ∧ r.1 ≤ hi)
  | t => readNumber 1 hi t

/-- A sign and all the digits, four of them if the format goes on with digits. -/
def readYear (capped : Bool) : Text → Option (Int × Text)
  | '-' :: t => (readDigits (if capped then 4 else t.length) t).map fun r => (-(r.1 : Int), r.2)
  | '+' :: t => (readDigits (if capped then 4 else t.length) t).map fun r => ((r.1 : Int), r.2)
  | t => (readDigits (if capped then 4 else t.length) t).map fun r => ((r.1 : Int), r.2)

def wordChar (c : Char) : Bool := c.isAlphanum || c == '_'

/-- `/\A([ap])(?:m\b|\.m\.)/i` -/
def readMeridian : Text → Option (Nat × Text)
  | a :: '.' :: m :: '.' :: t =>
    if (a.toLower == 'a' || a.toLower == 'p') && m.toLower == 'm' then some (if a.toLower == 'p' then 12 else 0, t)
    else none
  | a :: m :: t =>
    if (a.toLower == 'a' || a.toLower == 'p') && m.toLower == 'm' && !t.head?.any wordChar then
      some (if a.toLower == 'p' then 12 else 0, t)
    else none
  | _ => none

/-- One directive; `resolve` is what `%Z` makes of the rest of the text, an offset in seconds. -/
def read (resolve : Text → Option Int) (ds : List Directive) (e : Elements) (t : Text) :
    Directive → Option (Elements × Text)
  | month => (readNumber 1 12 t).map fun r => ({ e with month := r.1 }, r.2)
  | day => (readPadded 31 t).map fun r => ({ e with day := r.1 }, r.2)
  | year => (readYear (ds.head?.any numeric) t).map fun r => ({ e with year := r.1 }, r.2)
  | hour => (readPadded 12 t).map fun r => ({ e with hour := r.1 }, r.2)
  | minute => (readNumber 0 59 t).map fun r => ({ e with minute := r.1 }, r.2)
  | second => (readNumber 0 60 t).map fun r => ({ e with second := r.1 }, r.2)
  | meridian => (readMeridian t).map fun r => ({ e with meridian := some r.1 }, r.2)
  | zone => (resolve t).map fun o => ({ e with offset := o }, [])
  | char c =>
    if isSpace c then some (e, t.dropWhile isSpace)
    else if t.head? = some c then some (e, t.drop 1) else none

def parse (resolve : Text → Option Int) : List Directive → Elements → Text → Option (Elements × Text)
  | [], e, t => some (e, t)
  | d :: ds, e, t => (read resolve ds e t d).bind fun r => parse resolve ds r.1 r.2

namespace Elements

def hourOfDay (e : Elements) : Nat :=
  match e.meridian with
  | none => e.hour
  | some m => e.hour % 12 + m

/-- The seconds since the year 0 in UTC, when there is such a date in the calendar of Italy; a leap second counts as the
one before. -/
def instant (e : Elements) : Option Int :=
  (italianDays? e.year e.month e.day).map fun days =>
    days * 86400 + (e.hourOfDay * 3600 + e.minute * 60 + min e.second 59 : Nat) - e.offset

end Elements

/-- `DateTime.strptime`; a text that goes on behind the format is no time. -/
def strptime (resolve : Text → Option Int) (fmt t : Text) : Option Int :=
  match parse resolve (directives fmt) {} t with
  | some (e, []) => e.instant
  | _ => none

/-! ## What is printed is read back -/

variable {l : LocalTime} {rest : Text}

theorem isDigit_of_mem_pad {w n : Nat} {c : Char} (h : c ∈ pad w n) : c.isDigit = true := by
  rcases List.mem_append.mp h with h | h
  · obtain rfl := List.eq_of_mem_replicate h
    decide
  · exact isDigit_of_mem_toS h

theorem pad_ne_nil (w n : Nat) : pad w n ≠ [] := fun h => toS_ne_nil n (List.append_eq_nil_iff.mp h).2

/-- A printed number begins with a digit. -/
theorem head_pad (w n : Nat) (rest : Text) : ∃ c t, pad w n ++ rest = c :: t ∧ c.isDigit = true := by
  cases h : pad w n with
  | nil => exact absurd h (pad_ne_nil w n)
  | cons c t => exact ⟨c, t ++ rest, rfl, isDigit_of_mem_pad (h ▸ List.mem_cons_self)⟩

theorem ofDigitChars_pad (w n : Nat) : Nat.ofDigitChars 10 (pad w n) 0 = n := by
  rw [pad, Nat.ofDigitChars_append, Nat.ofDigitChars_replicate_zero, Nat.mul_zero]
  exact Nat.ofDigitChars_ten_toDigits

theorem length_pad_two {n : Nat} (h : n < 100) : (pad 2 n).length = 2 := by
  have hlength : (toS n).length ≤ 2 := (Nat.length_toDigits_le_iff (by decide) (by decide)).mpr h
  rw [pad, List.length_append, List.length_replicate]
  omega

theorem readDigits_pad {w v n : Nat} (h : (pad v n).length = w ∨ (pad v n).length ≤ w ∧ ¬ rest.head?.any Char.isDigit) :
    readDigits w (pad v n ++ rest) = some (n, rest) := by
  have htake : ((pad v n ++ rest).takeWhile Char.isDigit).take w = pad v n := by
    rw [List.takeWhile_append_of_pos fun c => isDigit_of_mem_pad]
    rcases h with h | ⟨h, hrest⟩
    · exact List.take_left' h
    · have hnone : rest.takeWhile Char.isDigit = [] := by
        cases rest with
        | nil => rfl
        | cons c t =>
          apply List.takeWhile_cons_of_neg
          exact hrest
      rw [hnone, List.append_nil]
      exact List.take_of_length_le h
  rw [readDigits, htake, if_neg (pad_ne_nil v n), ofDigitChars_pad, List.drop_left]

theorem readNumber_pad {lo hi n : Nat} (hlo : lo ≤ n) (hhi : n ≤ hi) (h : hi < 100) :
    readNumber lo hi (pad 2 n ++ rest) = some (n, rest) := by
  have hlt : n < 100 := by omega
  rw [readNumber, readDigits_pad (Or.inl (length_pad_two hlt)), Option.filter_some, if_pos]
  exact decide_eq_true ⟨hlo, hhi⟩

theorem readPadded_pad {hi n : Nat} (hlo : 1 ≤ n) (hhi : n ≤ hi) (h : hi < 100) :
    readPadded hi (pad 2 n ++ rest) = some (n, rest) := by
  obtain ⟨c, t, hc, hdigit⟩ := head_pad 2 n rest
  have hnumber : readNumber 1 hi (pad 2 n ++ rest) = some (n, rest) := readNumber_pad hlo hhi h
  rw [hc] at hnumber ⊢
  unfold readPadded
  split
  · rename_i heq
    rw [(List.cons.inj heq).1] at hdigit
    exact absurd hdigit (by decide)
  · exact hnumber

theorem readYear_print {capped : Bool} (hcapped : capped = false) (h : ¬ rest.head?.any Char.isDigit) :
    readYear capped (print l year ++ rest) = some (l.date.year, rest) := by
  have hread : ∀ n : Nat, readDigits (pad 4 n ++ rest).length (pad 4 n ++ rest) = some (n, rest) := by
    intro n
    apply readDigits_pad
    right
    rw [List.length_append]
    exact ⟨Nat.le_add_right _ _, h⟩
  rw [print, hcapped]
  by_cases hneg : l.date.year < 0
  · rw [if_pos hneg, List.cons_append]
    show (readDigits (pad 4 l.date.year.natAbs ++ rest).length (pad 4 l.date.year.natAbs ++ rest)).map _ = _
    rw [hread]
    show some (-(l.date.year.natAbs : Int), rest) = some (l.date.year, rest)
    rw [show -(l.date.year.natAbs : Int) = l.date.year by omega]
  · obtain ⟨c, t, hc, hdigit⟩ := head_pad 4 l.date.year.natAbs rest
    have hnumber := hread l.date.year.natAbs
    rw [if_neg hneg]
    rw [hc] at hnumber ⊢
    unfold readYear
    -- a digit is no sign
    split
    · rename_i heq
      rw [(List.cons.inj heq).1] at hdigit
      exact absurd hdigit (by decide)
    · rename_i heq
      rw [(List.cons.inj heq).1] at hdigit
      exact absurd hdigit (by decide)
    · show (readDigits (c :: t).length (c :: t)).map _ = _
      rw [hnumber]
      show some ((l.date.year.natAbs : Int), rest) = some (l.date.year, rest)
      rw [show (l.date.year.natAbs : Int) = l.date.year by omega]

theorem readMeridian_print (h : ¬ rest.head?.any wordChar) :
    readMeridian (print l meridian ++ rest) = some (if l.hour < 12 then 0 else 12, rest) := by
  rw [print]
  by_cases hnoon : l.hour < 12
  · rw [if_pos hnoon, if_pos hnoon]
    show (if (true && true) && !rest.head?.any wordChar then some (0, rest) else none) = _
    rw [if_pos (by simp [h])]
  · rw [if_neg hnoon, if_neg hnoon]
    show (if (true && true) && !rest.head?.any wordChar then some (12, rest) else none) = _
    rw [if_pos (by simp [h])]

/-- The element that a directive prints. -/
def record (l : LocalTime) (e : Elements) : Directive → Elements
  | month => { e with month := l.date.month }
  | day => { e with day := l.date.day }
  | year => { e with year := l.date.year }
  | hour => { e with hour := (l.hour + 11) % 12 + 1 }
  | minute => { e with minute := l.minute }
  | second => { e with second := l.second }
  | meridian => { e with meridian := some (if l.hour < 12 then 0 else 12) }
  | _ => e

/-- The text behind a directive does not go on as the directive ends. -/
def Ends (ds : List Directive) (rest : Text) : Directive → Prop
  | year => ds.head?.any numeric = false ∧ ¬ rest.head?.any Char.isDigit
  | meridian => ¬ rest.head?.any wordChar
  | zone => False
  | char c => isSpace c = true → ¬ rest.head?.any isSpace
  | _ => True

/-- Only blanks run on. -/
theorem ends_char {ds : List Directive} {c : Char} (h : isSpace c = false) : Ends ds rest (char c) := by
  intro hc
  rw [h] at hc
  cases hc

theorem read_print (resolve : Text → Option Int) (e : Elements) {ds : List Directive} {d : Directive}
    (h : Ends ds rest d) : read resolve ds e (print l d ++ rest) d = some (record l e d, rest) := by
  have hminute := l.minute_lt
  have hsecond := l.second_lt
  cases d with
  | month =>
    rw [read, print, readNumber_pad l.date.month_pos l.date.month_le (by decide)]
    rfl
  | day =>
    rw [read, print, readPadded_pad l.date.day_pos l.date.day_le_31 (by decide)]
    rfl
  | year =>
    rw [read, readYear_print h.1 h.2]
    rfl
  | hour =>
    rw [read, print, readPadded_pad (by omega) (by omega) (by decide)]
    rfl
  | minute =>
    rw [read, print, readNumber_pad (by omega) (by omega) (by decide)]
    rfl
  | second =>
    rw [read, print, readNumber_pad (by omega) (by omega) (by decide)]
    rfl
  | meridian =>
    rw [read, readMeridian_print h]
    rfl
  | zone => exact absurd h id
  | char c =>
    rw [read, print, List.singleton_append]
    by_cases hc : isSpace c = true
    · rw [if_pos hc, List.dropWhile_cons_of_pos hc]
      -- a blank takes all the blanks there are, so none may follow
      have hrest : rest.dropWhile isSpace = rest := by
        cases rest with
        | nil => rfl
        | cons c t =>
          apply List.dropWhile_cons_of_neg
          exact h hc
      rw [hrest]
      rfl
    · rw [if_neg hc]
      exact if_pos rfl

/-- Every directive of a format ends before the text behind it. -/
def Readable (l : LocalTime) (ds' : List Directive) (rest : Text) : List Directive → Prop
  | [] => True
  | d :: ds => Ends (ds ++ ds') (ds.flatMap (print l) ++ rest) d ∧ Readable l ds' rest ds

theorem parse_print (resolve : Text → Option Int) {ds ds' : List Directive} (h : Readable l ds' rest ds) (e : Elements) :
    parse resolve (ds ++ ds') e (ds.flatMap (print l) ++ rest) = parse resolve ds' (ds.foldl (record l) e) rest := by
  induction ds generalizing e with
  | nil => rfl
  | cons d ds ih =>
    rw [List.cons_append, List.flatMap_cons, List.append_assoc, parse, read_print resolve e h.1, Option.bind_some,
      List.foldl_cons]
    exact ih h.2 _

end Strftime
