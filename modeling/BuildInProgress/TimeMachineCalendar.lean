import BuildInProgress.Lib.Calendar
import BuildInProgress.TimeMachine

/-!
# The calendar of the time machine

`timemachine.html.erb` hands the dates of the log to the calendar of `kalendar.js`, which looks for the events of a
day under a number that it makes of the date, and goes to an entry of the day that is clicked.  Colours, times and
the list of a day's events are left out.
-/

open Text Calendar

namespace TimeMachine

/-- `current_date` of an event. -/
def currentDate (c : Date) : Text :=
  let day := '0' :: toS c.day
  intToS c.year ++ toS c.month ++ day.drop (day.length - 2)

/-- A number below ten gets a zero in front. -/
def padded (n : Nat) : Text := if n < 10 then '0' :: toS n else toS n

/-- `toString("yyyy-MM-dd")` -/
def dateString (c : Date) : Text := intToS c.year ++ '-' :: padded c.month ++ '-' :: padded c.day

/-- `findLog` for the date that was clicked: the entry that is shown from now on. -/
def findLog (dates : List Date) (info : Text) : Option Nat := dates.findIdx? fun c => dateString c = info

namespace Kalendar

/-- The date in the format `YYYYMMDD`. -/
def format (c : Date) : Text := intToS c.year ++ padded c.month ++ padded c.day

/-- What is in `eventsParsed` under the key: the events are stored under `parseInt` of their dates. -/
def eventsParsed (dates : List Date) (key : Text) : List Date :=
  dates.filter fun c => intToS (toI (currentDate c)) = key

/-- `getDay`, which is 0 on a Sunday. -/
def getDay (c : Date) : Int := (c.days + 6) % 7

example : getDay (ofDays 719528) = 4 := by decide

/-- The days in front of the first of the month, which is never in the corner of the grid. -/
def lead (first : Date) : Int := if getDay first < 1 then getDay first + 7 else getDay first

/-- The 42 days of a month's grid. -/
def cell (first : Date) (n : Nat) : Date := ofDays (first.days - lead first + n)

end Kalendar

/-! ## Dates as numbers -/

theorem toS_snoc {n d : Nat} (hn : 0 < n) (hd : d < 10) : toS n ++ toS d = toS (10 * n + d) :=
  Nat.toDigits_append_toDigits (by decide) hn hd

/-- Two digits behind a number. -/
theorem toS_padded {n m : Nat} (hn : 0 < n) (hm : m < 100) : toS n ++ padded m = toS (100 * n + m) := by
  rw [padded]
  by_cases hlt : m < 10
  · rw [if_pos hlt]
    have hzero : toS n ++ toS 0 = toS (10 * n + 0) := toS_snoc hn (by decide)
    calc toS n ++ '0' :: toS m = (toS n ++ toS 0) ++ toS m := by rw [List.append_assoc]; rfl
      _ = toS (10 * (10 * n + 0) + m) := by rw [hzero, toS_snoc (by omega) hlt]
      _ = toS (100 * n + m) := by congr 1; omega
  · rw [if_neg hlt]
    have hsplit : toS m = toS (m / 10) ++ toS (m % 10) := by
      rw [toS_snoc (by omega) (by omega)]
      congr 1
      omega
    rw [hsplit, ← List.append_assoc, toS_snoc hn (by omega), toS_snoc (by omega) (by omega)]
    congr 1
    omega

theorem slice_day {d : Nat} (h : d ≤ 31) : ('0' :: toS d).drop (('0' :: toS d).length - 2) = padded d := by
  have hall : ∀ d < 32, ('0' :: toS d).drop (('0' :: toS d).length - 2) = padded d := by decide +kernel
  exact hall d (by omega)

theorem intToS_natCast (n : Nat) : intToS n = toS n := by
  rw [intToS, if_neg (by omega), Int.natAbs_natCast]

/-- The number of a date, with `w` for the month. -/
def number (w : Nat) (c : Date) : Nat := 100 * (w * c.year.toNat + c.month) + c.day

section Numbers

variable {c c' : Date}

theorem intToS_year (h : 1000 ≤ c.year) : intToS c.year = toS c.year.toNat := by
  rw [← intToS_natCast, Int.toNat_of_nonneg (by omega)]

theorem format_eq (h : 1000 ≤ c.year) : Kalendar.format c = toS (number 100 c) := by
  have hm := c.month_le
  have hd := c.day_le_31
  rw [Kalendar.format, intToS_year h, toS_padded (by omega) (by omega), toS_padded (by omega) (by omega)]
  rfl

/-- The month of an event takes one digit before October. -/
theorem currentDate_eq (h : 1000 ≤ c.year) :
    currentDate c = toS (number (if c.month < 10 then 10 else 100) c) := by
  have hm := c.month_le
  have hpos := c.month_pos
  rw [currentDate, slice_day c.day_le_31, intToS_year h]
  by_cases hlt : c.month < 10
  · rw [if_pos hlt, toS_snoc (by omega) hlt, toS_padded (by omega) (Nat.lt_of_le_of_lt c.day_le_31 (by decide))]
    rfl
  · have hmonth : toS c.month = padded c.month := by rw [padded, if_neg hlt]
    rw [if_neg hlt, hmonth, toS_padded (by omega) (by omega),
      toS_padded (by omega) (Nat.lt_of_le_of_lt c.day_le_31 (by decide))]
    rfl

/-- Events and days meet in the months with two digits only. -/
theorem key_eq_iff (h : 1000 ≤ c.year) (hle : c.year ≤ 9999) (h' : 1000 ≤ c'.year) :
    intToS (toI (currentDate c)) = Kalendar.format c' ↔ c = c' ∧ 10 ≤ c.month := by
  have hm := c.month_le
  have hd := c.day_le_31
  have hm' := c'.month_le
  have hd' := c'.day_le_31
  rw [currentDate_eq h, toI_toS, intToS_natCast, format_eq h', toS_inj, number, number]
  constructor
  · intro heq
    by_cases hlt : c.month < 10
    · -- seven digits are no eight digits
      rw [if_pos hlt] at heq
      omega
    · rw [if_neg hlt] at heq
      obtain ⟨year, month, day, _, _, _⟩ := c
      obtain ⟨year', month', day', _, _, _⟩ := c'
      rw [Date.mk.injEq]
      dsimp only at *
      omega
  · rintro ⟨rfl, hten⟩
    rw [if_neg (by omega)]

end Numbers

theorem padded_inj {m n : Nat} (hm : m < 100) (hn : n < 100) (h : padded m = padded n) : m = n := by
  have heq : toS 1 ++ padded m = toS 1 ++ padded n := by rw [h]
  rw [toS_padded (by decide) hm, toS_padded (by decide) hn, toS_inj] at heq
  omega

theorem length_padded {m : Nat} (h : m < 100) : (padded m).length = 2 := by
  have hall : ∀ m < 100, (padded m).length = 2 := by decide +kernel
  exact hall m h

theorem intToS_injective : Function.Injective intToS := by
  intro m n h
  have hdigit : ∀ n : Nat, ∀ t, toS n ≠ '-' :: t := by
    intro n t ht
    have hminus : '-'.isDigit = true := isDigit_of_mem_toS (n := n) (by rw [ht]; exact List.mem_cons_self)
    exact absurd hminus (by decide)
  rw [intToS, intToS] at h
  split at h <;> split at h
  · have habs := toS_inj.mp (List.tail_eq_of_cons_eq h)
    omega
  · exact absurd h.symm (hdigit _ _)
  · exact absurd h (hdigit _ _)
  · have habs := toS_inj.mp h
    omega

/-- Dates are told apart by what `findLog` compares. -/
theorem dateString_inj {c c' : Date} : dateString c = dateString c' ↔ c = c' := by
  refine ⟨fun h => ?_, fun h => by rw [h]⟩
  have hlt : ∀ c : Date, c.month < 100 ∧ c.day < 100 := fun c =>
    ⟨Nat.lt_of_le_of_lt c.month_le (by decide), Nat.lt_of_le_of_lt c.day_le_31 (by decide)⟩
  have hlength : ∀ c : Date, ('-' :: padded c.month ++ '-' :: padded c.day).length = 6 := by
    intro c
    rw [List.length_append, List.length_cons, List.length_cons, length_padded (hlt c).1, length_padded (hlt c).2]
  rw [dateString, dateString, List.append_assoc, List.append_assoc] at h
  obtain ⟨hyear, hrest⟩ := List.append_inj' h ((hlength c).trans (hlength c').symm)
  obtain ⟨hmonth, hday⟩ := List.append_inj' hrest (by
    rw [List.length_cons, List.length_cons, length_padded (hlt c).2, length_padded (hlt c').2])
  have hm := padded_inj (hlt c).1 (hlt c').1 (List.tail_eq_of_cons_eq hmonth)
  have hd := padded_inj (hlt c).2 (hlt c').2 (List.tail_eq_of_cons_eq hday)
  have hy := intToS_injective hyear
  obtain ⟨year, month, day, _, _, _⟩ := c
  obtain ⟨year', month', day', _, _, _⟩ := c'
  rw [Date.mk.injEq]
  exact ⟨hy, hm, hd⟩

/-! ## The grid -/

namespace Kalendar

theorem lead_le (first : Date) : 1 ≤ lead first ∧ lead first ≤ 7 := by
  rw [lead, getDay]
  omega

/-- The days of the month of a grid are in it, each once. -/
theorem exists_cell {first c : Date} (hfirst : first.day = 1) (hy : c.year = first.year) (hm : c.month = first.month) :
    ∃ n, (n < 42 ∧ cell first n = c) ∧ ∀ k, cell first k = c → k = n := by
  have hlead := lead_le first
  have hday := c.day_le_31
  have hpos := c.day_pos
  have hdays : c.days = first.days + (c.day - 1 : Nat) := by
    rw [Date.days, Date.days, hy, hm, hfirst]
    omega
  refine ⟨(c.days - (first.days - lead first)).toNat, ⟨by omega, ?_⟩, fun k hk => ?_⟩
  · have hback : first.days - lead first + ((c.days - (first.days - lead first)).toNat : Int) = c.days := by omega
    rw [cell, hback, ofDays_days]
  · rw [← hk, cell, days_ofDays]
    omega

end Kalendar

/-- For a log of years with four digits, the calendar shows on each day of a grid the entries of that day if the
month has two digits, and none otherwise; a click on any day shows its first entry.  Each day of the month is in the
grid once. -/
theorem calendar_of_log (dates : List Date) (hdates : ∀ c ∈ dates, 1000 ≤ c.year ∧ c.year ≤ 9999) (first : Date)
    (hfirst : first.day = 1) :
    (∀ n < 42, 1000 ≤ (Kalendar.cell first n).year →
      Kalendar.eventsParsed dates (Kalendar.format (Kalendar.cell first n)) =
          dates.filter (fun c => c = Kalendar.cell first n ∧ 10 ≤ c.month) ∧
        findLog dates (dateString (Kalendar.cell first n)) = dates.findIdx? fun c => c = Kalendar.cell first n) ∧
    ∀ c : Date, c.year = first.year → c.month = first.month →
      ∃ n, (n < 42 ∧ Kalendar.cell first n = c) ∧ ∀ k, Kalendar.cell first k = c → k = n := by
  refine ⟨fun n _ hyear => ⟨?_, ?_⟩, fun c hy hm => Kalendar.exists_cell hfirst hy hm⟩
  · rw [Kalendar.eventsParsed]
    apply List.filter_congr
    intro c hc
    rw [decide_eq_decide]
    exact key_eq_iff (hdates c hc).1 (hdates c hc).2 hyear
  · rw [findLog]
    congr 1
    funext c
    rw [decide_eq_decide]
    exact dateString_inj

/-- An entry of the third of July 2015. -/
def summerDay : Date := ⟨2015, 7, 3, (by decide), (by decide), (by decide)⟩

/-- In the grid of July the entry is not shown on its day, but found by a click. -/
theorem calendar_of_summerDay :
    let first : Date := ⟨2015, 7, 1, (by decide), (by decide), (by decide)⟩
    Kalendar.cell first 5 = summerDay ∧
      Kalendar.eventsParsed [summerDay] (Kalendar.format (Kalendar.cell first 5)) = [] ∧
      findLog [summerDay] (dateString (Kalendar.cell first 5)) = some 0 := by
  intro first
  obtain ⟨hevents, hfound⟩ := (calendar_of_log [summerDay] (by decide) first rfl).1 5 (by decide) (by decide +kernel)
  rw [hevents, hfound]
  exact ⟨(by decide +kernel), (by decide +kernel), (by decide +kernel)⟩

end TimeMachine
