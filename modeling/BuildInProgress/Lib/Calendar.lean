import Mathlib.Algebra.GroupWithZero.Nat
import Mathlib.Data.List.GetD
import Mathlib.Tactic.ByContra

/-!
# The Gregorian calendar

Days are counted from the first of January of the year 0.  A date holds the proof that its month and day are there,
and every day has a date that counts back to it.  In front of the reform there is the Julian calendar as well.
-/

namespace Calendar

def leapYear (y : Int) : Bool := y % 4 == 0 && (y % 100 != 0 || y % 400 == 0)

def monthLengths (y : Int) : List Nat := [31, if leapYear y then 29 else 28, 31, 30, 31, 30, 31, 31, 30, 31, 30, 31]

/-- The days in front of the year `y`. -/
def daysBeforeYear (y : Int) : Int := 365 * y + (y + 3) / 4 - (y + 99) / 100 + (y + 399) / 400

/-- A day of a month of a year. -/
structure Date where
  year : Int
  month : Nat
  day : Nat
  month_pos : 0 < month
  day_pos : 0 < day
  day_le : day ≤ (monthLengths year).getD (month - 1) 0
  deriving DecidableEq

namespace Date

/-- The date with these numbers, when there is one. -/
def civil? (y : Int) (m d : Nat) : Option Date :=
  if h : 0 < m ∧ 0 < d ∧ d ≤ (monthLengths y).getD (m - 1) 0 then some ⟨y, m, d, h.1, h.2.1, h.2.2⟩ else none

theorem civil?_self (c : Date) : civil? c.year c.month c.day = some c :=
  dif_pos ⟨c.month_pos, c.day_pos, c.day_le⟩

/-- The days in front of the date. -/
def days (c : Date) : Int :=
  daysBeforeYear c.year + (((monthLengths c.year).take (c.month - 1)).sum + (c.day - 1) : Nat)

theorem month_le (c : Date) : c.month ≤ 12 := by
  have hpos := c.month_pos
  have hday := c.day_pos
  have hle := c.day_le
  by_contra hlarge
  -- a month that is not there has no days
  rw [List.getD_eq_default _ _ (by show 12 ≤ c.month - 1; omega)] at hle
  omega

theorem day_le_31 (c : Date) : c.day ≤ 31 := by
  have hlengths : ∀ l ∈ monthLengths c.year, l ≤ 31 := by
    unfold monthLengths
    cases leapYear c.year <;> decide
  have hmonth : c.month - 1 < (monthLengths c.year).length := by
    have hpos := c.month_pos
    have hle := c.month_le
    show c.month - 1 < 12
    omega
  have hle := c.day_le
  rw [List.getD_eq_getElem _ _ hmonth] at hle
  exact Nat.le_trans hle (hlengths _ (List.getElem_mem hmonth))

end Date

/-! ## The date of a day -/

/-- The interval that the number falls into when they lie one after the other, and the place in it. -/
def locate : List Nat → Nat → Nat × Nat
  | [], n => (0, n)
  | l :: ls, n => if n < l then (0, n) else ((locate ls (n - l)).1 + 1, (locate ls (n - l)).2)

theorem locate_spec (ls : List Nat) (n : Nat) (h : n < ls.sum) :
    (locate ls n).2 < ls.getD (locate ls n).1 0 ∧ (ls.take (locate ls n).1).sum + (locate ls n).2 = n := by
  induction ls generalizing n with
  | nil => cases h
  | cons l ls ih =>
    rw [List.sum_cons] at h
    rw [locate]
    by_cases hn : n < l
    · rw [if_pos hn]
      exact ⟨hn, Nat.zero_add n⟩
    · rw [if_neg hn]
      have hrest := ih (n - l) (by omega)
      refine ⟨hrest.1, ?_⟩
      rw [List.take_succ_cons, List.sum_cons]
      omega

/-- No other place is counted as the same number. -/
theorem locate_eq {ls : List Nat} {i r n : Nat} (hr : r < ls.getD i 0) (hn : (ls.take i).sum + r = n) :
    locate ls n = (i, r) := by
  induction ls generalizing i n with
  | nil => exact absurd hr (Nat.not_lt_zero r)
  | cons l ls ih =>
    cases i with
    | zero =>
      rw [locate, if_pos (by simpa [← hn] using hr)]
      rw [← hn]
      simp
    | succ i =>
      rw [List.take_succ_cons, List.sum_cons] at hn
      rw [locate, if_neg (by omega), ih hr (n := n - l) (by omega)]

/-- The year of a day: 400 years have 146097 days, and the estimate is off by one at most. -/
def yearOf (n : Int) : Int :=
  let y := 400 * n / 146097
  if n < daysBeforeYear y then y - 1 else if n < daysBeforeYear (y + 1) then y else y + 1

theorem sum_monthLengths (y : Int) : daysBeforeYear (y + 1) = daysBeforeYear y + (monthLengths y).sum := by
  have hsum : (monthLengths y).sum = if leapYear y then 366 else 365 := by
    unfold monthLengths
    cases leapYear y <;> rfl
  have hleap : leapYear y = true ↔ y % 4 = 0 ∧ (y % 100 ≠ 0 ∨ y % 400 = 0) := by
    simp only [leapYear, Bool.and_eq_true, Bool.or_eq_true, beq_iff_eq, bne_iff_ne]
  rw [hsum, daysBeforeYear, daysBeforeYear]
  by_cases h : leapYear y = true
  · have hdiv := hleap.mp h
    rw [if_pos h]
    omega
  · have hdiv := mt hleap.mpr h
    rw [if_neg h]
    omega

theorem daysBeforeYear_le {y y' : Int} (h : y ≤ y') : daysBeforeYear y ≤ daysBeforeYear y' := by
  obtain ⟨k, rfl⟩ := Int.le.dest h
  induction k with
  | zero => simp
  | succ k ih =>
    have hnext := sum_monthLengths (y + k)
    have hbefore := ih (Int.le_add_of_nonneg_right (Int.natCast_nonneg k))
    rw [Int.natCast_succ, ← Int.add_assoc]
    omega

theorem daysBeforeYear_yearOf (n : Int) :
    daysBeforeYear (yearOf n) ≤ n ∧ n < daysBeforeYear (yearOf n + 1) := by
  -- between two multiples of 400 years the leap days are spread unevenly, by less than a year
  have hestimate : daysBeforeYear (400 * n / 146097 - 1) ≤ n ∧ n < daysBeforeYear (400 * n / 146097 + 1 + 1) := by
    simp only [daysBeforeYear]
    omega
  rw [yearOf]
  split
  · rename_i hlow
    rw [Int.sub_add_cancel]
    exact ⟨hestimate.1, hlow⟩
  · rename_i hlow
    split
    · rename_i hhigh
      exact ⟨Int.not_lt.mp hlow, hhigh⟩
    · rename_i hhigh
      exact ⟨Int.not_lt.mp hhigh, hestimate.2⟩

/-- The place of a day among those of its year. -/
def dayOfYear (n : Int) : Nat := (n - daysBeforeYear (yearOf n)).toNat

theorem dayOfYear_lt (n : Int) : dayOfYear n < (monthLengths (yearOf n)).sum := by
  have hyear := daysBeforeYear_yearOf n
  rw [sum_monthLengths] at hyear
  rw [dayOfYear]
  omega

/-- The date of a day. -/
def ofDays (n : Int) : Date where
  year := yearOf n
  month := (locate (monthLengths (yearOf n)) (dayOfYear n)).1 + 1
  day := (locate (monthLengths (yearOf n)) (dayOfYear n)).2 + 1
  month_pos := Nat.succ_pos _
  day_pos := Nat.succ_pos _
  day_le := (locate_spec _ _ (dayOfYear_lt n)).1

@[simp] theorem days_ofDays (n : Int) : (ofDays n).days = n := by
  have hyear := daysBeforeYear_yearOf n
  have hday := (locate_spec _ _ (dayOfYear_lt n)).2
  show daysBeforeYear (yearOf n) +
    (((monthLengths (yearOf n)).take (locate (monthLengths (yearOf n)) (dayOfYear n)).1).sum +
      (locate (monthLengths (yearOf n)) (dayOfYear n)).2 : Nat) = n
  rw [hday, dayOfYear]
  omega

/-- Every date is the one of its day. -/
theorem ofDays_days (c : Date) : ofDays c.days = c := by
  have hday : c.day - 1 < (monthLengths c.year).getD (c.month - 1) 0 := by
    have hpos := c.day_pos
    have hle := c.day_le
    omega
  have hmonth : c.month - 1 < (monthLengths c.year).length := by
    have hpos := c.month_pos
    have hle := c.month_le
    show c.month - 1 < 12
    omega
  -- the day lies in its year
  have hin : ((monthLengths c.year).take (c.month - 1)).sum + (c.day - 1) < (monthLengths c.year).sum := by
    have hsplit : ((monthLengths c.year).take (c.month - 1)).sum + ((monthLengths c.year).drop (c.month - 1)).sum =
        (monthLengths c.year).sum := by
      rw [← List.sum_append, List.take_append_drop]
    rw [List.drop_eq_getElem_cons hmonth, List.sum_cons, ← List.getD_eq_getElem _ 0 hmonth] at hsplit
    omega
  have hyear : yearOf c.days = c.year := by
    have hspec := daysBeforeYear_yearOf c.days
    have hnext := sum_monthLengths c.year
    have hdays : c.days = daysBeforeYear c.year +
      (((monthLengths c.year).take (c.month - 1)).sum + (c.day - 1) : Nat) := rfl
    rcases Int.lt_trichotomy (yearOf c.days) c.year with hlt | heq | hgt
    · have hle := daysBeforeYear_le (y := yearOf c.days + 1) hlt
      omega
    · exact heq
    · have hle := daysBeforeYear_le (y := c.year + 1) hgt
      omega
  have hplace : dayOfYear c.days = ((monthLengths c.year).take (c.month - 1)).sum + (c.day - 1) := by
    rw [dayOfYear, hyear, Date.days]
    omega
  have hlocate : locate (monthLengths (yearOf c.days)) (dayOfYear c.days) = (c.month - 1, c.day - 1) := by
    rw [hyear]
    exact locate_eq hday hplace.symm
  have hpos := c.month_pos
  have hpos' := c.day_pos
  rw [ofDays, Date.mk.injEq, hlocate]
  exact ⟨hyear, Nat.sub_add_cancel hpos, Nat.sub_add_cancel hpos'⟩

example : (ofDays 719528).year = 1970 ∧ (ofDays 719528).month = 1 ∧ (ofDays 719528).day = 1 := by decide

/-! ## The reform -/

/-- The fifteenth of October 1582, which came after the fourth in Italy. -/
def reform : Int := 578101

/-- Every fourth year is a leap year of the Julian calendar. -/
def julianLengths (y : Int) : List Nat := [31, if y % 4 = 0 then 29 else 28, 31, 30, 31, 30, 31, 31, 30, 31, 30, 31]

/-- The day with these numbers in the Julian calendar, whose year 0 begins two days earlier. -/
def julianDays? (y : Int) (m d : Nat) : Option Int :=
  if 0 < m ∧ 0 < d ∧ d ≤ (julianLengths y).getD (m - 1) 0 then
    some (365 * y + (y + 3) / 4 - 2 + (((julianLengths y).take (m - 1)).sum + (d - 1) : Nat))
  else none

/-- The year, month and day of a day in the Julian calendar: four years have 1461 days, and the first is a leap year. -/
def julianOfDays (n : Int) : Int × Nat × Nat :=
  let r := ((n + 2) % 1461).toNat
  let (y, dayOfYear) := if r < 366 then (0, r) else ((r - 366) / 365 + 1, (r - 366) % 365)
  let year : Int := 4 * ((n + 2) / 1461) + (y : Nat)
  let place := locate (julianLengths year) dayOfYear
  (year, place.1 + 1, place.2 + 1)

/-- The day with these numbers in the calendar of Italy; ten days of October 1582 are none. -/
def italianDays? (y : Int) (m d : Nat) : Option Int :=
  match ((Date.civil? y m d).map Date.days).filter (reform ≤ ·) with
  | some n => some n
  | none => (julianDays? y m d).filter (· < reform)

/-- From the reform on the calendars agree. -/
theorem italianDays?_of_le {c : Date} (h : reform ≤ c.days) : italianDays? c.year c.month c.day = some c.days := by
  rw [italianDays?, Date.civil?_self, Option.map_some, Option.filter_some, if_pos (decide_eq_true h)]

example : italianDays? 1582 10 4 = some 578100 ∧ italianDays? 1582 10 10 = none ∧
    italianDays? 1582 10 15 = some 578101 ∧ julianOfDays 578100 = (1582, 10, 4) := by decide

end Calendar
