import Mathlib.Algebra.BigOperators.Fin
import Mathlib.Data.BitVec
import Mathlib.Tactic.IntervalCases
import Mathlib.Tactic.LinearCombination
import Mathlib.Tactic.Ring

/-!
# `gmtime_r` and `mktime`

The calendar of `src/lib/time.c`.

* `dayNumber`: the days from 1970 to a date of the Gregorian calendar.
* `Tm.second`: the second that the fields of a structure denote, in range or not.
* `calendar_exact`: `gmtime_r` gives the date of every second, and `mktime` the second of every
  structure whose month is not negative and whose year is 1970 or later.
* `month_not_carried`: a structure with a negative month.
-/

namespace Tortoise.Time

open BitVec

abbrev Word := BitVec 32

structure Tm where
  sec : Word
  min : Word
  hour : Word
  mday : Word
  mon : Word
  year : Word
  wday : Word
  yday : Word
  isdst : Word

/-! ## The code -/

def mdays : List Nat := [31, 28, 31, 30, 31, 30, 31, 31, 30, 31, 30, 31]

def leap (y : Int) : Bool := y % 4 = 0 && y % 100 ≠ 0 || y % 400 = 0

def yearLen (y : Int) : Nat := if leap y then 366 else 365

theorem yearLen_bounds (y : Int) : 365 ≤ yearLen y ∧ yearLen y ≤ 366 := by
  unfold yearLen
  split <;> omega

def monthLen (y : Int) (m : Nat) : Nat := mdays.getD m 0 + if m = 1 ∧ leap y then 1 else 0

/-- The loop of `gmtime_r` over the years. -/
def yearLoop (y : Int) (days : Nat) : Int × Nat :=
  if _h : yearLen y ≤ days then yearLoop (y + 1) (days - yearLen y) else (y, days)
termination_by days
decreasing_by
  have := yearLen_bounds y
  omega

/-- The loop of `gmtime_r` over the months, of which there are `k` more. -/
def monthLoop (y : Int) : Nat → Nat → Nat → Nat × Nat
  | 0, m, days => (m, days)
  | k + 1, m, days =>
    if days < monthLen y m then (m, days) else monthLoop y k (m + 1) (days - monthLen y m)

def gmtimeR (t : Word) : Tm :=
  let days := t.toNat / 86400
  let rem := t.toNat % 86400
  let y := yearLoop 1970 days
  let m := monthLoop y.1 12 0 y.2
  { sec := .ofNat 32 (rem % 60)
    min := .ofNat 32 (rem / 60 % 60)
    hour := .ofNat 32 (rem / 3600)
    mday := .ofNat 32 (m.2 + 1)
    mon := .ofNat 32 m.1
    year := .ofInt 32 (y.1 - 1900)
    wday := .ofNat 32 ((days + 4) % 7)
    yday := .ofNat 32 y.2
    isdst := 0 }

/-- `while (a >= k) { a -= k; b++; }`, which makes at most as many turns as `a` says. -/
def carry (k : Word) : Nat → Word → Word → Word × Word
  | 0, a, b => (a, b)
  | n + 1, a, b => if k.sle a then carry k n (a - k) (b + 1) else (a, b)

/-- `for (i = 0; i < n; i++) days += len(i)`. -/
def addDays (len : Nat → Nat) (n : Nat) (days : Word) : Word :=
  (List.range n).foldl (fun days i => days + .ofNat 32 (len i)) days

def mktime (tm : Tm) : Word × Tm :=
  let (sec, min) := carry 60 tm.sec.toNat tm.sec tm.min
  let (min, hour) := carry 60 min.toNat min tm.hour
  let (hour, mday) := carry 24 hour.toNat hour tm.mday
  let (mon, year) := carry 12 tm.mon.toNat tm.mon tm.year
  let y := (year + 1900).toInt
  let days := addDays (fun i => yearLen (1970 + i)) (y - 1970).toNat 0
  let days := addDays (monthLen y) mon.toInt.toNat days
  let days := days + (mday - 1)
  let t := days * 86400 + (hour * 3600 + min * 60 + sec)
  (t, gmtimeR t)

/-! ## The calendar -/

/-- The leap years from year 1 to year `y`. -/
def leaps (y : Int) : Int := y / 4 - y / 100 + y / 400

/-- The days from 1970 to the first of January. -/
def newYear (y : Int) : Int := 365 * (y - 1970) + leaps (y - 1) - leaps 1969

/-- The days of month `m` of year `y` of the Gregorian calendar; months count from zero. -/
def monthDays (y : Int) (m : Nat) : Nat :=
  if m = 1 then if 4 ∣ y ∧ ¬ 100 ∣ y ∨ 400 ∣ y then 29 else 28
  else if m ∈ [3, 5, 8, 10] then 30 else 31

/-- The days from 1970 to day `d` of month `m` of year `y`. -/
def dayNumber (y : Int) (m : Nat) (d : Int) : Int :=
  newYear y + (∑ i ∈ Finset.range m, monthDays y i : Nat) + (d - 1)

/-- The year that the fields denote. -/
def Tm.denotedYear (tm : Tm) : Int := tm.year.toInt + 1900 + tm.mon.toInt / 12

/-- The second that the fields denote. -/
def Tm.second (tm : Tm) : Int :=
  dayNumber tm.denotedYear (tm.mon.toInt % 12).toNat tm.mday.toInt * 86400 +
    (tm.hour.toInt * 3600 + tm.min.toInt * 60 + tm.sec.toInt)

/-- The structure is the date of second `t`, a Thursday if that is on the first day. -/
structure IsDate (t : Nat) (tm : Tm) : Prop where
  sec : 0 ≤ tm.sec.toInt ∧ tm.sec.toInt < 60
  min : 0 ≤ tm.min.toInt ∧ tm.min.toInt < 60
  hour : 0 ≤ tm.hour.toInt ∧ tm.hour.toInt < 24
  mon : 0 ≤ tm.mon.toInt ∧ tm.mon.toInt < 12
  mday : 1 ≤ tm.mday.toInt ∧ tm.mday.toInt ≤ monthDays (tm.year.toInt + 1900) tm.mon.toNat
  second : tm.second = t
  wday : tm.wday.toInt = (t / 86400 + 4) % 7
  yday : tm.yday.toInt = t / 86400 - newYear (tm.year.toInt + 1900)
  isdst : tm.isdst = 0

/-- The table of the code has the months of the calendar. -/
theorem monthLen_eq {m : Nat} (y : Int) (hm : m < 12) : monthLen y m = monthDays y m := by
  have hleap : leap y = true ↔ 4 ∣ y ∧ ¬ 100 ∣ y ∨ 400 ∣ y := by
    simp only [leap, Bool.or_eq_true, Bool.and_eq_true, decide_eq_true_eq]
    omega
  by_cases hl : leap y = true
  · have hl' := hleap.1 hl
    interval_cases m <;> simp [monthLen, monthDays, mdays, hl, hl']
  · have hl' := mt hleap.2 hl
    interval_cases m <;> simp [monthLen, monthDays, mdays, hl, hl']

theorem dayNumber_eq {m : Nat} (y d : Int) (hm : m ≤ 12) :
    dayNumber y m d = newYear y + (∑ i ∈ Finset.range m, monthLen y i : Nat) + (d - 1) := by
  rw [dayNumber, Finset.sum_congr rfl fun i hi => monthLen_eq y (by
    have := Finset.mem_range.1 hi
    omega)]

theorem newYear_succ (y : Int) : newYear (y + 1) = newYear y + yearLen y := by
  simp only [newYear, leaps, yearLen, leap, Bool.or_eq_true, Bool.and_eq_true, decide_eq_true_eq]
  split <;> omega

theorem le_newYear {y : Int} (h : 1970 ≤ y) : 365 * (y - 1970) ≤ newYear y := by
  simp only [newYear, leaps]
  omega

theorem sum_monthLen (y : Int) : ∑ i ∈ Finset.range 12, monthLen y i = yearLen y := by
  unfold yearLen
  cases h : leap y <;> simp [Finset.sum_range_succ, monthLen, mdays, h]

theorem newYear_add (n : Nat) :
    newYear (1970 + n) = (∑ i ∈ Finset.range n, yearLen (1970 + i) : Nat) := by
  induction n with
  | zero => rfl
  | succ n ih =>
    have hstep := newYear_succ (1970 + n)
    rw [Finset.sum_range_succ]
    push_cast [← add_assoc] at ih ⊢
    omega

/-! ## Seconds to dates -/

theorem yearLoop_spec (y : Int) (days : Nat) :
    newYear y + days = newYear (yearLoop y days).1 + (yearLoop y days).2 ∧
      (yearLoop y days).2 < yearLen (yearLoop y days).1 ∧ y ≤ (yearLoop y days).1 := by
  fun_induction yearLoop y days with
  | case1 y days h ih =>
    have := newYear_succ y
    omega
  | case2 y days h => exact ⟨rfl, Nat.lt_of_not_le h, le_rfl⟩

theorem monthLoop_spec (y : Int) {k m days : Nat} (hk : m + k = 12)
    (h : ∑ i ∈ Finset.range m, monthLen y i + days < yearLen y) :
    ∑ i ∈ Finset.range m, monthLen y i + days =
        ∑ i ∈ Finset.range (monthLoop y k m days).1, monthLen y i + (monthLoop y k m days).2 ∧
      (monthLoop y k m days).1 < 12 ∧
      (monthLoop y k m days).2 < monthLen y (monthLoop y k m days).1 := by
  induction k generalizing m days with
  | zero =>
    rw [← sum_monthLen, show m = 12 by omega] at h
    omega
  | succ k ih =>
    rw [monthLoop]
    split
    · next hd => exact ⟨rfl, by omega, hd⟩
    · have hsum := Finset.sum_range_succ (monthLen y) m
      obtain ⟨h1, h2⟩ := @ih (m + 1) (days - monthLen y m) (by omega) (by omega)
      exact ⟨by omega, h2⟩

theorem toInt_ofNat_small {n : Nat} (h : n < 2 ^ 31) : (BitVec.ofNat 32 n).toInt = n := by
  have hn : (BitVec.ofNat 32 n).toNat = n := Nat.mod_eq_of_lt (by omega)
  rw [toInt_eq_toNat_of_lt (by omega), hn]

theorem toInt_ofInt_small {n : Int} (h : -2 ^ 31 ≤ n) (h' : n < 2 ^ 31) :
    (BitVec.ofInt 32 n).toInt = n := toInt_ofInt_eq_self (by decide) h h'

theorem gmtimeR_isDate (t : Word) :
    IsDate t.toNat (gmtimeR t) ∧ 1970 ≤ (gmtimeR t).denotedYear := by
  obtain ⟨hsum, hlt, hle⟩ := yearLoop_spec 1970 (t.toNat / 86400)
  obtain ⟨y, hy⟩ : ∃ y, yearLoop 1970 (t.toNat / 86400) = y := ⟨_, rfl⟩
  rw [hy] at hsum hlt hle
  obtain ⟨hdays, hm, hd⟩ := monthLoop_spec y.1 (k := 12) (m := 0) rfl
    (by simpa using hlt)
  obtain ⟨m, hmd⟩ : ∃ m, monthLoop y.1 12 0 y.2 = m := ⟨_, rfl⟩
  rw [hmd] at hdays hm hd
  rw [Finset.sum_range_zero, zero_add] at hdays
  have ht := t.isLt
  have hyear := le_newYear hle
  have hlen := yearLen_bounds y.1
  have hzero : newYear 1970 = 0 := rfl
  have hmon : (BitVec.ofNat 32 m.1).toInt = m.1 := toInt_ofNat_small (by omega)
  have hmday : (BitVec.ofNat 32 (m.2 + 1)).toInt = m.2 + 1 := toInt_ofNat_small (by omega)
  have hy' : (BitVec.ofInt 32 (y.1 - 1900)).toInt = y.1 - 1900 :=
    toInt_ofInt_small (by omega) (by omega)
  have hsec := toInt_ofNat_small (n := t.toNat % 86400 % 60) (by omega)
  have hmin := toInt_ofNat_small (n := t.toNat % 86400 / 60 % 60) (by omega)
  have hhour := toInt_ofNat_small (n := t.toNat % 86400 / 3600) (by omega)
  have hden : (gmtimeR t).denotedYear = y.1 := by
    simp only [gmtimeR, Tm.denotedYear, hy, hmd, hmon, hy']
    omega
  refine ⟨⟨?_, ?_, ?_, ?_, ?_, ?_, ?_, ?_, rfl⟩, hden ▸ hle⟩
  · simp only [gmtimeR, hsec]
    omega
  · simp only [gmtimeR, hmin]
    omega
  · simp only [gmtimeR, hhour]
    omega
  · simp only [gmtimeR, hy, hmd, hmon]
    omega
  · have : (BitVec.ofNat 32 m.1).toNat = m.1 := Nat.mod_eq_of_lt (by omega)
    simp only [gmtimeR, hy, hmd, hmday, hy', this, Int.sub_add_cancel, ← monthLen_eq y.1 hm]
    omega
  · rw [Tm.second, hden]
    simp only [gmtimeR, hy, hmd, hmday, hmon, hsec, hmin, hhour]
    rw [show ((m.1 : Int) % 12).toNat = m.1 by omega, dayNumber_eq _ _ hm.le]
    omega
  · simp only [gmtimeR]
    rw [toInt_ofNat_small (by omega)]
    omega
  · simp only [gmtimeR, hy, hy', Int.sub_add_cancel]
    rw [toInt_ofNat_small (by omega)]
    omega

/-! ## Dates to seconds -/

theorem carry_sum (k : Word) (n : Nat) (a b : Word) :
    (carry k n a b).1 + k * (carry k n a b).2 = a + k * b := by
  induction n generalizing a b with
  | zero => rfl
  | succ n ih =>
    rw [carry]
    split
    · rw [ih]
      ring
    · rfl

theorem addDays_eq (len : Nat → Nat) (n : Nat) (days : Word) :
    addDays len n days = days + .ofNat 32 (∑ i ∈ Finset.range n, len i) := by
  induction n with
  | zero => simp [addDays]
  | succ n ih =>
    unfold addDays at *
    rw [List.range_succ, List.foldl_append, ih, Finset.sum_range_succ, BitVec.ofNat_add]
    simp [BitVec.add_assoc]

/-- A month that is not negative is carried into the year. -/
theorem carry_month {n : Nat} {a : Word} (b : Word) (ha : a.toNat < 2 ^ 31) (hn : a.toNat ≤ n) :
    carry 12 n a b = (.ofNat 32 (a.toNat % 12), b + .ofNat 32 (a.toNat / 12)) := by
  induction n generalizing a b with
  | zero =>
    obtain rfl : a = 0 := by bv_omega
    simp [carry]
  | succ n ih =>
    have hsle : (12 : Word).sle a = true ↔ 12 ≤ a.toNat := by
      rw [sle_iff_toInt_le, toInt_eq_toNat_of_lt (x := a) (by omega)]
      exact Int.ofNat_le (m := 12)
    rw [carry]
    by_cases h : 12 ≤ a.toNat
    · have hsub : (a - 12).toNat = a.toNat - 12 := by bv_omega
      have hdiv : a.toNat / 12 = (a.toNat - 12) / 12 + 1 := by omega
      rw [if_pos (hsle.2 h), ih _ (by omega) (by omega), hsub, hdiv, BitVec.ofNat_add,
        show a.toNat % 12 = (a.toNat - 12) % 12 by omega]
      refine Prod.ext rfl ?_
      rw [BitVec.add_assoc, BitVec.add_comm 1]
      rfl
    · rw [if_neg (mt hsle.1 h), Nat.mod_eq_of_lt (by omega), Nat.div_eq_of_lt (by omega)]
      simp

/-- **`mktime` returns the second that the fields denote.** -/
theorem mktime_second {tm : Tm} (hmon : 0 ≤ tm.mon.toInt) (hyear : 1970 ≤ tm.denotedYear)
    (hlt : tm.second < 2 ^ 32) : (mktime tm).1 = .ofInt 32 tm.second := by
  have hm := toInt_eq_toNat_of_lt (x := tm.mon) (by
    rw [toInt_eq_toNat_cond] at hmon
    split at hmon <;> omega)
  have hlow : ∀ w : Word, -2 ^ 31 ≤ w.toInt := fun w => le_toInt w
  have := hlow tm.sec
  have := hlow tm.min
  have := hlow tm.hour
  have := hlow tm.mday
  have := hlow tm.year
  have hge := le_newYear hyear
  have hm31 : tm.mon.toNat < 2 ^ 31 := by
    have := toInt_lt (x := tm.mon)
    omega
  -- the year of the code is the one that is denoted, since that one is not too large
  have hy : (tm.year + .ofNat 32 (tm.mon.toNat / 12) + 1900).toInt = tm.denotedYear := by
    have hden : tm.denotedYear = tm.year.toInt + 1900 + tm.mon.toNat / 12 := by
      rw [Tm.denotedYear, hm]
    rw [Tm.second, dayNumber_eq _ _ (by omega)] at hlt
    rw [← ofInt_toInt (x := tm.year), ← ofInt_natCast, ← ofInt_add]
    change (BitVec.ofInt 32 _ + BitVec.ofInt 32 1900).toInt = _
    rw [← ofInt_add, toInt_ofInt_small] <;> push_cast <;> omega
  have hn : ∃ n : Nat, tm.denotedYear = 1970 + n := ⟨(tm.denotedYear - 1970).toNat, by omega⟩
  obtain ⟨n, hn⟩ := hn
  have hmod : (BitVec.ofNat 32 (tm.mon.toNat % 12)).toInt.toNat = (tm.mon.toInt % 12).toNat := by
    rw [toInt_ofNat_small (by omega)]
    omega
  have hsecond : BitVec.ofInt 32 tm.second =
      (.ofNat 32 (∑ i ∈ Finset.range n, yearLen (1970 + i)) +
        .ofNat 32 (∑ i ∈ Finset.range (tm.mon.toInt % 12).toNat, monthLen tm.denotedYear i) +
        (tm.mday - 1)) * 86400 + (tm.hour * 3600 + tm.min * 60 + tm.sec) := by
    rw [Tm.second, dayNumber_eq _ _ (by omega)]
    nth_rw 1 [hn]
    rw [newYear_add]
    simp only [Int.sub_eq_add_neg, ofInt_add, ofInt_mul, ofInt_toInt, ofInt_natCast, ofInt_neg,
      ofInt_ofNat, BitVec.sub_eq_add_neg, ofNat_eq_ofNat]
  have hmonth := carry_month tm.year hm31 le_rfl
  have h1 := carry_sum 60 tm.sec.toNat tm.sec tm.min
  obtain ⟨⟨sec, min⟩, hc1⟩ : ∃ c, carry 60 tm.sec.toNat tm.sec tm.min = c := ⟨_, rfl⟩
  have h2 := carry_sum 60 min.toNat min tm.hour
  obtain ⟨⟨min', hour⟩, hc2⟩ : ∃ c, carry 60 min.toNat min tm.hour = c := ⟨_, rfl⟩
  have h3 := carry_sum 24 hour.toNat hour tm.mday
  obtain ⟨⟨hour', mday⟩, hc3⟩ : ∃ c, carry 24 hour.toNat hour tm.mday = c := ⟨_, rfl⟩
  rw [hc1] at h1
  rw [hc2] at h2
  rw [hc3] at h3
  simp only [mktime, hc1, hc2, hc3, hmonth, addDays_eq, hy, hmod, hsecond]
  rw [hn, show (1970 + (n : Int) - 1970).toNat = n by omega]
  linear_combination h1 + 60 * h2 + 3600 * h3

/-- **The calendar.**  `gmtime_r` gives the date of every second of 32 bits, from which `mktime`
finds the second again; and a structure whose fields denote such a second, with a month that is not
negative and a year from 1970 on, is turned into that second and its date. -/
theorem calendar_exact (t : Word) (tm : Tm) :
    (IsDate t.toNat (gmtimeR t) ∧ mktime (gmtimeR t) = (t, gmtimeR t)) ∧
    (0 ≤ tm.second → tm.second < 2 ^ 32 → 0 ≤ tm.mon.toInt → 1970 ≤ tm.denotedYear →
      ((mktime tm).1.toNat : Int) = tm.second ∧ (mktime tm).2 = gmtimeR (mktime tm).1) := by
  refine ⟨?_, fun h0 hlt hmon hyear => ⟨?_, rfl⟩⟩
  · obtain ⟨hdate, hyear⟩ := gmtimeR_isDate t
    have hs := hdate.second
    have ht := mktime_second hdate.mon.1 hyear (by have := t.isLt; omega)
    rw [hs, ofInt_natCast, ofNat_toNat, setWidth_eq] at ht
    exact ⟨hdate, Prod.ext ht (congrArg gmtimeR ht)⟩
  · rw [mktime_second hmon hyear hlt, toNat_ofInt]
    omega

/-- The 29th of February 2000, and the zeroth of March. -/
theorem calendar_exact_leap : let tm : Tm := ⟨0, 0, 0, 0, 2, 100, 0, 0, 0⟩
    tm.second = 951782400 ∧ ((mktime tm).1.toNat : Int) = tm.second := by
  intro tm
  have h : tm.second = 951782400 := by decide +kernel
  exact ⟨h, ((calendar_exact 0 tm).2 (by rw [h]; decide) (by rw [h]; decide) (by decide)
    (by decide)).1⟩

/-- The month before January 1971 is December 1970, but `mktime` takes it for January 1971. -/
theorem month_not_carried : let tm : Tm := ⟨0, 0, 0, 1, -1, 71, 0, 0, 0⟩
    tm.second = 28857600 ∧ (mktime tm).1 = 31536000 := by
  decide +kernel

end Tortoise.Time
