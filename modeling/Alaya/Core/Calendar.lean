import Alaya.Lib.Digits
import Alaya.Lib.Gregorian
import Alaya.Lib.Lines
import Mathlib.Data.List.Basic

/-!
# Civil dates

The UTC date of a time in epoch seconds.  The day is counted from a March, so that a leap day is the last of its
year: 400 years are 146097 days, and what is left is divided into years and into months of 153 days for every five.
-/

namespace Alaya

/-- Year, month and day in UTC of a time in epoch seconds. -/
def utcDate (epochSecs : ℕ) : ℤ × ℕ × ℕ :=
  let days := epochSecs / 86400
  let z := days + 719468
  let era := z / 146097
  let doe := z - era * 146097
  let yoe := (doe - doe / 1460 + doe / 36524 - doe / 146096) / 365
  let y := yoe + era * 400
  let doy := doe - (365 * yoe + yoe / 4 - yoe / 100)
  let mp := (5 * doy + 2) / 153
  let d := doy - (153 * mp + 2) / 5 + 1
  let m := if mp < 10 then mp + 3 else mp - 9
  let y := if m ≤ 2 then y + 1 else y
  ((y : ℤ).bmod (2 ^ 32), m, d)

/-- An integer in at least `width` columns, filled with zeros after its sign. -/
def zeroPadded (width : ℕ) (n : ℤ) : String :=
  let sign := if n < 0 then "-" else ""
  sign ++ String.ofList ((Nat.repr n.natAbs).toList.leftpad (width - sign.length) '0')

/-- `YYYY-MM-DD` in UTC. -/
def utcDateStr (epochSecs : ℕ) : String :=
  let (y, m, d) := utcDate epochSecs
  zeroPadded 4 y ++ "-" ++ zeroPadded 2 m ++ "-" ++ zeroPadded 2 d

/-! ### The steps in their machine types -/

/-- A value of an `i64` step, which panics on an overflow. -/
def i64 (x : ℤ) : Option ℤ := if -2 ^ 63 ≤ x ∧ x < 2 ^ 63 then some x else none

/-- A value of a `u32` step, which panics on an overflow and below zero. -/
def u32 (x : ℤ) : Option ℤ := if 0 ≤ x ∧ x < 2 ^ 32 then some x else none

/-- `utcDate`, with the type of every step. -/
def utcDateChecked (epochSecs : UInt64) : Option (ℤ × ℕ × ℕ) := do
  let days ← i64 (epochSecs / 86400).toNat
  let z ← i64 (days + 719468)
  let era := z / 146097
  let doe ← (i64 (era * 146097)).bind fun start => (i64 (z - start)).bind u32
  let leaps ← u32 (doe - doe / 1460)
  let centuries ← u32 (leaps + doe / 36524)
  let eras ← u32 (centuries - doe / 146096)
  let yoe := eras / 365
  let y ← (i64 (era * 400)).bind fun start => i64 (yoe + start)
  let common ← u32 (365 * yoe)
  let withLeaps ← u32 (common + yoe / 4)
  let yearStart ← u32 (withLeaps - yoe / 100)
  let doy ← u32 (doe - yearStart)
  let mp ← (u32 (5 * doy)).bind fun fifths => (u32 (fifths + 2)).map (· / 153)
  let monthStart ← (u32 (153 * mp)).bind fun fifths => (u32 (fifths + 2)).map (· / 5)
  let d ← (u32 (doy - monthStart)).bind fun day => u32 (day + 1)
  let m ← u32 (if mp < 10 then mp + 3 else mp - 9)
  let y ← i64 (if m ≤ 2 then y + 1 else y)
  return (y.bmod (2 ^ 32), m.toNat, d.toNat)

/-! ### Years from March -/

/-- The days of a 400-year cycle before its year `yoe`. -/
def yearStart (yoe : ℕ) : ℕ := 365 * yoe + yoe / 4 - yoe / 100

def yearOfEra (doe : ℕ) : ℕ := (doe - doe / 1460 + doe / 36524 - doe / 146096) / 365

/-- A day of a 400-year cycle: of a century, a block of four years in it, and a day of the block.  Only the last
block of the last century ends with a leap day, if its years are a century's. -/
theorem exists_block {doe : ℕ} (h : doe < 146097) : ∃ c b s, doe = 36524 * c + 1461 * b + s ∧
    c ≤ 3 ∧ b ≤ 24 ∧ s ≤ 1460 ∧ (b = 24 → s = 1460 → c = 3) := by
  by_cases hlast : doe = 146096
  · exact ⟨3, 24, 1460, hlast, le_refl 3, le_refl 24, le_refl 1460, fun _ _ => rfl⟩
  · refine ⟨doe / 36524, doe % 36524 / 1461, doe % 36524 % 1461, ?_, ?_, ?_, ?_, ?_⟩
    all_goals omega

/-- The year of a block, from which the days that fell out before it are `short`. -/
theorem year_of_block {c b s short : ℕ} (hc : c ≤ 3) (hb : b ≤ 24) (hs : s ≤ 1460)
    (hshort : short = (24 * c + b + s) / 1460) :
    (s - short) / 365 ≤ 3 ∧ 365 * ((s - short) / 365) ≤ s ∧ s ≤ 365 * ((s - short) / 365) + 365 ∧
      (s = 365 * ((s - short) / 365) + 365 → (s - short) / 365 = 3) := by
  rcases Nat.lt_or_ge (24 * c + b + s) 1460 with hlt | hge
  · have hzero : short = 0 := by omega
    subst hzero
    omega
  · have hone : short = 1 := by omega
    subst hone
    omega

theorem yearOfEra_block {c b s : ℕ} (hc : c ≤ 3) (hb : b ≤ 24) (hs : s ≤ 1460) (hlast : b = 24 → s = 1460 → c = 3) :
    yearOfEra (36524 * c + 1461 * b + s) = 100 * c + 4 * b + (s - (24 * c + b + s) / 1460) / 365 := by
  obtain ⟨short, hshort⟩ : ∃ short, short = (24 * c + b + s) / 1460 := ⟨_, rfl⟩
  have hfours : (36524 * c + 1461 * b + s) / 1460 = 25 * c + b + short := by omega
  have hcenturies : (36524 * c + 1461 * b + s) / 36524 = c + (36524 * c + 1461 * b + s) / 146096 := by
    interval_cases c
    all_goals omega
  have hle : short ≤ s := by omega
  have hdays : 36524 * c + 1461 * b + s - (25 * c + b + short) + (c + (36524 * c + 1461 * b + s) / 146096) -
      (36524 * c + 1461 * b + s) / 146096 = 365 * (100 * c + 4 * b) + (s - short) := by
    clear hshort hfours hcenturies
    omega
  unfold yearOfEra
  rw [hfours, hcenturies, hdays, Nat.mul_add_div (by decide), ← hshort]

/-- The year of a cycle its day is in. -/
theorem yearOfEra_spec {doe : ℕ} (h : doe < 146097) :
    yearOfEra doe < 400 ∧ yearStart (yearOfEra doe) ≤ doe ∧ doe ≤ yearStart (yearOfEra doe) + 365 ∧
      (doe = yearStart (yearOfEra doe) + 365 → (yearOfEra doe + 1) % 4 = 0 ∧
        ((yearOfEra doe + 1) % 100 ≠ 0 ∨ yearOfEra doe = 399)) := by
  obtain ⟨c, b, s, rfl, hc, hb, hs, hlast⟩ := exists_block h
  have hyear := yearOfEra_block hc hb hs hlast
  obtain ⟨ht, hlow, hhigh, hleap⟩ := year_of_block (b := b) hc hb hs rfl
  obtain ⟨t, hdef⟩ : ∃ t, t = (s - (24 * c + b + s) / 1460) / 365 := ⟨_, rfl⟩
  rw [← hdef] at hyear ht hlow hhigh hleap
  have hstart : yearStart (100 * c + 4 * b + t) = 36524 * c + 1461 * b + 365 * t := by
    have hfours : (100 * c + 4 * b + t) / 4 = 25 * c + b := by omega
    have hcenturies : (100 * c + 4 * b + t) / 100 = c := by omega
    unfold yearStart
    rw [hfours, hcenturies]
    omega
  rw [hyear, hstart]
  refine ⟨by omega, by omega, by omega, fun hend => ⟨by omega, ?_⟩⟩
  by_cases hcentury : b = 24
  · have := hlast hcentury (by omega)
    right
    omega
  · left
    omega

/-! ### The day after a day -/

/-- The year from March of a day since the first of March of year 0. -/
def marchYear (z : ℕ) : ℕ := yearOfEra (z - z / 146097 * 146097) + z / 146097 * 400

/-- The day of that year, from 0. -/
def marchDay (z : ℕ) : ℕ := z - z / 146097 * 146097 - yearStart (yearOfEra (z - z / 146097 * 146097))

/-- The days of the years from March before the year `y`. -/
def daysBefore (y : ℕ) : ℕ := 365 * y + y / 4 - y / 100 + y / 400

theorem isLeap_iff (y : ℕ) : Gregorian.IsLeap y ↔ 4 ∣ y ∧ (¬100 ∣ y ∨ 400 ∣ y) := by
  unfold Gregorian.IsLeap
  norm_cast

theorem daysBefore_succ (y : ℕ) :
    daysBefore (y + 1) = daysBefore y + if Gregorian.IsLeap (y + 1 : ℕ) then 366 else 365 := by
  have hcentury : y / 100 ≤ 365 * y + y / 4 := by omega
  have hfour : 400 ∣ y + 1 → 100 ∣ y + 1 := Dvd.dvd.trans (by decide)
  have hhundred : 100 ∣ y + 1 → 4 ∣ y + 1 := Dvd.dvd.trans (by decide)
  unfold daysBefore
  rw [if_congr (isLeap_iff _) rfl rfl, Nat.succ_div (b := 4), Nat.succ_div (b := 100), Nat.succ_div (b := 400)]
  by_cases h4 : 4 ∣ y + 1
  · by_cases h100 : 100 ∣ y + 1
    · by_cases h400 : 400 ∣ y + 1
      · rw [if_pos h4, if_pos h100, if_pos h400, if_pos ⟨h4, .inr h400⟩]
        omega
      · rw [if_pos h4, if_pos h100, if_neg h400, if_neg (by tauto)]
        omega
    · rw [if_pos h4, if_neg h100, if_neg (fun h => h100 (hfour h)), if_pos ⟨h4, .inl h100⟩]
      omega
  · have h100 : ¬100 ∣ y + 1 := fun h => h4 (hhundred h)
    rw [if_neg h4, if_neg h100, if_neg (fun h => h100 (hfour h)), if_neg (fun h => h4 h.1)]
    omega

theorem marchYear_spec (z : ℕ) : daysBefore (marchYear z) + marchDay z = z ∧ z < daysBefore (marchYear z + 1) := by
  obtain ⟨era, hera⟩ : ∃ era, era = z / 146097 := ⟨_, rfl⟩
  obtain ⟨hlt, hlow, hhigh, hleap⟩ := yearOfEra_spec (show z - era * 146097 < 146097 by omega)
  rw [daysBefore_succ]
  unfold marchYear marchDay
  rw [← hera]
  obtain ⟨yoe, hyoe⟩ : ∃ yoe, yoe = yearOfEra (z - era * 146097) := ⟨_, rfl⟩
  rw [← hyoe] at hlt hlow hhigh hleap ⊢
  have hstart : daysBefore (yoe + era * 400) = yearStart yoe + era * 146097 := by
    unfold daysBefore yearStart
    omega
  rw [hstart]
  refine ⟨by omega, ?_⟩
  split
  · omega
  · next hcommon =>
    have hshort : z - era * 146097 ≠ yearStart yoe + 365 := by
      intro hend
      obtain ⟨hfour, hcentury⟩ := hleap hend
      apply hcommon
      refine ⟨by omega, ?_⟩
      rcases hcentury with hcentury | hcentury
      · left
        omega
      · right
        omega
    omega

theorem daysBefore_le {y y' : ℕ} (h : y ≤ y') : daysBefore y ≤ daysBefore y' := by
  induction h with
  | refl => exact le_refl _
  | step _ ih =>
    rw [daysBefore_succ]
    split <;> omega

/-- A day is in one year only. -/
theorem marchYear_unique {z y day : ℕ} (h : daysBefore y + day = z) (hlt : z < daysBefore (y + 1)) :
    marchYear z = y ∧ marchDay z = day := by
  obtain ⟨hz, hend⟩ := marchYear_spec z
  have hyear : marchYear z = y := by
    rcases lt_trichotomy (marchYear z) y with hbefore | heq | hafter
    · have := daysBefore_le (show marchYear z + 1 ≤ y from hbefore)
      omega
    · exact heq
    · have := daysBefore_le (show y + 1 ≤ marchYear z from hafter)
      omega
  rw [hyear] at hz
  exact ⟨hyear, by omega⟩

/-! ### Months from March -/

def monthOf (day : ℕ) : ℕ := (5 * day + 2) / 153

/-- The days of a year from March before its month `mp`. -/
def monthStart (mp : ℕ) : ℕ := (153 * mp + 2) / 5

/-- The number of a month in its civil year. -/
def civilMonth (mp : ℕ) : ℕ := if mp < 10 then mp + 3 else mp - 9

theorem monthOf_spec {day : ℕ} (h : day ≤ 365) :
    monthOf day ≤ 11 ∧ monthStart (monthOf day) ≤ day ∧ day < monthStart (monthOf day + 1) := by
  unfold monthOf monthStart
  exact ⟨by omega, by omega, by omega⟩

/-- A month from March is known by a day of it. -/
theorem monthOf_unique {mp day : ℕ} (h : monthStart mp ≤ day) (h' : day < monthStart (mp + 1)) : monthOf day = mp := by
  unfold monthStart at h h'
  unfold monthOf
  omega

/-- Every month but February is as long as the next one's start says. -/
theorem monthLength_civilMonth (year : ℤ) {mp : ℕ} (h : mp < 11) :
    Gregorian.monthLength year (civilMonth mp) = monthStart (mp + 1) - monthStart mp := by
  interval_cases mp <;> rfl

theorem marchDay_le (z : ℕ) :
    marchDay z ≤ 364 ∨ marchDay z = 365 ∧ Gregorian.IsLeap (marchYear z + 1 : ℕ) := by
  obtain ⟨hz, hend⟩ := marchYear_spec z
  rw [daysBefore_succ] at hend
  split at hend
  · next hleap =>
    by_cases hlast : marchDay z = 365
    · exact .inr ⟨hlast, hleap⟩
    · left
      omega
  · left
    omega

/-! ### The date of a day -/

/-- The month from March of a day. -/
def marchMonth (z : ℕ) : ℕ := monthOf (marchDay z)

def civilYear (z : ℕ) : ℕ := if civilMonth (marchMonth z) ≤ 2 then marchYear z + 1 else marchYear z

theorem marchMonth_spec (z : ℕ) : marchMonth z ≤ 11 ∧ monthStart (marchMonth z) ≤ marchDay z ∧
    marchDay z < monthStart (marchMonth z + 1) := by
  apply monthOf_spec
  rcases marchDay_le z with h | ⟨h, -⟩
  · omega
  · omega

theorem civilMonth_le {mp : ℕ} (h : mp ≤ 11) : 1 ≤ civilMonth mp ∧ civilMonth mp ≤ 12 := by
  unfold civilMonth
  split <;> omega

theorem day_le_monthLength (z : ℕ) :
    marchDay z - monthStart (marchMonth z) + 1 ≤ Gregorian.monthLength (civilYear z) (civilMonth (marchMonth z)) := by
  obtain ⟨hmonth, hlow, hhigh⟩ := marchMonth_spec z
  by_cases hfeb : marchMonth z = 11
  · have hyear : civilYear z = marchYear z + 1 := by
      unfold civilYear
      rw [hfeb]
      rfl
    have hstart : monthStart 11 = 337 := rfl
    have hnumber : civilMonth 11 = 2 := rfl
    rw [hyear, hfeb, hstart, hnumber, Gregorian.monthLength_february]
    rcases marchDay_le z with hday | ⟨hday, hleap⟩
    · split <;> omega
    · rw [hday, if_pos hleap]
  · rw [monthLength_civilMonth _ (by omega)]
    omega

/-- The date `z` days after the first of March of year 0. -/
def civilDate (z : ℕ) : Gregorian.Date where
  year := civilYear z
  month := civilMonth (marchMonth z)
  day := marchDay z - monthStart (marchMonth z) + 1
  one_le_month := (civilMonth_le (marchMonth_spec z).1).1
  month_le := (civilMonth_le (marchMonth_spec z).1).2
  one_le_day := Nat.le_add_left ..
  day_le := day_le_monthLength z

/-- The last day of a year from March is the last of a February. -/
theorem civilDate_newYear {z : ℕ} (h : daysBefore (marchYear z + 1) = z + 1) : civilDate (z + 1) = (civilDate z).next := by
  have hlength : marchDay z + 1 = if Gregorian.IsLeap (marchYear z + 1 : ℕ) then 366 else 365 := by
    have hz := (marchYear_spec z).1
    rw [daysBefore_succ] at h
    omega
  have hmonth : marchMonth z = 11 := by
    apply monthOf_unique
    · show 337 ≤ marchDay z
      split at hlength <;> omega
    · show marchDay z < 367
      split at hlength <;> omega
  have hnext : z + 1 < daysBefore (marchYear z + 1 + 1) := by
    rw [daysBefore_succ, h]
    split <;> omega
  obtain ⟨hyear', hday'⟩ := marchYear_unique ((Nat.add_zero _).trans h) hnext
  have hmonth' : marchMonth (z + 1) = 0 := by
    unfold marchMonth
    rw [hday']
    rfl
  have hcivil : civilYear z = marchYear z + 1 := by
    unfold civilYear
    rw [hmonth]
    exact if_pos (by decide)
  have hcivil' : civilYear (z + 1) = marchYear z + 1 := by
    unfold civilYear
    rw [hmonth', hyear']
    exact if_neg (by decide)
  have hfeb : (civilDate z).month = 2 := congrArg civilMonth hmonth
  apply Gregorian.Date.eq_next_of_month
  · show Gregorian.monthLength (civilYear z) (civilMonth (marchMonth z)) ≤ marchDay z - monthStart (marchMonth z) + 1
    have hstart : monthStart 11 = 337 := rfl
    have hnumber : civilMonth 11 = 2 := rfl
    rw [hmonth, hcivil, hstart, hnumber, Gregorian.monthLength_february]
    split at hlength
    · next hleap =>
      rw [if_pos hleap]
      omega
    · next hcommon =>
      rw [if_neg hcommon]
      omega
  · rw [hfeb]
    decide
  · exact congrArg Nat.cast (hcivil'.trans hcivil.symm)
  · rw [hfeb]
    exact congrArg civilMonth hmonth'
  · show marchDay (z + 1) - monthStart (marchMonth (z + 1)) + 1 = 1
    rw [hday', Nat.zero_sub]

theorem civilDate_sameMonth {z : ℕ} (hyear : marchYear (z + 1) = marchYear z) (hday : marchDay (z + 1) = marchDay z + 1)
    (hmonth : marchMonth (z + 1) = marchMonth z) : civilDate (z + 1) = (civilDate z).next := by
  have hcivil : civilYear (z + 1) = civilYear z := by
    unfold civilYear
    rw [hmonth, hyear]
  have hlow := (marchMonth_spec z).2.1
  have hend := day_le_monthLength (z + 1)
  rw [hmonth, hcivil, hday] at hend
  apply Gregorian.Date.eq_next_of_day
  · show marchDay z - monthStart (marchMonth z) + 1 < Gregorian.monthLength (civilYear z) (civilMonth (marchMonth z))
    omega
  · exact congrArg Nat.cast hcivil
  · exact congrArg civilMonth hmonth
  · show marchDay (z + 1) - monthStart (marchMonth (z + 1)) + 1 = marchDay z - monthStart (marchMonth z) + 1 + 1
    rw [hday, hmonth]
    omega

/-- The civil year changes with the tenth month from March. -/
theorem civilMonth_succ {mp : ℕ} (h : mp < 11) :
    (civilMonth mp = 12 ∧ civilMonth (mp + 1) = 1) ∨
      (civilMonth mp < 12 ∧ civilMonth (mp + 1) = civilMonth mp + 1 ∧ (civilMonth (mp + 1) ≤ 2 ↔ civilMonth mp ≤ 2)) := by
  interval_cases mp <;> decide

theorem civilDate_nextMonth {z : ℕ} (hyear : marchYear (z + 1) = marchYear z) (hday : marchDay (z + 1) = marchDay z + 1)
    (hlt : marchMonth z < 11) (hmonth : marchMonth (z + 1) = marchMonth z + 1)
    (hfirst : monthStart (marchMonth z + 1) = marchDay z + 1) : civilDate (z + 1) = (civilDate z).next := by
  have hlow := (marchMonth_spec z).2.1
  have hlast : Gregorian.monthLength (civilDate z).year (civilDate z).month ≤ (civilDate z).day := by
    show Gregorian.monthLength (civilYear z) (civilMonth (marchMonth z)) ≤ marchDay z - monthStart (marchMonth z) + 1
    rw [monthLength_civilMonth _ hlt]
    omega
  have hone : (civilDate (z + 1)).day = 1 := by
    show marchDay (z + 1) - monthStart (marchMonth (z + 1)) + 1 = 1
    rw [hday, hmonth, hfirst, Nat.sub_self]
  have hcivil : civilYear (z + 1) = if civilMonth (marchMonth z + 1) ≤ 2 then marchYear z + 1 else marchYear z := by
    unfold civilYear
    rw [hmonth, hyear]
  rcases civilMonth_succ hlt with ⟨hdecember, hjanuary⟩ | ⟨hmiddle, hsucc, hsame⟩
  · apply Gregorian.Date.eq_next_of_year hlast hdecember
    · show (civilYear (z + 1) : ℤ) = civilYear z + 1
      rw [hcivil, hjanuary]
      unfold civilYear
      rw [hdecember]
      rfl
    · exact (congrArg civilMonth hmonth).trans hjanuary
    · exact hone
  · apply Gregorian.Date.eq_next_of_month hlast hmiddle
    · show (civilYear (z + 1) : ℤ) = civilYear z
      rw [hcivil, if_congr hsame rfl rfl]
      rfl
    · exact (congrArg civilMonth hmonth).trans hsucc
    · exact hone

/-- Within a year from March the day goes on, and at the end of a month so does the month. -/
theorem civilDate_sameYear {z : ℕ} (h : z + 1 < daysBefore (marchYear z + 1)) :
    civilDate (z + 1) = (civilDate z).next := by
  have hz := (marchYear_spec z).1
  obtain ⟨hmonth, hlow, hhigh⟩ := marchMonth_spec z
  obtain ⟨hyear', hday'⟩ :=
    marchYear_unique (show daysBefore (marchYear z) + (marchDay z + 1) = z + 1 by omega) h
  by_cases hsame : marchDay z + 1 < monthStart (marchMonth z + 1)
  · apply civilDate_sameMonth hyear' hday'
    show monthOf (marchDay (z + 1)) = marchMonth z
    rw [hday']
    exact monthOf_unique (by omega) hsame
  · have hlt : marchMonth z < 11 := by
      by_contra hnot
      have hfeb : marchMonth z = 11 := by omega
      rw [hfeb] at hsame
      have hstart : monthStart (11 + 1) = 367 := rfl
      rcases marchDay_le z with h | ⟨h, -⟩ <;> omega
    have hfirst : monthStart (marchMonth z + 1) = marchDay z + 1 := by omega
    apply civilDate_nextMonth hyear' hday' hlt _ hfirst
    show monthOf (marchDay (z + 1)) = marchMonth z + 1
    rw [hday']
    refine monthOf_unique hfirst.le ?_
    rw [← hfirst]
    unfold monthStart
    omega

theorem civilDate_succ (z : ℕ) : civilDate (z + 1) = (civilDate z).next := by
  rcases Nat.lt_or_ge (z + 1) (daysBefore (marchYear z + 1)) with h | h
  · exact civilDate_sameYear h
  · exact civilDate_newYear (by have := (marchYear_spec z).2; omega)

theorem january_le : 1 ≤ 12 := by decide

/-- The first of January 1970. -/
def epoch : Gregorian.Date := ⟨1970, 1, 1, by decide, january_le, by decide, by decide⟩

theorem civilDate_epoch : civilDate 719468 = epoch :=
  Gregorian.Date.eq_of_fields rfl rfl rfl

theorem civilDate_after (n : ℕ) : civilDate (n + 719468) = epoch.after n := by
  induction n with
  | zero =>
    rw [Nat.zero_add]
    exact civilDate_epoch
  | succ n ih =>
    rw [Nat.add_right_comm, civilDate_succ, ih, Gregorian.Date.after_succ]

/-- The day of a time, from the first of March of year 0. -/
def marchEpochDay (epochSecs : ℕ) : ℕ := epochSecs / 86400 + 719468

theorem utcDate_eq (epochSecs : ℕ) : utcDate epochSecs =
    ((civilDate (marchEpochDay epochSecs)).year.bmod (2 ^ 32), (civilDate (marchEpochDay epochSecs)).month,
      (civilDate (marchEpochDay epochSecs)).day) := rfl

theorem i64_of {x : ℤ} {n : ℕ} (hx : x = n) (h : n < 2 ^ 63) : i64 x = some n := by
  subst hx
  exact if_pos ⟨by omega, by omega⟩

theorem u32_of {x : ℤ} {n : ℕ} (hx : x = n) (h : n < 2 ^ 32) : u32 x = some n := by
  subst hx
  exact if_pos ⟨by omega, by omega⟩

theorem bind_of_eq {α β : Type} {x : Option α} {a : α} {f : α → Option β} (h : x = some a) : (x >>= f) = f a := by
  rw [h]
  rfl

/-- **No step of the date goes below zero or over its type.** -/
theorem utcDateChecked_eq (epochSecs : UInt64) : utcDateChecked epochSecs = some (utcDate epochSecs.toNat) := by
  have hsecs := epochSecs.toNat_lt
  obtain ⟨days, hdays⟩ : ∃ days, days = epochSecs.toNat / 86400 := ⟨_, rfl⟩
  obtain ⟨z, hz⟩ : ∃ z, z = days + 719468 := ⟨_, rfl⟩
  obtain ⟨era, hera⟩ : ∃ era, era = z / 146097 := ⟨_, rfl⟩
  obtain ⟨doe, hdoe⟩ : ∃ doe, doe = z - era * 146097 := ⟨_, rfl⟩
  have hz' : z < 2 ^ 50 := by omega
  have hdoe' : doe < 146097 := by omega
  have hera' : era < 2 ^ 50 := by omega
  have h₁ : i64 (epochSecs / 86400).toNat = some (days : ℤ) :=
    i64_of (congrArg Nat.cast ((UInt64.toNat_div ..).trans hdays.symm)) (by omega)
  have h₂ : i64 ((days : ℤ) + 719468) = some (z : ℤ) := i64_of (by omega) (by omega)
  have hera'' : (z : ℤ) / 146097 = era := by omega
  have h₃ : i64 ((era : ℤ) * 146097) = some ((era * 146097 : ℕ) : ℤ) := i64_of (by omega) (by omega)
  have h₄ : i64 ((z : ℤ) - (era * 146097 : ℕ)) = some (doe : ℤ) := i64_of (by omega) (by omega)
  have h₅ : u32 (doe : ℤ) = some (doe : ℤ) := u32_of rfl (by omega)
  obtain ⟨hyoe, hlow, hhigh, -⟩ := yearOfEra_spec hdoe'
  have h₆ : u32 ((doe : ℤ) - doe / 1460) = some ((doe - doe / 1460 : ℕ) : ℤ) := u32_of (by omega) (by omega)
  have h₇ : u32 (((doe - doe / 1460 : ℕ) : ℤ) + doe / 36524) = some ((doe - doe / 1460 + doe / 36524 : ℕ) : ℤ) :=
    u32_of (by omega) (by omega)
  have h₈ : u32 (((doe - doe / 1460 + doe / 36524 : ℕ) : ℤ) - doe / 146096) =
      some ((doe - doe / 1460 + doe / 36524 - doe / 146096 : ℕ) : ℤ) := u32_of (by omega) (by omega)
  have hyoe' : ((doe - doe / 1460 + doe / 36524 - doe / 146096 : ℕ) : ℤ) / 365 = yearOfEra doe := rfl
  obtain ⟨yoe, hyear⟩ : ∃ yoe, yoe = yearOfEra doe := ⟨_, rfl⟩
  obtain ⟨start, hstart⟩ : ∃ start, start = yearStart yoe := ⟨_, rfl⟩
  rw [← hyear] at hyoe hlow hhigh hyoe'
  rw [← hstart] at hlow hhigh
  have h₉ : i64 ((era : ℤ) * 400) = some ((era * 400 : ℕ) : ℤ) := i64_of (by omega) (by omega)
  have h₁₀ : i64 ((yoe : ℤ) + (era * 400 : ℕ)) = some ((yoe + era * 400 : ℕ) : ℤ) := i64_of (by omega) (by omega)
  have h₁₁ : u32 (365 * (yoe : ℤ)) = some ((365 * yoe : ℕ) : ℤ) := u32_of (by omega) (by omega)
  have h₁₂ : u32 (((365 * yoe : ℕ) : ℤ) + yoe / 4) = some ((365 * yoe + yoe / 4 : ℕ) : ℤ) := u32_of (by omega) (by omega)
  have h₁₃ : u32 (((365 * yoe + yoe / 4 : ℕ) : ℤ) - yoe / 100) = some (start : ℤ) := by
    rw [hstart]
    unfold yearStart
    exact u32_of (by omega) (by omega)
  have h₁₄ : u32 ((doe : ℤ) - start) = some ((doe - start : ℕ) : ℤ) := u32_of (by omega) (by omega)
  obtain ⟨doy, hdoy⟩ : ∃ doy, doy = doe - start := ⟨_, rfl⟩
  rw [← hdoy] at h₁₄
  obtain ⟨hmonth, hfirst, -⟩ := monthOf_spec (show doy ≤ 365 by omega)
  have h₁₅ : u32 (5 * (doy : ℤ)) = some ((5 * doy : ℕ) : ℤ) := u32_of (by omega) (by omega)
  have h₁₆ : u32 (((5 * doy : ℕ) : ℤ) + 2) = some ((5 * doy + 2 : ℕ) : ℤ) := u32_of (by omega) (by omega)
  have hmonth' : ((5 * doy + 2 : ℕ) : ℤ) / 153 = monthOf doy := rfl
  obtain ⟨mp, hmp⟩ : ∃ mp, mp = monthOf doy := ⟨_, rfl⟩
  rw [← hmp] at hmonth hfirst hmonth'
  have h₁₇ : u32 (153 * (mp : ℤ)) = some ((153 * mp : ℕ) : ℤ) := u32_of (by omega) (by omega)
  have h₁₈ : u32 (((153 * mp : ℕ) : ℤ) + 2) = some ((153 * mp + 2 : ℕ) : ℤ) := u32_of (by omega) (by omega)
  have hfirst' : ((153 * mp + 2 : ℕ) : ℤ) / 5 = monthStart mp := rfl
  have h₁₉ : u32 ((doy : ℤ) - monthStart mp) = some ((doy - monthStart mp : ℕ) : ℤ) := u32_of (by omega) (by omega)
  have h₂₀ : u32 (((doy - monthStart mp : ℕ) : ℤ) + 1) = some ((doy - monthStart mp + 1 : ℕ) : ℤ) :=
    u32_of (by omega) (by omega)
  have h₂₁ : u32 (if (mp : ℤ) < 10 then (mp : ℤ) + 3 else (mp : ℤ) - 9) = some (civilMonth mp : ℤ) := by
    unfold civilMonth
    split
    · rw [if_pos (by omega)]
      exact u32_of (by omega) (by omega)
    · rw [if_neg (by omega)]
      exact u32_of (by omega) (by omega)
  have h₂₂ : i64 (if (civilMonth mp : ℤ) ≤ 2 then ((yoe + era * 400 : ℕ) : ℤ) + 1 else (yoe + era * 400 : ℕ)) =
      some ((if civilMonth mp ≤ 2 then yoe + era * 400 + 1 else yoe + era * 400 : ℕ) : ℤ) := by
    split
    · rw [if_pos (by omega)]
      exact i64_of (by omega) (by omega)
    · rw [if_neg (by omega)]
      exact i64_of rfl (by omega)
  have hdate : utcDate epochSecs.toNat =
      (((if civilMonth mp ≤ 2 then yoe + era * 400 + 1 else yoe + era * 400 : ℕ) : ℤ).bmod (2 ^ 32), civilMonth mp,
        doy - monthStart mp + 1) := by
    rw [hmp, hdoy, hstart, hyear, hdoe, hera, hz, hdays]
    rfl
  rw [hdate]
  unfold utcDateChecked
  rw [bind_of_eq h₁, bind_of_eq h₂]
  dsimp only
  rw [hera'', h₃, Option.bind_some, h₄, Option.bind_some, bind_of_eq h₅, bind_of_eq h₆, bind_of_eq h₇, bind_of_eq h₈,
    hyoe', h₉, Option.bind_some, bind_of_eq h₁₀, bind_of_eq h₁₁, bind_of_eq h₁₂, bind_of_eq h₁₃, bind_of_eq h₁₄,
    h₁₅, Option.bind_some, h₁₆, Option.map_some, hmonth', bind_of_eq rfl, h₁₇, Option.bind_some, h₁₈, Option.map_some,
    hfirst', bind_of_eq rfl, h₁₉, Option.bind_some, bind_of_eq h₂₀, bind_of_eq h₂₁, bind_of_eq h₂₂]
  rfl

/-! ### The date as a text -/

theorem toList_zeroPadded (width n : ℕ) :
    (zeroPadded width n).toList = (Nat.toDigits 10 n).leftpad width '0' := by
  have hsign : ¬((n : ℤ) < 0) := by omega
  unfold zeroPadded
  simp only [if_neg hsign, Int.natAbs_natCast, String.length_empty, Nat.sub_zero, String.empty_append,
    String.toList_ofList, Nat.toList_repr]

/-- A padded number reads back as itself. -/
theorem zeroPadded_injective (width : ℕ) {n n' : ℕ} (h : (zeroPadded width n).toList = (zeroPadded width n').toList) :
    n = n' := by
  have hread := congrArg (Digits.readDigits 10) h
  rwa [toList_zeroPadded, toList_zeroPadded, Digits.readDigits_leftpad, Digits.readDigits_leftpad,
    Digits.readDigits_toDigits (by decide) (by decide), Digits.readDigits_toDigits (by decide) (by decide)] at hread

theorem dash_notMem_zeroPadded (width n : ℕ) : '-' ∉ (zeroPadded width n).toList := by
  rw [toList_zeroPadded]
  intro h
  rcases List.mem_append.mp h with hzero | hdigit
  · exact absurd (List.eq_of_mem_replicate hzero) (by decide)
  · have hdash : ('-').isDigit = true := Nat.isDigit_of_mem_toDigits (by decide) (by decide) hdigit
    exact absurd hdash (by decide)

theorem zeroPadded_dates_inj {y m d y' m' d' : ℕ}
    (h : zeroPadded 4 y ++ "-" ++ zeroPadded 2 m ++ "-" ++ zeroPadded 2 d =
      zeroPadded 4 y' ++ "-" ++ zeroPadded 2 m' ++ "-" ++ zeroPadded 2 d') : y = y' ∧ m = m' ∧ d = d' := by
  have hchars := congrArg String.toList h
  have hdash : "-".toList = ['-'] := rfl
  simp only [String.toList_append, List.append_assoc, hdash, List.cons_append, List.nil_append] at hchars
  obtain ⟨hyear, hrest⟩ := Lines.field_inj (dash_notMem_zeroPadded 4 y) (dash_notMem_zeroPadded 4 y') hchars
  obtain ⟨hmonth, hday⟩ := Lines.field_inj (dash_notMem_zeroPadded 2 m) (dash_notMem_zeroPadded 2 m') hrest
  exact ⟨zeroPadded_injective 4 hyear, zeroPadded_injective 2 hmonth, zeroPadded_injective 2 hday⟩

/-! ### The calendar -/

/-- The date of a time on the Gregorian calendar: the days that have passed since the epoch. -/
def gregorianDate (epochSecs : UInt64) : Gregorian.Date := epoch.after (epochSecs.toNat / 86400)

/-- A year that fits 32 bits. -/
def YearFits (epochSecs : UInt64) : Prop := (gregorianDate epochSecs).year < 2 ^ 31

theorem utcDate_of_yearFits {epochSecs : UInt64} (h : YearFits epochSecs) : utcDate epochSecs.toNat =
    ((gregorianDate epochSecs).year, (gregorianDate epochSecs).month, (gregorianDate epochSecs).day) := by
  have hlow : 1970 ≤ (gregorianDate epochSecs).year := Gregorian.Date.year_le_after epoch _
  have hhigh : (gregorianDate epochSecs).year < 2 ^ 31 := h
  have hbmod : (gregorianDate epochSecs).year.bmod (2 ^ 32) = (gregorianDate epochSecs).year :=
    Int.bmod_eq_of_le (by omega) (by omega)
  rw [utcDate_eq]
  unfold marchEpochDay
  rw [civilDate_after]
  exact congrArg (·, _) hbmod

/-- **The civil date is the Gregorian one**: no step of it goes below zero, the next day has the next date, and two
times have one date string when they are of one day. -/
theorem utcDate_gregorian (epochSecs : UInt64) (h : YearFits epochSecs) :
    utcDateChecked epochSecs = some (utcDate epochSecs.toNat) ∧
      utcDate epochSecs.toNat =
        ((gregorianDate epochSecs).year, (gregorianDate epochSecs).month, (gregorianDate epochSecs).day) ∧
      (∀ later : UInt64, later.toNat / 86400 = epochSecs.toNat / 86400 + 1 →
        gregorianDate later = (gregorianDate epochSecs).next) ∧
      ∀ other : UInt64, YearFits other →
        (utcDateStr epochSecs.toNat = utcDateStr other.toNat ↔ epochSecs.toNat / 86400 = other.toNat / 86400) := by
  refine ⟨utcDateChecked_eq epochSecs, utcDate_of_yearFits h, fun later hlater => ?_, fun other hother => ?_⟩
  · unfold gregorianDate
    rw [hlater, Gregorian.Date.after_succ]
  · constructor
    · intro hstr
      apply Gregorian.Date.after_injective epoch
      show gregorianDate epochSecs = gregorianDate other
      obtain ⟨y, hy⟩ := Int.eq_ofNat_of_zero_le ((by decide : (0 : ℤ) ≤ 1970).trans
        (Gregorian.Date.year_le_after epoch (epochSecs.toNat / 86400)))
      obtain ⟨y', hy'⟩ := Int.eq_ofNat_of_zero_le ((by decide : (0 : ℤ) ≤ 1970).trans
        (Gregorian.Date.year_le_after epoch (other.toNat / 86400)))
      have hyear : (gregorianDate epochSecs).year = y := hy
      have hyear' : (gregorianDate other).year = y' := hy'
      unfold utcDateStr at hstr
      rw [utcDate_of_yearFits h, utcDate_of_yearFits hother, hyear, hyear'] at hstr
      obtain ⟨hy, hmonth, hday⟩ := zeroPadded_dates_inj hstr
      exact Gregorian.Date.eq_of_fields (hyear.trans ((congrArg Nat.cast hy).trans hyear'.symm)) hmonth hday
    · intro hday
      unfold utcDateStr utcDate
      rw [hday]

theorem utcDate_gregorian_march : YearFits 5097600 ∧ utcDateChecked 5097600 = some (1970, 3, 1) := by
  have hfits : YearFits 5097600 := by
    show (epoch.after 59).year < 2 ^ 31
    decide +kernel
  have hmarch : utcDate (5097600 : UInt64).toNat = (1970, 3, 1) := by decide +kernel
  obtain ⟨hchecked, -⟩ := utcDate_gregorian 5097600 hfits
  exact ⟨hfits, hchecked.trans (congrArg some hmarch)⟩

example : utcDateStr 1709164800 = "2024-02-29" ∧ utcDateStr 1789733949 = "2026-09-18" := by decide

end Alaya
