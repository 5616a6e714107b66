import Mathlib.Logic.Function.Iterate
import Mathlib.Algebra.Order.Group.Int
import Mathlib.Algebra.Order.Ring.Nat
import Mathlib.Data.Int.ConditionallyCompleteOrder
import Mathlib.Order.Monotone.Basic
import Mathlib.Tactic.IntervalCases

/-!
# The Gregorian calendar

A date is a year, a month of it and a day of that month.  `Date.next` is the day after it by the leap-year rule,
carried to all years, and `Date.after` counts days from a date.
-/

namespace Gregorian

/-- Every fourth year, of the centuries every fourth. -/
def IsLeap (year : ℤ) : Prop := 4 ∣ year ∧ (¬100 ∣ year ∨ 400 ∣ year)

instance (year : ℤ) : Decidable (IsLeap year) := inferInstanceAs (Decidable (_ ∧ _))

def monthLength (year : ℤ) : ℕ → ℕ
  | 2 => if IsLeap year then 29 else 28
  | 4 | 6 | 9 | 11 => 30
  | _ => 31

theorem monthLength_february (year : ℤ) : monthLength year 2 = if IsLeap year then 29 else 28 := rfl

theorem monthLength_pos (year : ℤ) (month : ℕ) : 1 ≤ monthLength year month := by
  unfold monthLength
  split
  · split <;> decide
  all_goals decide

theorem monthLength_le (year : ℤ) (month : ℕ) : monthLength year month ≤ 31 := by
  unfold monthLength
  split
  · split <;> decide
  all_goals decide

structure Date where
  year : ℤ
  month : ℕ
  day : ℕ
  one_le_month : 1 ≤ month
  month_le : month ≤ 12
  one_le_day : 1 ≤ day
  day_le : day ≤ monthLength year month

namespace Date

theorem eq_of_fields {d d' : Date} (hyear : d.year = d'.year) (hmonth : d.month = d'.month) (hday : d.day = d'.day) :
    d = d' := by
  cases d
  cases d'
  cases hyear
  cases hmonth
  cases hday
  rfl

/-- The day after a date. -/
def next (d : Date) : Date :=
  if h : d.day < monthLength d.year d.month then
    ⟨d.year, d.month, d.day + 1, d.one_le_month, d.month_le, by omega, h⟩
  else if h : d.month < 12 then
    ⟨d.year, d.month + 1, 1, by omega, h, le_refl 1, monthLength_pos ..⟩
  else ⟨d.year + 1, 1, 1, le_refl 1, by decide, le_refl 1, monthLength_pos ..⟩

theorem eq_next_of_day {d d' : Date} (h : d.day < monthLength d.year d.month) (hyear : d'.year = d.year)
    (hmonth : d'.month = d.month) (hday : d'.day = d.day + 1) : d' = d.next := by
  unfold next
  rw [dif_pos h]
  exact eq_of_fields hyear hmonth hday

theorem eq_next_of_month {d d' : Date} (h : monthLength d.year d.month ≤ d.day) (hlt : d.month < 12)
    (hyear : d'.year = d.year) (hmonth : d'.month = d.month + 1) (hday : d'.day = 1) : d' = d.next := by
  unfold next
  rw [dif_neg (not_lt.mpr h), dif_pos hlt]
  exact eq_of_fields hyear hmonth hday

theorem eq_next_of_year {d d' : Date} (h : monthLength d.year d.month ≤ d.day) (hlast : d.month = 12)
    (hyear : d'.year = d.year + 1) (hmonth : d'.month = 1) (hday : d'.day = 1) : d' = d.next := by
  unfold next
  rw [dif_neg (not_lt.mpr h), dif_neg (by omega)]
  exact eq_of_fields hyear hmonth hday

/-- The date `n` days after a date. -/
def after (d : Date) (n : ℕ) : Date := next^[n] d

@[simp] theorem after_zero (d : Date) : d.after 0 = d := rfl

theorem after_succ (d : Date) (n : ℕ) : d.after (n + 1) = (d.after n).next := Function.iterate_succ_apply' ..

/-- Dates in their order, as numbers: no month has more than 31 days. -/
def rank (d : Date) : ℤ := 372 * d.year + 31 * d.month + d.day

theorem rank_lt_next (d : Date) : d.rank < d.next.rank := by
  have hday := d.day_le
  have hlength := monthLength_le d.year d.month
  have hmonth := d.month_le
  unfold next rank
  split
  · dsimp only
    omega
  · split
    · dsimp only
      omega
    · dsimp only
      omega

theorem strictMono_rank_after (d : Date) : StrictMono fun n => (d.after n).rank :=
  strictMono_nat_of_lt_succ fun n => by
    show (d.after n).rank < (d.after (n + 1)).rank
    rw [after_succ]
    exact rank_lt_next _

/-- Different numbers of days lead to different dates. -/
theorem after_injective (d : Date) : Function.Injective d.after := by
  intro m n h
  apply (strictMono_rank_after d).injective
  exact congrArg rank h

theorem year_le_next (d : Date) : d.year ≤ d.next.year := by
  unfold next
  split
  · exact le_refl _
  · split
    · exact le_refl _
    · exact (lt_add_one d.year).le

theorem year_le_after (d : Date) (n : ℕ) : d.year ≤ (d.after n).year := by
  induction n with
  | zero => exact le_refl _
  | succ n ih =>
    rw [after_succ]
    exact ih.trans (year_le_next _)

end Date

end Gregorian
