import Mathlib.Data.List.Basic
import Mathlib.Data.List.Infix

/-!
# The most recent entries of a growing list

`keepLast n l` is what stays of `l` when the oldest entries past `n` are dropped.  A log that is
capped after every append is the capped list of everything ever appended (`keepLast_append`), so
what such a log still holds is a suffix of its whole history: an entry that is missing has been
overtaken by `n` newer ones (`after_missing`).
-/

namespace Recent

variable {α : Type*}

/-- Drop the oldest entries past `n`. -/
def keepLast (n : ℕ) (l : List α) : List α := l.drop (l.length - n)

@[simp] theorem keepLast_length (n : ℕ) (l : List α) :
    (keepLast n l).length = min n l.length := by
  simp only [keepLast, List.length_drop]
  omega

theorem keepLast_of_le {n : ℕ} {l : List α} (h : l.length ≤ n) : keepLast n l = l := by
  rw [keepLast, Nat.sub_eq_zero_of_le h, List.drop_zero]

theorem keepLast_suffix (n : ℕ) (l : List α) : keepLast n l <:+ l :=
  List.drop_suffix _ _

theorem mem_of_mem_keepLast {n : ℕ} {l : List α} {x : α} (h : x ∈ keepLast n l) : x ∈ l :=
  (keepLast_suffix n l).subset h

/-- Capping before an append changes nothing when the result is capped again. -/
theorem keepLast_append (n : ℕ) (a b : List α) :
    keepLast n (keepLast n a ++ b) = keepLast n (a ++ b) := by
  rcases Nat.lt_or_ge n a.length with hlt | hge
  · simp only [keepLast, List.length_append, List.length_drop, List.drop_append, List.drop_drop]
    congr 1
    · congr 1
      omega
    · congr 1
      omega
  · rw [keepLast_of_le hge]

/-- A suffix of `a ++ x :: b` that no longer holds `x` lies within `b`. -/
theorem suffix_of_notMem {s a b : List α} {x : α} (h : s <:+ a ++ x :: b) (hx : x ∉ s) :
    s <:+ b := by
  rcases Nat.lt_or_ge b.length s.length with hlt | hge
  · have hxb : x :: b <:+ a ++ x :: b := List.suffix_append _ _
    have hle : (x :: b).length ≤ s.length := by
      simp only [List.length_cons]
      omega
    exact absurd ((List.suffix_of_suffix_length_le hxb h hle).subset (by simp)) hx
  · have hb : b <:+ a ++ x :: b := (List.suffix_cons x b).trans (List.suffix_append _ _)
    exact List.suffix_of_suffix_length_le h hb hge

/-- An entry missing from the capped list has been overtaken by `n` newer ones, and only newer ones
are left. -/
theorem after_missing {n : ℕ} {a b : List α} {x : α} (hx : x ∉ keepLast n (a ++ x :: b)) :
    keepLast n (a ++ x :: b) <:+ b ∧ (keepLast n (a ++ x :: b)).length = n := by
  have hsuf := suffix_of_notMem (keepLast_suffix n (a ++ x :: b)) hx
  refine ⟨hsuf, ?_⟩
  have hle := hsuf.length_le
  rw [keepLast_length, List.length_append, List.length_cons] at *
  omega

end Recent
