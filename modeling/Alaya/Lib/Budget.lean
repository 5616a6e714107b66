import Mathlib.Algebra.BigOperators.Group.List.Basic
import Mathlib.Algebra.Order.Ring.Nat

/-!
# A list within a budget

`within limit spent` takes items as long as what they cost fits what is left of a limit.  It is the longest start of
the list that fits.
-/

namespace Budget

variable {α : Type} (cost : α → ℕ)

def total (cs : List α) : ℕ := (cs.map cost).sum

/-- Items, as long as they and what was spent stay within the limit. -/
def within (limit : ℕ) : ℕ → List α → List α
  | _, [] => []
  | spent, c :: cs => if limit < spent + cost c then [] else c :: within limit (spent + cost c) cs

variable {cost} {limit spent : ℕ}

@[simp] theorem total_nil : total cost [] = 0 := rfl

@[simp] theorem total_cons (c : α) (cs : List α) : total cost (c :: cs) = cost c + total cost cs := List.sum_cons

theorem total_append (cs ds : List α) : total cost (cs ++ ds) = total cost cs + total cost ds := by
  unfold total
  rw [List.map_append, List.sum_append]

theorem within_isPrefix (cs : List α) : within cost limit spent cs <+: cs := by
  induction cs generalizing spent with
  | nil => exact List.prefix_rfl
  | cons c cs ih =>
    unfold within
    split
    · exact List.nil_prefix
    · exact List.cons_prefix_cons.mpr ⟨rfl, ih⟩

theorem total_within_le (cs : List α) (h : spent ≤ limit) : spent + total cost (within cost limit spent cs) ≤ limit := by
  induction cs generalizing spent with
  | nil => exact h
  | cons c cs ih =>
    unfold within
    split
    · exact h
    · next hfits =>
      rw [total_cons, ← Nat.add_assoc]
      exact ih (Nat.not_lt.mp hfits)

/-- Every start of the list that fits is a start of what is taken. -/
theorem isPrefix_within {cs ds : List α} (hstart : ds <+: cs) (h : spent + total cost ds ≤ limit) :
    ds <+: within cost limit spent cs := by
  induction cs generalizing spent ds with
  | nil => exact hstart
  | cons c cs ih =>
    cases ds with
    | nil => exact List.nil_prefix
    | cons d ds =>
      obtain ⟨rfl, hrest⟩ := List.cons_prefix_cons.mp hstart
      rw [total_cons, ← Nat.add_assoc] at h
      unfold within
      rw [if_neg (by omega)]
      exact List.cons_prefix_cons.mpr ⟨rfl, ih hrest h⟩

end Budget
