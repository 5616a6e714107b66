import Alaya.Lib.Budget

/-!
# Offsets into a list of items of several widths

An offset counts the widths of the items before it, as a byte offset does in an encoded text.  Cutting at an offset
inside an item fails; an offset that `find` returns, or that is the width of a start of the list, is between two items.
-/

namespace Offsets

variable {α : Type} (width : α → ℕ)

/-- Cut at an offset; nothing where it is inside an item or past the end. -/
def splitAt : List α → ℕ → Option (List α × List α)
  | cs, 0 => some ([], cs)
  | [], _ + 1 => none
  | c :: cs, i + 1 =>
    if width c ≤ i + 1 then (splitAt cs (i + 1 - width c)).map fun (before, after) => (c :: before, after) else none

/-- What follows an offset. -/
def sliceFrom (cs : List α) (i : ℕ) : Option (List α) := (splitAt width cs i).map Prod.snd

/-- The offset of the first item that satisfies `p`. -/
def find (p : α → Bool) : List α → Option ℕ
  | [] => none
  | c :: cs => if p c then some 0 else (find p cs).map (width c + ·)

variable {width}

theorem splitAt_zero (cs : List α) : splitAt width cs 0 = some ([], cs) := by
  unfold splitAt
  rfl

/-- The width of a start of the list is an offset after it. -/
theorem splitAt_total (hwidth : ∀ c, 0 < width c) (before after : List α) :
    splitAt width (before ++ after) (Budget.total width before) = some (before, after) := by
  induction before with
  | nil => exact splitAt_zero after
  | cons c before ih =>
    obtain ⟨i, hi⟩ : ∃ i, Budget.total width (c :: before) = i + 1 :=
      Nat.exists_eq_succ_of_ne_zero (by have := hwidth c; rw [Budget.total_cons]; omega)
    have hrest : i + 1 - width c = Budget.total width before := by
      rw [← hi, Budget.total_cons, Nat.add_sub_cancel_left]
    have hle : width c ≤ i + 1 := by
      rw [← hi, Budget.total_cons]
      exact Nat.le_add_right ..
    rw [hi, List.cons_append]
    unfold splitAt
    rw [if_pos hle, hrest, ih]
    rfl

theorem sliceFrom_total (hwidth : ∀ c, 0 < width c) (before after : List α) :
    sliceFrom width (before ++ after) (Budget.total width before) = some after := by
  unfold sliceFrom
  rw [splitAt_total hwidth]
  rfl

/-- An offset that is found is between two items: it is that of the first item to satisfy `p`. -/
theorem find_eq_some_iff {p : α → Bool} {cs : List α} {i : ℕ} : find width p cs = some i ↔
    ∃ before c after, cs = before ++ c :: after ∧ (∀ b ∈ before, p b = false) ∧ p c = true ∧
      i = Budget.total width before := by
  induction cs generalizing i with
  | nil =>
    constructor
    · exact nofun
    · rintro ⟨before, c, after, hnil, -⟩
      cases before <;> cases hnil
  | cons d cs ih =>
    unfold find
    split
    · next hd =>
      constructor
      · rintro ⟨⟩
        exact ⟨[], d, cs, rfl, nofun, hd, rfl⟩
      · rintro ⟨before, c, after, hsplit, hbefore, -, rfl⟩
        cases before with
        | nil => rfl
        | cons b before =>
          obtain ⟨rfl, -⟩ := List.cons.inj hsplit
          rw [hbefore d List.mem_cons_self] at hd
          cases hd
    · next hd =>
      rw [Option.map_eq_some_iff]
      constructor
      · rintro ⟨j, hj, rfl⟩
        obtain ⟨before, c, after, rfl, hbefore, hc, rfl⟩ := ih.mp hj
        exact ⟨d :: before, c, after, rfl, List.forall_mem_cons.mpr ⟨Bool.eq_false_iff.mpr hd, hbefore⟩, hc, rfl⟩
      · rintro ⟨before, c, after, hsplit, hbefore, hc, rfl⟩
        cases before with
        | nil =>
          obtain ⟨rfl, -⟩ := List.cons.inj hsplit
          exact absurd hc hd
        | cons b before =>
          obtain ⟨rfl, rfl⟩ := List.cons.inj hsplit
          exact ⟨_, ih.mpr ⟨before, c, after, rfl, (List.forall_mem_cons.mp hbefore).2, hc, rfl⟩, rfl⟩

end Offsets
