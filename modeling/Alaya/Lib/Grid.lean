import Mathlib.Algebra.BigOperators.Group.List.Lemmas
import Mathlib.Algebra.Order.Ring.Nat
import Mathlib.Data.List.Count
import Mathlib.Data.List.Nodup

/-!
# Counting into a grid

A grid has one row for each of some labels and, in each, one count for each of some keys: the map of maps
a report fills from zero.  An item is counted in the cell it names, if the grid has it, and left out
otherwise.

* `foldl_count`: after a list of items every cell holds what it held and the weights of the items that
  name it;
* `total_count`: what a grid filled from zero holds in all is the weight of the items that name one of its
  cells, so no item is counted twice and none is lost.
-/

namespace Grid

variable {ρ κ ι : Type*} [DecidableEq ρ] [DecidableEq κ]

/-- Add to the count of a cell, if the grid has it. -/
def bump (r : ρ) (k : κ) (n : ℕ) (grid : List (ρ × List (κ × ℕ))) : List (ρ × List (κ × ℕ)) :=
  grid.map fun row =>
    if row.1 = r then (row.1, row.2.map fun cell => if cell.1 = k then (cell.1, cell.2 + n) else cell)
    else row

/-- The grid of some rows and keys with given counts. -/
def ofCounts (rows : List ρ) (keys : List κ) (c : ρ → κ → ℕ) : List (ρ × List (κ × ℕ)) :=
  rows.map fun r => (r, keys.map fun k => (k, c r k))

/-- Count an item in the cell it names. -/
def countItem (cell : ι → Option (ρ × κ)) (weight : ι → ℕ) (grid : List (ρ × List (κ × ℕ))) (i : ι) :
    List (ρ × List (κ × ℕ)) :=
  match cell i with
  | none => grid
  | some (r, k) => bump r k (weight i) grid

/-- What a grid holds in all. -/
def total (grid : List (ρ × List (κ × ℕ))) : ℕ :=
  (grid.map fun row => (row.2.map Prod.snd).sum).sum

/-- The weights of the items that name a cell. -/
def weightAt (cell : ι → Option (ρ × κ)) (weight : ι → ℕ) (items : List ι) (r : ρ) (k : κ) : ℕ :=
  ((items.filter fun i => cell i = some (r, k)).map weight).sum

/-! ### One item -/

theorem bump_ofCounts (r : ρ) (k : κ) (n : ℕ) (rows : List ρ) (keys : List κ) (c : ρ → κ → ℕ) :
    bump r k n (ofCounts rows keys c) =
      ofCounts rows keys fun r' k' => c r' k' + if r' = r ∧ k' = k then n else 0 := by
  unfold bump ofCounts
  rw [List.map_map]
  refine List.map_congr_left fun r' _ => ?_
  rw [Function.comp_apply]
  by_cases hr : r' = r
  · rw [if_pos hr, List.map_map]
    refine congrArg (Prod.mk r') (List.map_congr_left fun k' _ => ?_)
    show (if k' = k then (k', c r' k' + n) else (k', c r' k')) = (k', c r' k' + if r' = r ∧ k' = k then n else 0)
    by_cases hk : k' = k
    · rw [if_pos hk, if_pos ⟨hr, hk⟩]
    · rw [if_neg hk, if_neg fun h => hk h.2, Nat.add_zero]
  · rw [if_neg hr]
    refine congrArg (Prod.mk r') (List.map_congr_left fun k' _ => ?_)
    show (k', c r' k') = (k', c r' k' + if r' = r ∧ k' = k then n else 0)
    rw [if_neg fun h => hr h.1, Nat.add_zero]

theorem weightAt_cons (cell : ι → Option (ρ × κ)) (weight : ι → ℕ) (i : ι) (items : List ι) (r : ρ)
    (k : κ) : weightAt cell weight (i :: items) r k =
      (if cell i = some (r, k) then weight i else 0) + weightAt cell weight items r k := by
  unfold weightAt
  by_cases h : cell i = some (r, k)
  · rw [List.filter_cons_of_pos (by simpa using h), if_pos h, List.map_cons, List.sum_cons]
  · rw [List.filter_cons_of_neg (by simpa using h), if_neg h, Nat.zero_add]

theorem countItem_ofCounts (cell : ι → Option (ρ × κ)) (weight : ι → ℕ) (i : ι) (rows : List ρ)
    (keys : List κ) (c : ρ → κ → ℕ) : countItem cell weight (ofCounts rows keys c) i =
      ofCounts rows keys fun r k => c r k + if cell i = some (r, k) then weight i else 0 := by
  unfold countItem
  cases hcell : cell i with
  | none => simp
  | some at' =>
    obtain ⟨r, k⟩ := at'
    show bump r k (weight i) (ofCounts rows keys c) = _
    rw [bump_ofCounts]
    congr 1
    funext r' k'
    simp only [Option.some.injEq, Prod.mk.injEq, eq_comm (a := r), eq_comm (a := k)]

/-! ### A list of items -/

/-- **Each cell of a grid holds the weights of the items that name it.** -/
theorem foldl_count (cell : ι → Option (ρ × κ)) (weight : ι → ℕ) (rows : List ρ) (keys : List κ)
    (items : List ι) : ∀ c : ρ → κ → ℕ,
      items.foldl (countItem cell weight) (ofCounts rows keys c) =
        ofCounts rows keys fun r k => c r k + weightAt cell weight items r k := by
  induction items with
  | nil => intro c; rfl
  | cons i items ih =>
    intro c
    rw [List.foldl_cons, countItem_ofCounts, ih]
    congr 1
    funext r k
    rw [weightAt_cons, Nat.add_assoc]

omit [DecidableEq κ] [DecidableEq ρ] in
theorem total_ofCounts (rows : List ρ) (keys : List κ) (c : ρ → κ → ℕ) :
    total (ofCounts rows keys c) = (rows.map fun r => (keys.map fun k => c r k).sum).sum := by
  simp [total, ofCounts, Function.comp_def]

/-- A sum over distinct labels of what stands at one of them. -/
theorem sum_single {α : Type*} [DecidableEq α] {l : List α} (hl : l.Nodup) (a : α) (f : α → ℕ) :
    (l.map fun b => if b = a then f b else 0).sum = if a ∈ l then f a else 0 := by
  induction l with
  | nil => rfl
  | cons b l ih =>
    obtain ⟨hb, hl⟩ := List.nodup_cons.mp hl
    rw [List.map_cons, List.sum_cons, ih hl]
    by_cases h : b = a
    · subst h
      rw [if_pos rfl, if_neg hb, if_pos List.mem_cons_self, Nat.add_zero]
    · have hmem : a ∈ b :: l ↔ a ∈ l := List.mem_cons.trans (or_iff_right (Ne.symm h))
      rw [if_neg h, Nat.zero_add]
      simp only [hmem]

/-- The items that name a cell of the grid. -/
def Within (cell : ι → Option (ρ × κ)) (rows : List ρ) (keys : List κ) (i : ι) : Bool :=
  (cell i).any fun at' => at'.1 ∈ rows && at'.2 ∈ keys

theorem sum_cell {rows : List ρ} {keys : List κ} (hrows : rows.Nodup) (hkeys : keys.Nodup)
    (cell : ι → Option (ρ × κ)) (weight : ι → ℕ) (i : ι) :
    (rows.map fun r => (keys.map fun k => if cell i = some (r, k) then weight i else 0).sum).sum =
      if Within cell rows keys i then weight i else 0 := by
  unfold Within
  cases hcell : cell i with
  | none => simp
  | some at' =>
    obtain ⟨r, k⟩ := at'
    have hrow : ∀ r', (keys.map fun k' => if some (r, k) = some (r', k') then weight i else 0).sum =
        if r' = r then (if k ∈ keys then weight i else 0) else 0 := by
      intro r'
      by_cases hr : r' = r
      · subst hr
        rw [if_pos rfl, ← sum_single hkeys k fun _ => weight i]
        simp only [Option.some.injEq, Prod.mk.injEq, true_and, eq_comm (a := k)]
      · rw [if_neg hr]
        simp [Ne.symm hr]
    rw [List.map_congr_left fun r' _ => hrow r', sum_single hrows r fun _ => if k ∈ keys then weight i else 0]
    simp only [Option.any_some, Bool.and_eq_true, decide_eq_true_eq, ite_and]

/-- **A grid filled from zero loses and doubles nothing.** -/
theorem total_count {rows : List ρ} {keys : List κ} (hrows : rows.Nodup) (hkeys : keys.Nodup)
    (cell : ι → Option (ρ × κ)) (weight : ι → ℕ) (items : List ι) :
    total (items.foldl (countItem cell weight) (ofCounts rows keys fun _ _ => 0)) =
      ((items.filter (Within cell rows keys)).map weight).sum := by
  rw [foldl_count, total_ofCounts]
  simp only [Nat.zero_add]
  induction items with
  | nil => simp [weightAt]
  | cons i items ih =>
    simp only [weightAt_cons, List.sum_map_add]
    rw [sum_cell hrows hkeys, ih]
    by_cases h : Within cell rows keys i
    · rw [if_pos h, List.filter_cons_of_pos h, List.map_cons, List.sum_cons]
    · rw [if_neg h, List.filter_cons_of_neg h, Nat.zero_add]

end Grid
