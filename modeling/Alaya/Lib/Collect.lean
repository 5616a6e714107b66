import Mathlib.Data.List.Basic

/-!
# Values gathered under keys

One pass over a list that files a value of each item under a key of it: the fold behind a
`BTreeMap<K, BTreeSet<V>>`.  What is filed under a key is exactly what some item has there, in whatever
order the items come and however often they repeat.
-/

namespace Collect

open Std (TreeMap TreeSet TransOrd LawfulEqOrd)

variable {β κ ν : Type} [Ord κ] [Ord ν]

/-- File one item. -/
def file (f : β → Option (κ × ν)) (m : TreeMap κ (TreeSet ν)) (x : β) : TreeMap κ (TreeSet ν) :=
  match f x with
  | some (k, v) => m.alter k fun filed => some ((filed.getD ∅).insert v)
  | none => m

def collect (f : β → Option (κ × ν)) (xs : List β) : TreeMap κ (TreeSet ν) := xs.foldl (file f) ∅

/-- The values filed under a key. -/
def filed (m : TreeMap κ (TreeSet ν)) (k : κ) : TreeSet ν := m[k]?.getD ∅

/-- Nothing is listed without a value. -/
def Filled (m : TreeMap κ (TreeSet ν)) : Prop :=
  ∀ (k : κ) (s : TreeSet ν), m[k]? = some s → ∃ v, v ∈ s

theorem filed_of_getElem? {m : TreeMap κ (TreeSet ν)} {k : κ} {s : TreeSet ν} (h : m[k]? = some s) :
    filed m k = s := by
  simp [filed, h]

variable [TransOrd κ] [TransOrd ν]

theorem filled_file (f : β → Option (κ × ν)) {m : TreeMap κ (TreeSet ν)} (hm : Filled m) (x : β) :
    Filled (file f m x) := by
  intro k s hs
  unfold file at hs
  split at hs
  · rename_i l w _
    rw [TreeMap.getElem?_alter] at hs
    split at hs
    · refine ⟨w, ?_⟩
      rw [← Option.some.inj hs]
      exact TreeSet.mem_insert_self
    · exact hm k s hs
  · exact hm k s hs

theorem filled_foldl (f : β → Option (κ × ν)) (xs : List β) :
    ∀ m : TreeMap κ (TreeSet ν), Filled m → Filled (xs.foldl (file f) m) := by
  induction xs with
  | nil => exact fun m hm => hm
  | cons x xs ih => exact fun m hm => ih _ (filled_file f hm x)

theorem filled_collect (f : β → Option (κ × ν)) (xs : List β) : Filled (collect f xs) := by
  apply filled_foldl
  intro k s hs
  simp at hs

variable [LawfulEqOrd κ] [LawfulEqOrd ν]

theorem mem_filed_file (f : β → Option (κ × ν)) (m : TreeMap κ (TreeSet ν)) (x : β) (k : κ) (v : ν) :
    v ∈ filed (file f m x) k ↔ v ∈ filed m k ∨ f x = some (k, v) := by
  unfold file
  cases hx : f x with
  | none => simp
  | some kv =>
    obtain ⟨l, w⟩ := kv
    simp only [filed, TreeMap.getElem?_alter, Std.compare_eq_iff_eq, Option.some.injEq, Prod.mk.injEq]
    by_cases hl : l = k
    · subst hl
      simp only [if_true, Option.getD_some, TreeSet.mem_insert, Std.compare_eq_iff_eq, true_and]
      exact or_comm
    · simp [hl]

theorem mem_filed_foldl (f : β → Option (κ × ν)) (k : κ) (v : ν) (xs : List β) :
    ∀ m : TreeMap κ (TreeSet ν),
      v ∈ filed (xs.foldl (file f) m) k ↔ v ∈ filed m k ∨ ∃ x ∈ xs, f x = some (k, v) := by
  induction xs with
  | nil => intro m; simp
  | cons x xs ih =>
    intro m
    rw [List.foldl_cons, ih, mem_filed_file]
    simp [or_assoc]

/-- What is filed under a key is what some item has there. -/
theorem mem_filed (f : β → Option (κ × ν)) (xs : List β) (k : κ) (v : ν) :
    v ∈ filed (collect f xs) k ↔ ∃ x ∈ xs, f x = some (k, v) := by
  rw [collect, mem_filed_foldl]
  simp [filed]

/-- A key with nothing filed under it is not listed. -/
theorem getElem?_collect_eq_none_iff (f : β → Option (κ × ν)) (xs : List β) (k : κ) :
    (collect f xs)[k]? = none ↔ ∀ x ∈ xs, ∀ v, f x ≠ some (k, v) := by
  constructor
  · intro h x hx v hv
    have hmem : v ∈ filed (collect f xs) k := (mem_filed f xs k v).mpr ⟨x, hx, hv⟩
    simp [filed, h] at hmem
  · intro h
    cases hs : (collect f xs)[k]? with
    | none => rfl
    | some s =>
      obtain ⟨v, hv⟩ := filled_collect f xs k s hs
      rw [← filed_of_getElem? hs, mem_filed] at hv
      obtain ⟨x, hx, hxv⟩ := hv
      exact absurd hxv (h x hx v)

theorem isEmpty_collect_iff (f : β → Option (κ × ν)) (xs : List β) :
    (collect f xs).isEmpty = true ↔ ∀ x ∈ xs, f x = none := by
  rw [TreeMap.isEmpty_iff_forall_not_mem]
  constructor
  · intro h x hx
    cases hf : f x with
    | none => rfl
    | some kv =>
      have hnone := TreeMap.getElem?_eq_none (h kv.1)
      exact absurd hf ((getElem?_collect_eq_none_iff f xs kv.1).mp hnone x hx kv.2)
  · intro h k hk
    have hnone : (collect f xs)[k]? = none :=
      (getElem?_collect_eq_none_iff f xs k).mpr fun x hx v hv => by simp [h x hx] at hv
    rw [TreeMap.mem_iff_isSome_getElem?, hnone] at hk
    simp at hk

end Collect
