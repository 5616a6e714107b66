import Mathlib.Data.List.Basic
import Mathlib.Order.Lattice

/-!
# Reading a list from a key on

The rows of a list that is sorted by a key, greatest first, are read from a key on, that key included: `upTo` are those
rows.  Reading on from the key of a row reads that row again (`mem_take_upTo`), with the others of its key, and the rows
behind a first part (`upTo_of_last`).
-/

namespace Paging

variable {α κ : Type*} [LinearOrder κ] (key : α → κ)

/-- The rows whose key is not above the cursor. -/
def upTo (c : Option κ) (xs : List α) : List α := xs.filter fun a => c.all fun k => key a ≤ k

variable {key}

@[simp] theorem upTo_none (xs : List α) : upTo key none xs = xs := List.filter_true xs

theorem mem_upTo {c : Option κ} {xs : List α} {a : α} : a ∈ upTo key c xs ↔ a ∈ xs ∧ ∀ k ∈ c, key a ≤ k := by
  cases c <;> simp [upTo]

theorem pairwise_upTo {xs : List α} (hsorted : xs.Pairwise fun a b => key b ≤ key a) (c : Option κ) :
    (upTo key c xs).Pairwise fun a b => key b ≤ key a := hsorted.filter _

/-- From a key on that is not above the cursor. -/
theorem upTo_upTo {c : Option κ} {k : κ} (hk : ∀ k' ∈ c, k ≤ k') (xs : List α) :
    upTo key (some k) (upTo key c xs) = upTo key (some k) xs := by
  unfold upTo
  rw [List.filter_filter]
  refine List.filter_congr fun a _ => ?_
  cases c with
  | none => simp
  | some k' =>
    by_cases ha : key a ≤ k
    · simp [ha, ha.trans (hk k' rfl)]
    · simp [ha]

/-- A sorted list, cut above a key. -/
theorem filter_append_upTo {xs : List α} (hsorted : xs.Pairwise fun a b => key b ≤ key a) (k : κ) :
    xs.filter (fun a => k < key a) ++ upTo key (some k) xs = xs := by
  induction xs with
  | nil => rfl
  | cons a xs ih =>
    obtain ⟨ha, hxs⟩ := List.pairwise_cons.mp hsorted
    by_cases hk : k < key a
    · have hrest : upTo key (some k) (a :: xs) = upTo key (some k) xs :=
        List.filter_cons_of_neg (by simpa using hk)
      rw [List.filter_cons_of_pos (by simpa using hk), hrest, List.cons_append, ih hxs]
    · -- Nothing that follows is above the key either.
      have hle : ∀ b ∈ a :: xs, key b ≤ k := by
        intro b hb
        rcases List.mem_cons.mp hb with rfl | hb
        · exact not_lt.mp hk
        · exact (ha b hb).trans (not_lt.mp hk)
      have hnone : (a :: xs).filter (fun a => k < key a) = [] :=
        List.filter_eq_nil_iff.mpr fun b hb => by simpa using hle b hb
      have hall : upTo key (some k) (a :: xs) = a :: xs :=
        List.filter_eq_self.mpr fun b hb => by simpa using hle b hb
      rw [hnone, hall, List.nil_append]

/-- **A row is read again** by as many rows from its own key on. -/
theorem mem_take_upTo {xs : List α} (hsorted : xs.Pairwise fun a b => key b ≤ key a) {n : ℕ} {a : α}
    (ha : a ∈ xs.take n) : a ∈ (upTo key (some (key a)) xs).take n := by
  have hsplit := filter_append_upTo hsorted (key a)
  rw [← hsplit, List.take_append] at ha
  rcases List.mem_append.mp ha with habove | hrest
  · have hlt := (List.mem_filter.mp (List.mem_of_mem_take habove)).2
    exact absurd (of_decide_eq_true hlt) (lt_irrefl _)
  · exact List.take_subset_take_left _ (Nat.sub_le _ _) hrest

/-- From the key of the last row of a first part on: the rows of that key in it, and what is behind it. -/
theorem upTo_of_last {xs ys : List α} (hsorted : (xs ++ ys).Pairwise fun a b => key b ≤ key a) {last : α}
    (hlast : xs.getLast? = some last) :
    upTo key (some (key last)) (xs ++ ys) = xs.filter (fun a => key a = key last) ++ ys := by
  obtain ⟨front, rfl⟩ := List.getLast?_eq_some_iff.mp hlast
  obtain ⟨hxs, -, hbehind⟩ := List.pairwise_append.mp hsorted
  obtain ⟨-, -, hfront⟩ := List.pairwise_append.mp hxs
  unfold upTo
  rw [List.filter_append]
  congr 1
  · refine List.filter_congr fun a ha => decide_eq_decide.mpr ⟨fun hle => ?_, fun heq => heq.le⟩
    rcases List.mem_append.mp ha with ha | ha
    · exact le_antisymm hle (hfront a ha last List.mem_cons_self)
    · rw [List.mem_singleton.mp ha]
  · refine List.filter_eq_self.mpr fun a ha => decide_eq_true ?_
    exact hbehind last (List.mem_append_right _ List.mem_cons_self) a ha

/-- In a list that ascends, the items of a first part are those up to its last one. -/
theorem mem_take_iff_le {xs : List κ} (hsorted : xs.Pairwise (· < ·)) {n : ℕ} {last : κ}
    (hlast : (xs.take n).getLast? = some last) {a : κ} : a ∈ xs.take n ↔ a ∈ xs ∧ a ≤ last := by
  obtain ⟨front, hfront⟩ := List.getLast?_eq_some_iff.mp hlast
  have hsplit : front ++ last :: xs.drop n = xs := by
    rw [← List.singleton_append, ← List.append_assoc, ← hfront, List.take_append_drop]
  rw [← hsplit] at hsorted
  obtain ⟨-, htail, hbefore⟩ := List.pairwise_append.mp hsorted
  rw [hfront, ← hsplit]
  constructor
  · intro ha
    rcases List.mem_append.mp ha with ha | ha
    · exact ⟨List.mem_append_left _ ha, (hbefore a ha last List.mem_cons_self).le⟩
    · obtain rfl := List.mem_singleton.mp ha
      exact ⟨List.mem_append_right _ List.mem_cons_self, le_rfl⟩
  · rintro ⟨ha, hle⟩
    rcases List.mem_append.mp ha with ha | ha
    · exact List.mem_append_left _ ha
    · rcases List.mem_cons.mp ha with rfl | ha
      · exact List.mem_append_right _ List.mem_cons_self
      · exact absurd ((List.pairwise_cons.mp htail).1 a ha) (not_lt.mpr hle)

end Paging
