import Mathlib.Data.List.Induction
import Mathlib.Order.Lattice

/-!
# The greatest value of each key

One pass over a list of pairs that keeps, of the values seen under a key, the greatest: the fold behind a
`HashMap` filled with `entry(k).or_insert(v).max(v)`.  Each key is listed once, with the greatest of its
values, in whatever order the pairs come and however often they repeat.
-/

namespace Greatest

variable {κ ν : Type} [DecidableEq κ] [LinearOrder ν]

/-- Raise the value of a key to at least `v`. -/
def raise (k : κ) (v : ν) : List (κ × ν) → List (κ × ν)
  | [] => [(k, v)]
  | (l, w) :: rest => if l = k then (l, max w v) :: rest else (l, w) :: raise k v rest

def collect (xs : List (κ × ν)) : List (κ × ν) := xs.foldl (fun best p => raise p.1 p.2 best) []

theorem map_fst_raise (k : κ) (v : ν) (best : List (κ × ν)) :
    (raise k v best).map Prod.fst = if k ∈ best.map Prod.fst then best.map Prod.fst
      else best.map Prod.fst ++ [k] := by
  induction best with
  | nil => simp [raise]
  | cons p rest ih =>
    obtain ⟨l, w⟩ := p
    by_cases hl : l = k
    · simp [raise, hl]
    · have hkl : k ≠ l := fun h => hl h.symm
      simp only [raise, if_neg hl, List.map_cons, ih, List.mem_cons, hkl, false_or]
      split <;> rfl

theorem nodup_raise {k : κ} {v : ν} {best : List (κ × ν)} (h : (best.map Prod.fst).Nodup) :
    ((raise k v best).map Prod.fst).Nodup := by
  rw [map_fst_raise]
  split
  · exact h
  · rename_i hk
    refine List.nodup_append.mpr ⟨h, by simp, fun l hl m hm => ?_⟩
    rw [List.mem_singleton.mp hm]
    rintro rfl
    exact hk hl

/-- What is listed of a key after it is raised. -/
theorem mem_raise {k l : κ} {v w : ν} {best : List (κ × ν)} (h : (best.map Prod.fst).Nodup) :
    (l, w) ∈ raise k v best ↔ (l ≠ k ∧ (l, w) ∈ best) ∨
      l = k ∧ ((k ∉ best.map Prod.fst ∧ w = v) ∨ ∃ u, (k, u) ∈ best ∧ w = max u v) := by
  induction best with
  | nil =>
    simp only [raise, List.mem_singleton, Prod.mk.injEq]
    simp
  | cons p rest ih =>
    obtain ⟨m, u⟩ := p
    obtain ⟨hm, hrest⟩ := List.nodup_cons.mp h
    by_cases hmk : m = k
    · subst hmk
      have hnone : ∀ x, (m, x) ∉ rest := fun x hx => hm (List.mem_map.mpr ⟨(m, x), hx, rfl⟩)
      rw [raise, if_pos rfl, List.mem_cons, List.mem_cons, Prod.mk.injEq, Prod.mk.injEq, List.map_cons]
      constructor
      · rintro (⟨rfl, rfl⟩ | hmem)
        · exact .inr ⟨rfl, .inr ⟨u, List.mem_cons_self, rfl⟩⟩
        · refine .inl ⟨?_, .inr hmem⟩
          rintro rfl
          exact hnone w hmem
      · rintro (⟨hne, ⟨rfl, -⟩ | hmem⟩ | ⟨rfl, ⟨hk, -⟩ | ⟨x, hx, rfl⟩⟩)
        · exact absurd rfl hne
        · exact .inr hmem
        · exact absurd List.mem_cons_self hk
        · rcases List.mem_cons.mp hx with heq | hx
          · cases heq
            exact .inl ⟨rfl, rfl⟩
          · exact absurd hx (hnone x)
    · have hkm : k ≠ m := fun h => hmk h.symm
      simp only [raise, if_neg hmk, List.mem_cons, Prod.mk.injEq, ih hrest, List.map_cons, hkm, false_and, false_or]
      constructor
      · rintro (⟨rfl, rfl⟩ | ⟨hne, hmem⟩ | hk)
        · exact .inl ⟨hmk, .inl ⟨rfl, rfl⟩⟩
        · exact .inl ⟨hne, .inr hmem⟩
        · exact .inr hk
      · rintro (⟨hne, ⟨rfl, rfl⟩ | hmem⟩ | hk)
        · exact .inl ⟨rfl, rfl⟩
        · exact .inr (.inl ⟨hne, hmem⟩)
        · exact .inr (.inr hk)

theorem collect_concat (xs : List (κ × ν)) (k : κ) (v : ν) :
    collect (xs ++ [(k, v)]) = raise k v (collect xs) := by
  rw [collect, List.foldl_append]
  rfl

theorem nodup_collect (xs : List (κ × ν)) : ((collect xs).map Prod.fst).Nodup := by
  induction xs using List.reverseRecOn with
  | nil => simp [collect]
  | append_singleton xs p ih =>
    rw [collect_concat]
    exact nodup_raise ih

/-- A key is listed when it comes. -/
theorem mem_map_fst_collect {xs : List (κ × ν)} {k : κ} :
    k ∈ (collect xs).map Prod.fst ↔ k ∈ xs.map Prod.fst := by
  induction xs using List.reverseRecOn with
  | nil => simp [collect]
  | append_singleton xs p ih =>
    rw [collect_concat, map_fst_raise, List.map_append, List.mem_append, List.map_singleton,
      List.mem_singleton, ← ih]
    split
    · next hp => exact ⟨.inl, fun h => h.elim id fun hk => hk ▸ hp⟩
    · rw [List.mem_append, List.mem_singleton]

/-- **A key is listed with the greatest of its values.** -/
theorem mem_collect {xs : List (κ × ν)} {k : κ} {v : ν} :
    (k, v) ∈ collect xs ↔ (k, v) ∈ xs ∧ ∀ w, (k, w) ∈ xs → w ≤ v := by
  induction xs using List.reverseRecOn generalizing v with
  | nil => simp [collect]
  | append_singleton xs p ih =>
    obtain ⟨l, u⟩ := p
    simp only [collect_concat, mem_raise (nodup_collect xs), List.mem_append, List.mem_singleton,
      Prod.mk.injEq]
    by_cases hkl : k = l
    · subst hkl
      constructor
      · rintro (⟨hne, -⟩ | ⟨-, ⟨hk, rfl⟩ | ⟨x, hx, rfl⟩⟩)
        · exact absurd rfl hne
        · refine ⟨.inr ⟨rfl, rfl⟩, ?_⟩
          rintro w (hw | ⟨-, rfl⟩)
          · exact absurd (mem_map_fst_collect.mpr (List.mem_map.mpr ⟨(k, w), hw, rfl⟩)) hk
          · exact le_rfl
        · obtain ⟨hmem, hgreatest⟩ := ih.mp hx
          constructor
          · rcases le_total x u with hxu | hux
            · exact .inr ⟨rfl, max_eq_right hxu⟩
            · exact .inl (by rwa [max_eq_left hux])
          · rintro w (hw | ⟨-, rfl⟩)
            · exact (hgreatest w hw).trans (le_max_left x u)
            · exact le_max_right x w
      · rintro ⟨hmem, hgreatest⟩
        refine .inr ⟨rfl, ?_⟩
        by_cases hk : k ∈ (collect xs).map Prod.fst
        · obtain ⟨⟨_, x⟩, hx, rfl⟩ := List.mem_map.mp hk
          obtain ⟨hxs, hbound⟩ := ih.mp hx
          refine .inr ⟨x, hx, le_antisymm ?_ (max_le (hgreatest x (.inl hxs)) (hgreatest u (.inr ⟨rfl, rfl⟩)))⟩
          rcases hmem with hmem | ⟨-, rfl⟩
          · exact (hbound v hmem).trans (le_max_left x u)
          · exact le_max_right x v
        · refine .inl ⟨hk, ?_⟩
          rcases hmem with hmem | ⟨-, hv⟩
          · exact absurd (mem_map_fst_collect.mpr (List.mem_map.mpr ⟨(k, v), hmem, rfl⟩)) hk
          · exact hv
    · simp [hkl, ih]

/-- What is not among the first of a sorted list comes after all of them, and they are as many as they may be. -/
theorem of_not_mem_take {α : Type} {r : α → α → Prop} {xs : List α} (h : xs.Pairwise r) {n : ℕ} {x : α} (hx : x ∈ xs)
    (hout : x ∉ xs.take n) : (xs.take n).length = n ∧ ∀ y ∈ xs.take n, r y x := by
  rw [← List.take_append_drop n xs] at h hx
  have hdrop := (List.mem_append.mp hx).resolve_left hout
  refine ⟨List.length_take_of_le (Nat.le_of_lt ?_), fun y hy => (List.pairwise_append.mp h).2.2 y hy x hdrop⟩
  by_contra hle
  rw [List.drop_eq_nil_of_le (not_lt.mp hle)] at hdrop
  exact List.not_mem_nil hdrop

end Greatest
