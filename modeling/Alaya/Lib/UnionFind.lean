import Mathlib.Data.Fintype.Card
import Mathlib.Data.List.Basic
import Mathlib.Logic.Relation

/-!
# Disjoint sets

A union-find forest with path compression and union by rank.  A look-up recurses up the parents, so it
is written with fuel.  Ranks grow along the parents (`Ranked`), which bounds every walk by the number of
elements: with that much fuel `find` ends, and it names the root.  Compression keeps all roots, a union
merges two of the classes, and after a list of unions the classes are those of the equivalence relation
the pairs generate (`unions_iff_eqvGen`).
-/

structure UnionFind (α : Type*) where
  parent : α → α
  rank : α → ℕ

namespace UnionFind

variable {α : Type*}

/-- Every element alone. -/
def singletons : UnionFind α where
  parent := id
  rank := fun _ => 0

section Operations

variable [DecidableEq α]

def setParent (uf : UnionFind α) (x p : α) : UnionFind α :=
  { uf with parent := Function.update uf.parent x p }

def raise (uf : UnionFind α) (x : α) : UnionFind α :=
  { uf with rank := Function.update uf.rank x (uf.rank x + 1) }

/-- The root of `x`, with the path to it compressed; `none` where the fuel is spent. -/
def find : ℕ → UnionFind α → α → Option (UnionFind α × α)
  | 0, _, _ => none
  | fuel + 1, uf, x =>
    if uf.parent x = x then some (uf, x)
    else (find fuel uf (uf.parent x)).map fun p => (p.1.setParent x p.2, p.2)

/-- Merge two roots: the one of smaller rank goes below the other. -/
def link (uf : UnionFind α) (rx ry : α) : UnionFind α :=
  if rx = ry then uf
  else match compare (uf.rank rx) (uf.rank ry) with
    | .lt => uf.setParent rx ry
    | .gt => uf.setParent ry rx
    | .eq => (uf.setParent ry rx).raise rx

def union (fuel : ℕ) (uf : UnionFind α) (x y : α) : Option (UnionFind α) := do
  let (uf, rx) ← find fuel uf x
  let (uf, ry) ← find fuel uf y
  return uf.link rx ry

def unions (fuel : ℕ) (uf : UnionFind α) (pairs : List (α × α)) : Option (UnionFind α) :=
  pairs.foldlM (fun uf p => union fuel uf p.1 p.2) uf

/-- The forests that look-ups and unions reach. -/
inductive Reached : UnionFind α → Prop
  | singletons : Reached singletons
  | find {fuel : ℕ} {uf uf' : UnionFind α} {x r : α} :
      Reached uf → find fuel uf x = some (uf', r) → Reached uf'
  | union {fuel : ℕ} {uf uf' : UnionFind α} {x y : α} :
      Reached uf → union fuel uf x y = some uf' → Reached uf'

end Operations

/-- Ranks grow along the parents. -/
def Ranked (uf : UnionFind α) : Prop := ∀ x, uf.parent x ≠ x → uf.rank x < uf.rank (uf.parent x)

theorem ranked_singletons : Ranked (singletons : UnionFind α) := fun _ h => absurd rfl h

section Ranked

variable [DecidableEq α]

theorem ranked_setParent {uf : UnionFind α} (h : Ranked uf) {x p : α} (hp : p ≠ x → uf.rank x < uf.rank p) :
    Ranked (uf.setParent x p) := by
  intro y hy
  by_cases hyx : y = x
  · subst hyx
    simp only [setParent, Function.update_self] at hy ⊢
    exact hp hy
  · simp only [setParent, Function.update_of_ne hyx] at hy ⊢
    exact h y hy

theorem ranked_link {uf : UnionFind α} (h : Ranked uf) {rx ry : α} (hx : uf.parent rx = rx)
    (hy : uf.parent ry = ry) : Ranked (uf.link rx ry) := by
  unfold link
  split
  · exact h
  · rename_i hne
    cases hcmp : compare (uf.rank rx) (uf.rank ry) with
    | lt => exact ranked_setParent h fun _ => Nat.compare_eq_lt.mp hcmp
    | gt => exact ranked_setParent h fun _ => Nat.compare_eq_gt.mp hcmp
    | eq =>
      have hrank := Nat.compare_eq_eq.mp hcmp
      intro z hz
      simp only [raise, setParent] at hz ⊢
      by_cases hzy : z = ry
      · subst hzy
        simp only [Function.update_self, Function.update_of_ne (Ne.symm hne)]
        omega
      · simp only [Function.update_of_ne hzy] at hz ⊢
        have hlt := h z hz
        have hzx : z ≠ rx := by
          rintro rfl
          exact hz hx
        rw [Function.update_of_ne hzx]
        by_cases hp : uf.parent z = rx
        · rw [hp, Function.update_self]
          rw [hp] at hlt
          omega
        · rwa [Function.update_of_ne hp]

end Ranked

/-! ## Roots -/

variable [Fintype α]

/-- How many elements rank higher than `x`: no walk from `x` is longer. -/
def above (uf : UnionFind α) (x : α) : ℕ := (Finset.univ.filter fun y => uf.rank x < uf.rank y).card

/-- The end of the walk up from `x`. -/
def root (uf : UnionFind α) (x : α) : α := uf.parent^[Fintype.card α] x

theorem above_lt_card (uf : UnionFind α) (x : α) : uf.above x < Fintype.card α := by
  refine Finset.card_lt_univ_of_notMem (x := x) ?_
  simp

theorem above_parent_lt {uf : UnionFind α} (h : Ranked uf) {x : α} (hx : uf.parent x ≠ x) :
    uf.above (uf.parent x) < uf.above x := by
  apply Finset.card_lt_card
  rw [Finset.ssubset_iff_of_subset]
  · exact ⟨uf.parent x, by simpa using h x hx, by simp⟩
  · intro y hy
    simp only [Finset.mem_filter, Finset.mem_univ, true_and] at hy ⊢
    exact (h x hx).trans hy

/-- A walk that is long enough stands at a root. -/
theorem parent_iterate {uf : UnionFind α} (h : Ranked uf) :
    ∀ (k : ℕ) (x : α), uf.above x ≤ k → uf.parent (uf.parent^[k] x) = uf.parent^[k] x := by
  intro k
  induction k with
  | zero =>
    intro x hk
    by_contra hx
    exact absurd (above_parent_lt h hx) (by simp only [Function.iterate_zero, id_eq] at hk ⊢; omega)
  | succ k ih =>
    intro x hk
    by_cases hx : uf.parent x = x
    · simp only [Function.iterate_fixed hx, hx]
    · have hlt := above_parent_lt h hx
      rw [Function.iterate_succ_apply]
      exact ih (uf.parent x) (by omega)

theorem parent_root {uf : UnionFind α} (h : Ranked uf) (x : α) : uf.parent (uf.root x) = uf.root x :=
  parent_iterate h _ x (above_lt_card uf x).le

theorem root_parent {uf : UnionFind α} (h : Ranked uf) (x : α) : uf.root (uf.parent x) = uf.root x := by
  unfold root
  rw [← Function.iterate_succ_apply, Function.iterate_succ_apply']
  exact parent_root h x

theorem root_of_isRoot {uf : UnionFind α} {r : α} (hr : uf.parent r = r) : uf.root r = r :=
  Function.iterate_fixed hr _

theorem root_root {uf : UnionFind α} (h : Ranked uf) (x : α) : uf.root (uf.root x) = uf.root x :=
  root_of_isRoot (parent_root h x)

/-- A function that is constant along the parents and fixes the roots is the root. -/
theorem eq_root {uf : UnionFind α} (h : Ranked uf) {f : α → α} (hparent : ∀ x, f (uf.parent x) = f x)
    (hroot : ∀ x, uf.parent x = x → f x = x) (x : α) : f x = uf.root x := by
  have hwalk : ∀ k, f (uf.parent^[k] x) = f x := by
    intro k
    induction k with
    | zero => rfl
    | succ k ih => rw [Function.iterate_succ_apply', hparent, ih]
  calc f x = f (uf.root x) := (hwalk _).symm
    _ = uf.root x := hroot _ (parent_root h x)

theorem rank_le_rank_root {uf : UnionFind α} (h : Ranked uf) (x : α) : uf.rank x ≤ uf.rank (uf.root x) := by
  have hwalk : ∀ k, uf.rank x ≤ uf.rank (uf.parent^[k] x) := by
    intro k
    induction k with
    | zero => exact le_rfl
    | succ k ih =>
      rw [Function.iterate_succ_apply']
      by_cases hk : uf.parent (uf.parent^[k] x) = uf.parent^[k] x
      · rwa [hk]
      · exact ih.trans (h _ hk).le
  exact hwalk _

section Operations

variable [DecidableEq α]

/-! ## One pointer changed -/

/-- Compression: a pointer moved to its root. -/
theorem setParent_root {uf : UnionFind α} (h : Ranked uf) {x : α} (hx : uf.parent x ≠ x) :
    Ranked (uf.setParent x (uf.root x)) ∧ ∀ y, (uf.setParent x (uf.root x)).root y = uf.root y := by
  have hlt : uf.rank x < uf.rank (uf.root x) :=
    calc uf.rank x < uf.rank (uf.parent x) := h x hx
      _ ≤ uf.rank (uf.root (uf.parent x)) := rank_le_rank_root h _
      _ = uf.rank (uf.root x) := by rw [root_parent h]
  have hranked : Ranked (uf.setParent x (uf.root x)) := ranked_setParent h fun _ => hlt
  refine ⟨hranked, fun y => (eq_root hranked ?_ ?_ y).symm⟩
  · intro y
    by_cases hyx : y = x
    · subst hyx
      simp only [setParent, Function.update_self, root_root h]
    · simp only [setParent, Function.update_of_ne hyx, root_parent h]
  · intro y hy
    by_cases hyx : y = x
    · subst hyx
      simpa only [setParent, Function.update_self] using hy
    · simp only [setParent, Function.update_of_ne hyx] at hy
      exact root_of_isRoot hy

/-- A root put below another one: its class moves there. -/
theorem root_setParent {uf : UnionFind α} (h : Ranked uf) {rx ry : α} (hx : uf.parent rx = rx)
    (hy : uf.parent ry = ry) (hne : rx ≠ ry) {uf' : UnionFind α} (h' : Ranked uf')
    (hparent : uf'.parent = (uf.setParent rx ry).parent) (a : α) :
    uf'.root a = if uf.root a = rx then ry else uf.root a := by
  refine (eq_root h' (f := fun a => if uf.root a = rx then ry else uf.root a) ?_ ?_ a).symm
  · intro b
    rw [hparent]
    by_cases hb : b = rx
    · subst hb
      simp [setParent, root_of_isRoot hx, root_of_isRoot hy, hne.symm]
    · simp only [setParent, Function.update_of_ne hb, root_parent h]
  · intro b hb
    rw [hparent] at hb
    by_cases hbx : b = rx
    · subst hbx
      simp only [setParent, Function.update_self] at hb
      exact absurd hb.symm hne
    · simp only [setParent, Function.update_of_ne hbx] at hb
      simp [root_of_isRoot hb, hbx]

/-! ## Look-ups and unions -/

/-- A look-up names the root, and no root changes. -/
theorem find_spec : ∀ {fuel : ℕ} {uf uf' : UnionFind α} {x r : α}, Ranked uf →
    find fuel uf x = some (uf', r) → Ranked uf' ∧ r = uf.root x ∧ ∀ y, uf'.root y = uf.root y := by
  intro fuel
  induction fuel with
  | zero => exact fun _ hfind => by simp [find] at hfind
  | succ fuel ih =>
    intro uf uf' x r h hfind
    by_cases hx : uf.parent x = x
    · simp only [find, if_pos hx, Option.some.injEq, Prod.mk.injEq] at hfind
      obtain ⟨rfl, rfl⟩ := hfind
      exact ⟨h, (root_of_isRoot hx).symm, fun _ => rfl⟩
    · simp only [find, if_neg hx, Option.map_eq_some_iff, Prod.mk.injEq] at hfind
      obtain ⟨⟨uf₁, r₁⟩, hfind₁, rfl, rfl⟩ := hfind
      obtain ⟨h₁, rfl, hroot₁⟩ := ih h hfind₁
      -- The look-up above may have moved the parent of `x`, but did not make it a root.
      have hx₁ : uf₁.parent x ≠ x := by
        intro hself
        have hr : uf.root x = x := by rw [← hroot₁, root_of_isRoot hself]
        exact hx (by rw [← hr]; exact parent_root h x)
      obtain ⟨h₂, hroot₂⟩ := setParent_root h₁ hx₁
      have hr : uf.root (uf.parent x) = uf₁.root x := by rw [root_parent h, hroot₁]
      simp only [hr]
      exact ⟨h₂, hroot₁ x, fun y => (hroot₂ y).trans (hroot₁ y)⟩

theorem isSome_find : ∀ (fuel : ℕ) {uf : UnionFind α} (x : α), Ranked uf → uf.above x < fuel →
    (find fuel uf x).isSome := by
  intro fuel
  induction fuel with
  | zero => exact fun x _ hfuel => absurd hfuel (Nat.not_lt_zero _)
  | succ fuel ih =>
    intro uf x h hfuel
    by_cases hx : uf.parent x = x
    · simp [find, hx]
    · have hlt := above_parent_lt h hx
      simp only [find, if_neg hx, Option.isSome_map]
      exact ih (uf.parent x) h (by omega)

/-- As much fuel as there are elements is enough. -/
theorem find_ends {uf : UnionFind α} (h : Ranked uf) (x : α) {fuel : ℕ} (hfuel : Fintype.card α ≤ fuel) :
    ∃ uf', find fuel uf x = some (uf', uf.root x) ∧ Ranked uf' ∧ ∀ y, uf'.root y = uf.root y := by
  obtain ⟨⟨uf', r⟩, hfind⟩ :=
    Option.isSome_iff_exists.mp (isSome_find fuel x h ((above_lt_card uf x).trans_le hfuel))
  obtain ⟨h', rfl, hroot⟩ := find_spec h hfind
  exact ⟨uf', hfind, h', hroot⟩

/-- Linking two roots merges their classes. -/
theorem root_link {uf : UnionFind α} (h : Ranked uf) {rx ry : α} (hx : uf.parent rx = rx)
    (hy : uf.parent ry = ry) (a b : α) :
    (uf.link rx ry).root a = (uf.link rx ry).root b ↔
      uf.root a = uf.root b ∨ (uf.root a = rx ∧ uf.root b = ry) ∨ (uf.root a = ry ∧ uf.root b = rx) := by
  by_cases hne : rx = ry
  · subst hne
    simp only [link, if_true]
    constructor
    · exact fun hab => Or.inl hab
    · rintro (hab | ⟨ha, hb⟩ | ⟨ha, hb⟩)
      · exact hab
      · exact ha.trans hb.symm
      · exact ha.trans hb.symm
  · have h' := ranked_link h hx hy
    -- One of the two roots keeps its place.
    have hroots : (∀ c, (uf.link rx ry).root c = if uf.root c = rx then ry else uf.root c) ∨
        ∀ c, (uf.link rx ry).root c = if uf.root c = ry then rx else uf.root c := by
      cases hcmp : compare (uf.rank rx) (uf.rank ry) with
      | lt => exact Or.inl (root_setParent h hx hy hne h' (by simp [link, hne, hcmp]))
      | gt => exact Or.inr (root_setParent h hy hx (Ne.symm hne) h' (by simp [link, hne, hcmp]))
      | eq => exact Or.inr (root_setParent h hy hx (Ne.symm hne) h' (by simp [link, hne, hcmp, raise]))
    rcases hroots with hroot | hroot
    · rw [hroot, hroot]
      split <;> split <;> grind
    · rw [hroot, hroot]
      split <;> split <;> grind

/-- A union merges the classes of its two elements. -/
theorem union_spec {uf uf' : UnionFind α} (h : Ranked uf) {fuel : ℕ} {x y : α}
    (hunion : union fuel uf x y = some uf') : Ranked uf' ∧ ∀ a b, uf'.root a = uf'.root b ↔
      uf.root a = uf.root b ∨ (uf.root a = uf.root x ∧ uf.root b = uf.root y) ∨
        (uf.root a = uf.root y ∧ uf.root b = uf.root x) := by
  simp only [union, Option.bind_eq_bind, Option.bind_eq_some_iff, Option.pure_def, Option.some.injEq] at hunion
  obtain ⟨⟨uf₁, rx⟩, hfind₁, ⟨uf₂, ry⟩, hfind₂, rfl⟩ := hunion
  obtain ⟨h₁, rfl, hroot₁⟩ := find_spec h hfind₁
  obtain ⟨h₂, hry, hroot₂⟩ := find_spec h₁ hfind₂
  have hroots : ∀ a, uf₂.root a = uf.root a := fun a => (hroot₂ a).trans (hroot₁ a)
  have hisRoot : ∀ a, uf₂.parent (uf.root a) = uf.root a := fun a => by
    rw [← hroots]
    exact parent_root h₂ a
  rw [hroot₁] at hry
  subst hry
  refine ⟨ranked_link h₂ (hisRoot x) (hisRoot y), fun a b => ?_⟩
  rw [root_link h₂ (hisRoot x) (hisRoot y), hroots, hroots]

theorem isSome_union {uf : UnionFind α} (h : Ranked uf) (x y : α) {fuel : ℕ}
    (hfuel : Fintype.card α ≤ fuel) : (union fuel uf x y).isSome := by
  obtain ⟨uf₁, hfind₁, h₁, -⟩ := find_ends h x hfuel
  obtain ⟨uf₂, hfind₂, -⟩ := find_ends h₁ y hfuel
  simp [union, hfind₁, hfind₂]

/-! ## Runs -/

theorem Reached.ranked {uf : UnionFind α} (h : Reached uf) : Ranked uf := by
  induction h with
  | singletons => exact ranked_singletons
  | find _ hfind ih => exact (find_spec ih hfind).1
  | union _ hunion ih => exact (union_spec ih hunion).1

theorem isSome_unions {fuel : ℕ} (hfuel : Fintype.card α ≤ fuel) (pairs : List (α × α)) :
    ∀ {uf : UnionFind α}, Ranked uf → (unions fuel uf pairs).isSome := by
  induction pairs with
  | nil => exact fun _ => rfl
  | cons p pairs ih =>
    intro uf h
    obtain ⟨uf₁, hunion⟩ := Option.isSome_iff_exists.mp (isSome_union h p.1 p.2 hfuel)
    have hrest := ih (union_spec h hunion).1
    simpa [unions, List.foldlM_cons, hunion] using hrest

/-- What a list of unions joins: the old classes and the pairs, and nothing that an equivalence relation
with these does not join. -/
theorem unions_spec {fuel : ℕ} (pairs : List (α × α)) : ∀ {uf uf' : UnionFind α}, Ranked uf →
    unions fuel uf pairs = some uf' → Ranked uf' ∧
      (∀ a b, uf.root a = uf.root b → uf'.root a = uf'.root b) ∧
      (∀ p ∈ pairs, uf'.root p.1 = uf'.root p.2) ∧
      ∀ E : Setoid α, (∀ a b, uf.root a = uf.root b → E a b) → (∀ p ∈ pairs, E p.1 p.2) →
        ∀ a b, uf'.root a = uf'.root b → E a b := by
  induction pairs with
  | nil =>
    intro uf uf' h hrun
    obtain rfl : uf = uf' := by simpa [unions] using hrun
    exact ⟨h, fun _ _ hab => hab, by simp, fun E hE _ => hE⟩
  | cons p pairs ih =>
    intro uf uf' h hrun
    simp only [unions, List.foldlM_cons, Option.bind_eq_bind, Option.bind_eq_some_iff] at hrun
    obtain ⟨uf₁, hunion, hrest⟩ := hrun
    obtain ⟨h₁, hjoin⟩ := union_spec h hunion
    obtain ⟨h', hkeep, hpairs, hleast⟩ := ih h₁ hrest
    refine ⟨h', fun a b hab => hkeep a b ((hjoin a b).mpr (Or.inl hab)), ?_, fun E hE hEp => ?_⟩
    · intro q hq
      rcases List.mem_cons.mp hq with rfl | hq
      · exact hkeep _ _ ((hjoin _ _).mpr (Or.inr (Or.inl ⟨rfl, rfl⟩)))
      · exact hpairs q hq
    · apply hleast E _ fun q hq => hEp q (List.mem_cons_of_mem _ hq)
      intro a b hab
      have hp : E p.1 p.2 := hEp p List.mem_cons_self
      rcases (hjoin a b).mp hab with hab | ⟨ha, hb⟩ | ⟨ha, hb⟩
      · exact hE a b hab
      · exact Setoid.trans (hE _ _ ha) (Setoid.trans hp (Setoid.symm (hE _ _ hb)))
      · exact Setoid.trans (hE _ _ ha) (Setoid.trans (Setoid.symm hp) (Setoid.symm (hE _ _ hb)))

/-- From single elements, the classes are those the pairs generate. -/
theorem unions_iff_eqvGen {fuel : ℕ} {pairs : List (α × α)} {uf : UnionFind α}
    (hrun : unions fuel singletons pairs = some uf) (a b : α) :
    uf.root a = uf.root b ↔ Relation.EqvGen (fun a b => (a, b) ∈ pairs) a b := by
  obtain ⟨-, -, hpairs, hleast⟩ := unions_spec pairs ranked_singletons hrun
  constructor
  · apply hleast (Relation.EqvGen.setoid fun a b => (a, b) ∈ pairs)
    · intro c d hcd
      have hsame : c = d := by
        rwa [root_of_isRoot (rfl : singletons.parent c = c), root_of_isRoot (rfl : singletons.parent d = d)]
          at hcd
      exact hsame ▸ Relation.EqvGen.refl c
    · exact fun p hp => Relation.EqvGen.rel _ _ hp
  · intro h
    induction h with
    | rel c d hcd => exact hpairs (c, d) hcd
    | refl c => rfl
    | symm c d _ ih => exact ih.symm
    | trans c d e _ _ ih₁ ih₂ => exact ih₁.trans ih₂

end Operations

end UnionFind
