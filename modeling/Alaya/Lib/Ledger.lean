import Mathlib.Data.List.Basic
import Mathlib.Data.List.Nodup
import Mathlib.Logic.Function.Basic

/-!
# Tickets held in slots, each at most once

`Unique slot` says that no ticket is held twice: not twice in one slot, not in two slots.  It survives
the ways a system moves its tickets: dropping some (`shrink`), handing new ones to an empty-handed
slot (`issue`), spending one (`spend`) and passing one on (`move`).  A spent ticket is held nowhere
(`Unique.spent`).
-/

namespace Ledger

variable {S T : Type*} [DecidableEq S]

/-- No ticket is held twice. -/
structure Unique (slot : S → List T) : Prop where
  nodup : ∀ s, (slot s).Nodup
  same : ∀ {s s' : S} {t : T}, t ∈ slot s → t ∈ slot s' → s = s'

namespace Unique

variable {slot slot' : S → List T} {s : S} {t : T}

omit [DecidableEq S] in
theorem shrink (h : Unique slot) (hsub : ∀ s, (slot' s).Sublist (slot s)) : Unique slot' where
  nodup s := (h.nodup s).sublist (hsub s)
  same ht ht' := h.same ((hsub _).subset ht) ((hsub _).subset ht')

theorem update_shrink (h : Unique slot) {l : List T} (hsub : l.Sublist (slot s)) :
    Unique (Function.update slot s l) := by
  refine h.shrink fun s' => ?_
  by_cases hs : s' = s
  · subst hs
    simpa using hsub
  · simp [hs]

theorem issue (h : Unique slot) {l : List T} (hl : l.Nodup) (hnew : ∀ t ∈ l, ∀ s, t ∉ slot s) :
    Unique (Function.update slot s l) where
  nodup s' := by
    by_cases hs : s' = s
    · subst hs
      simpa using hl
    · simpa [hs] using h.nodup s'
  same {a b t} ha hb := by
    by_cases has : a = s <;> by_cases hbs : b = s
    · rw [has, hbs]
    · subst has
      simp only [Function.update_self] at ha
      rw [Function.update_of_ne hbs] at hb
      exact absurd hb (hnew t ha b)
    · subst hbs
      simp only [Function.update_self] at hb
      rw [Function.update_of_ne has] at ha
      exact absurd ha (hnew t hb a)
    · rw [Function.update_of_ne has] at ha
      rw [Function.update_of_ne hbs] at hb
      exact h.same ha hb

/-- What is left of a slot after `t` was taken out of it. -/
theorem spent (h : Unique slot) {a b l : List T} (hs : slot s = a ++ t :: b)
    (hsub : l.Sublist (a ++ b)) (s' : S) : t ∉ Function.update slot s l s' := by
  have hmem : t ∈ slot s := by simp [hs]
  by_cases hs' : s' = s
  · subst hs'
    intro ht
    rw [Function.update_self] at ht
    have hnodup := h.nodup s'
    rw [hs, List.nodup_middle] at hnodup
    exact (List.nodup_cons.mp hnodup).1 (hsub.subset ht)
  · rw [Function.update_of_ne hs']
    intro ht
    exact hs' (h.same ht hmem)

theorem spend (h : Unique slot) {a b l : List T} (hs : slot s = a ++ t :: b)
    (hsub : l.Sublist (a ++ b)) : Unique (Function.update slot s l) := by
  refine h.update_shrink (hsub.trans ?_)
  rw [hs]
  exact (List.sublist_cons_self t b).append_left a

/-- Take `t` out of one slot and put it at the head of another. -/
theorem move (h : Unique slot) {a b l : List T} {s' : S} (hs : slot s = a ++ t :: b)
    (hsub : l.Sublist (a ++ b)) (hne : s' ≠ s) :
    Unique (Function.update (Function.update slot s l) s' (t :: slot s')) := by
  have hspend := h.spend hs hsub
  have hspent := h.spent hs hsub
  have hold : Function.update slot s l s' = slot s' := Function.update_of_ne hne ..
  refine ⟨fun r => ?_, fun {r r' u} hr hr' => ?_⟩
  · by_cases hrs : r = s'
    · subst hrs
      rw [Function.update_self, List.nodup_cons, ← hold]
      exact ⟨hspent r, hspend.nodup r⟩
    · rw [Function.update_of_ne hrs]
      exact hspend.nodup r
  · -- the moved ticket is held nowhere else; every other one stays where it was
    have hcases : ∀ r, u ∈ Function.update (Function.update slot s l) s' (t :: slot s') r →
        (r = s' ∧ u = t) ∨ u ∈ Function.update slot s l r := by
      intro r hu
      by_cases hrs : r = s'
      · subst hrs
        rw [Function.update_self] at hu
        rcases List.mem_cons.mp hu with rfl | hu
        · exact .inl ⟨rfl, rfl⟩
        · exact .inr (by rwa [hold])
      · rw [Function.update_of_ne hrs] at hu
        exact .inr hu
    rcases hcases r hr with ⟨rfl, rfl⟩ | hu <;> rcases hcases r' hr' with ⟨rfl, hut⟩ | hu'
    · rfl
    · exact absurd hu' (hspent r')
    · exact absurd (hut ▸ hu) (hspent r)
    · exact hspend.same hu hu'

end Unique

end Ledger
