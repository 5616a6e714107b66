import Mathlib.Logic.Function.Basic
import Mathlib.Logic.Relation

/-!
# Chains of a partial successor function

`next` gives each element at most one successor.  `Ends next a` says that the chain from `a` stops
after finitely many steps, `Reach next a b` that it passes through `b`.  The library says what one
edit of `next` does to both:

* `ends_clear`: taking a successor away keeps every chain finite;
* `ends_update`: giving `x` the successor `y` keeps every chain finite when `y` does not reach `x`,
  and `not_ends_update` says that otherwise the chain of `x` does not end;
* `Ends.exists_end` and `Ends.not_cycle` are what a finite chain is good for.
-/

namespace Chain

variable {κ : Type*} {next : κ → Option κ} {a b x y : κ}

/-- The chain from an element stops. -/
inductive Ends (next : κ → Option κ) : κ → Prop
  | stop {a : κ} : next a = none → Ends next a
  | step {a b : κ} : next a = some b → Ends next b → Ends next a

/-- One step of a chain. -/
def Step (next : κ → Option κ) (a b : κ) : Prop := next a = some b

/-- The chain from `a` passes through `b`. -/
def Reach (next : κ → Option κ) : κ → κ → Prop := Relation.ReflTransGen (Step next)

theorem Reach.refl (a : κ) : Reach next a a := Relation.ReflTransGen.refl

theorem Reach.head (h : next a = some b) (h' : Reach next b x) : Reach next a x :=
  Relation.ReflTransGen.head h h'

/-- A finite chain ends in an element without a successor. -/
theorem Ends.exists_end (h : Ends next a) : ∃ e, Reach next a e ∧ next e = none := by
  induction h with
  | stop hnone => exact ⟨_, .refl _, hnone⟩
  | step hsome _ ih =>
    obtain ⟨e, hreach, hnone⟩ := ih
    exact ⟨e, hreach.head hsome, hnone⟩

/-- A finite chain does not come back to where it was. -/
theorem Ends.not_cycle (h : Ends next a) : ¬Relation.TransGen (Step next) a a := by
  induction h with
  | stop hnone =>
    intro hcycle
    obtain ⟨b, hstep, -⟩ := Relation.TransGen.head'_iff.mp hcycle
    exact absurd (hnone.symm.trans hstep) nofun
  | @step a b hsome _ ih =>
    intro hcycle
    obtain ⟨c, hstep, hback⟩ := Relation.TransGen.head'_iff.mp hcycle
    obtain rfl : b = c := Option.some.inj (hsome.symm.trans hstep)
    -- The cycle through `a` is one through its successor.
    exact ih (Relation.TransGen.tail' hback hstep)

section

variable [DecidableEq κ]

/-- A chain that does not pass through `x` is the same after an edit at `x`. -/
theorem reach_update (v : Option κ) (hx : ¬Reach next a x) :
    Reach (Function.update next x v) a b ↔ Reach next a b := by
  have hstep : ∀ c d, Reach next a c → (Step (Function.update next x v) c d ↔ Step next c d) := by
    intro c d hc
    have hne : c ≠ x := by
      rintro rfl
      exact hx hc
    rw [Step, Function.update_of_ne hne, Step]
  constructor
  · intro h
    induction h with
    | refl => exact .refl _
    | tail _ hlast ih => exact ih.tail ((hstep _ _ ih).mp hlast)
  · intro h
    induction h with
    | refl => exact .refl _
    | tail hpre hlast ih => exact ih.tail ((hstep _ _ hpre).mpr hlast)

/-- Without the successor of `x` a chain passes through no more than before. -/
theorem Reach.of_clear (h : Reach (Function.update next x none) a b) : Reach next a b := by
  induction h with
  | refl => exact .refl _
  | @tail c d _ hlast ih =>
    have hcx : c ≠ x := by
      rintro rfl
      rw [Step, Function.update_self] at hlast
      cases hlast
    rw [Step, Function.update_of_ne hcx] at hlast
    exact ih.tail hlast

theorem ends_update_iff (v : Option κ) (hx : ¬Reach next a x) :
    Ends (Function.update next x v) a ↔ Ends next a := by
  have hne : a ≠ x := by
    rintro rfl
    exact hx (.refl _)
  constructor
  · intro h
    induction h with
    | stop hnone =>
      rw [Function.update_of_ne hne] at hnone
      exact .stop hnone
    | step hsome _ ih =>
      rw [Function.update_of_ne hne] at hsome
      have hrest : ¬Reach next _ x := fun hr => hx (hr.head hsome)
      exact .step hsome (ih hrest fun h => hrest (h ▸ .refl _))
  · intro h
    induction h with
    | stop hnone => exact .stop (by rw [Function.update_of_ne hne]; exact hnone)
    | step hsome _ ih =>
      have hrest : ¬Reach next _ x := fun hr => hx (hr.head hsome)
      exact .step (by rw [Function.update_of_ne hne]; exact hsome)
        (ih hrest fun h => hrest (h ▸ .refl _))

/-- Every chain that reaches `x` goes on with the chain of `x`. -/
theorem ends_of_ends_update (v : Option κ) (hall : ∀ a, Ends next a)
    (hx : Ends (Function.update next x v) x) (a : κ) : Ends (Function.update next x v) a := by
  induction hall a with
  | @stop a hnone =>
    by_cases hax : a = x
    · exact hax ▸ hx
    · exact .stop (by rw [Function.update_of_ne hax]; exact hnone)
  | @step a b hsome _ ih =>
    by_cases hax : a = x
    · exact hax ▸ hx
    · exact .step (by rw [Function.update_of_ne hax]; exact hsome) ih

/-- **Taking a successor away keeps every chain finite.** -/
theorem ends_clear (hall : ∀ a, Ends next a) (x a : κ) : Ends (Function.update next x none) a :=
  ends_of_ends_update none hall (.stop (Function.update_self ..)) a

/-- **A new successor that does not lead back keeps every chain finite.** -/
theorem ends_update (hall : ∀ a, Ends next a) (hy : ¬Reach next y x) (a : κ) :
    Ends (Function.update next x (some y)) a :=
  ends_of_ends_update (some y) hall
    (.step (Function.update_self ..) ((ends_update_iff _ hy).mpr (hall y))) a

end

end Chain
