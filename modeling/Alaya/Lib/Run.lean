import Mathlib.Data.List.Induction

/-!
# Labelled runs of a step relation

`Run R s₀ tr s` says that the steps of `R`, taken one after another from `s₀`, reach `s` with the
labels `tr`, oldest first.  The library is independent of what the states and labels are:

* `Run.append` and `Run.split` cut a run at any point of its trace and glue the parts;
* `Run.invariant` packages the induction of every safety argument: what holds at the start and is
  kept by each step (given everything the trace says so far) holds in every state reached;
* `Run.project` maps a run of one system to a run of another along a partial map of labels:
  a label that maps to nothing must leave the image of the state alone.
-/

namespace Labelled

variable {σ τ ε ι : Type*}

/-- The states reachable from `s₀` by steps of `R`, with the labels passed on the way. -/
inductive Run (R : σ → ε → σ → Prop) (s₀ : σ) : List ε → σ → Prop
  | start : Run R s₀ [] s₀
  | step {tr : List ε} {s s' : σ} {e : ε} :
      Run R s₀ tr s → R s e s' → Run R s₀ (tr ++ [e]) s'

namespace Run

variable {R : σ → ε → σ → Prop} {s₀ s s' : σ} {tr : List ε} {e : ε}

theorem eq_of_nil (h : Run R s₀ [] s) : s = s₀ := by
  generalize htr : ([] : List ε) = tr at h
  cases h with
  | start => rfl
  | step _ _ => simp at htr

theorem last (h : Run R s₀ (tr ++ [e]) s') : ∃ s, Run R s₀ tr s ∧ R s e s' := by
  generalize htr : tr ++ [e] = tr' at h
  cases h with
  | start => simp at htr
  | step hrun hstep =>
    obtain ⟨rfl, he⟩ := List.append_inj' htr rfl
    obtain rfl : e = _ := by simpa using he
    exact ⟨_, hrun, hstep⟩

theorem single (h : R s e s') : Run R s [e] s' :=
  show Run R s ([] ++ [e]) s' from .step .start h

theorem append {tr' : List ε} (h : Run R s₀ tr s) (h' : Run R s tr' s') :
    Run R s₀ (tr ++ tr') s' := by
  induction h' with
  | start => simpa using h
  | step _ hstep ih =>
    rw [← List.append_assoc]
    exact ih.step hstep

theorem split {a b : List ε} (h : Run R s₀ (a ++ b) s) : ∃ m, Run R s₀ a m ∧ Run R m b s := by
  induction b using List.reverseRecOn generalizing s with
  | nil => exact ⟨s, by simpa using h, .start⟩
  | append_singleton b e ih =>
    rw [← List.append_assoc] at h
    obtain ⟨r, hrun, hstep⟩ := last h
    obtain ⟨m, ha, hb⟩ := ih hrun
    exact ⟨m, ha, hb.step hstep⟩

/-- The step that emitted the label `e`, with the runs before and after it. -/
theorem split_at {a b : List ε} (h : Run R s₀ (a ++ e :: b) s) :
    ∃ m m', Run R s₀ a m ∧ R m e m' ∧ Run R m' b s := by
  rw [← List.singleton_append, ← List.append_assoc] at h
  obtain ⟨m', hae, hb⟩ := split h
  obtain ⟨m, ha, hstep⟩ := last hae
  exact ⟨m, m', ha, hstep, hb⟩

/-- **Induction over a run.**  A property of the trace so far and the state reached that holds at
the start and survives each step holds at the end of every run. -/
theorem invariant (I : List ε → σ → Prop) (h0 : I [] s₀)
    (hstep : ∀ tr s e s', Run R s₀ tr s → I tr s → R s e s' → I (tr ++ [e]) s')
    (h : Run R s₀ tr s) : I tr s := by
  induction h with
  | start => exact h0
  | step hrun hR ih => exact hstep _ _ _ _ hrun ih hR

/-- A run of `R` projects to a run of `Q` along the state map `g` and the partial label map `f`,
when each step of `R` is a step of `Q` on the images or has no label and no effect there. -/
theorem project {Q : τ → ι → τ → Prop} (g : σ → τ) (f : ε → Option ι)
    (hsome : ∀ tr s e s' i, Run R s₀ tr s → R s e s' → f e = some i → Q (g s) i (g s'))
    (hnone : ∀ tr s e s', Run R s₀ tr s → R s e s' → f e = none → g s' = g s)
    (h : Run R s₀ tr s) : Run Q (g s₀) (tr.filterMap f) (g s) := by
  induction h with
  | start => exact .start
  | @step tr s s' e hrun hR ih =>
    rw [List.filterMap_append]
    cases hf : f e with
    | none =>
      have hsame := hnone _ _ _ _ hrun hR hf
      simpa [hf, hsame] using ih
    | some i =>
      have hone := hsome _ _ _ _ _ hrun hR hf
      simpa [hf] using ih.step hone

/-- What every step keeps of the state, whatever its label, a run keeps. -/
theorem preserves (P : σ → Prop) (h0 : P s₀) (hstep : ∀ s e s', P s → R s e s' → P s')
    (h : Run R s₀ tr s) : P s :=
  h.invariant (fun _ s => P s) h0 fun _ s e s' _ hP hR => hstep s e s' hP hR

end Run

/-! ### Runs of an executable step function -/

/-- Execute a schedule of actions, collecting the label each one emits; `none` when one of them is
not possible where it is tried. -/
def exec (step : σ → ι → Option (ε × σ)) : σ → List ι → Option (List ε × σ)
  | s, [] => some ([], s)
  | s, a :: as => do
    let (e, s') ← step s a
    let (tr, s'') ← exec step s' as
    return (e :: tr, s'')

/-- The step relation of an executable step function: some action leads there. -/
def Steps (step : σ → ι → Option (ε × σ)) (s : σ) (e : ε) (s' : σ) : Prop :=
  ∃ a, step s a = some (e, s')

theorem run_of_exec {step : σ → ι → Option (ε × σ)} {s s' : σ} {as : List ι} {tr : List ε}
    (h : exec step s as = some (tr, s')) : Run (Steps step) s tr s' := by
  induction as generalizing s tr with
  | nil =>
    obtain ⟨rfl, rfl⟩ : [] = tr ∧ s = s' := by simpa [exec] using h
    exact .start
  | cons a as ih =>
    cases hstep : step s a with
    | none => simp [exec, hstep] at h
    | some p =>
      obtain ⟨e, m⟩ := p
      cases hrest : exec step m as with
      | none => simp [exec, hstep, hrest] at h
      | some q =>
        obtain ⟨tr', s''⟩ := q
        obtain ⟨rfl, rfl⟩ : e :: tr' = tr ∧ s'' = s' := by simpa [exec, hstep, hrest] using h
        exact (Run.single ⟨a, hstep⟩).append (ih hrest)

/-- A schedule that emits `tr` is a run with that trace. -/
theorem run_of_trace {step : σ → ι → Option (ε × σ)} {s : σ} {tr : List ε} (as : List ι)
    (h : (exec step s as).map Prod.fst = some tr) : ∃ s', Run (Steps step) s tr s' := by
  obtain ⟨⟨_, s'⟩, hexec, rfl⟩ := Option.map_eq_some_iff.mp h
  exact ⟨s', run_of_exec hexec⟩

/-- The events that `f` lets happen one after another are a run of the steps that `f` takes. -/
theorem run_of_foldlM {R : σ → ε → σ → Prop} {f : σ → ε → Option σ} (hf : ∀ s e s', f s e = some s' → R s e s')
    {s s' : σ} {tr : List ε} (h : tr.foldlM f s = some s') : Run R s tr s' := by
  induction tr using List.reverseRecOn generalizing s' with
  | nil => exact Option.some.inj h ▸ .start
  | append_singleton tr e ih =>
    rw [List.foldlM_append] at h
    obtain ⟨v, hv, he⟩ := Option.bind_eq_some_iff.mp h
    obtain ⟨v', hv', hlast⟩ := Option.bind_eq_some_iff.mp he
    obtain rfl := Option.some.inj hlast
    exact (ih hv).step (hf _ _ _ hv')

end Labelled
