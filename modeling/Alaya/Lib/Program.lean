import Alaya.Lib.Run
import Mathlib.Data.Finset.Dedup
import Mathlib.Data.Fintype.Defs
import Mathlib.Logic.Function.Basic

/-!
# Programs of atomic calls

A `Program` makes calls one after another and goes on from each answer; a server answers a call in
one step on its state.  A program runs alone (`Program.run`), or in a `Pool` of programs that share
one server, where each step makes the next call of one of them.  The library is independent of the
calls and of the server:

* `Program.Makes` bounds the calls a program can make, whatever it is answered, and
  `Program.run_invariant` keeps an invariant of the server along a program that runs alone;
* `Program.wp` is what a program that runs alone ends in, with its rules for sequences;
* `Program.MakesIn` bounds the calls of a program whose answers come from the states of an invariant,
  which `Pool.invariant_run` keeps along an interleaving;
* `Program.Reaches` is what a program brings about whatever the others do, and `Pool.reaches_run` that
  it has by the time it returns;
* `Program.Follows` says what a program does next after each call, and `Pool.follows_step` keeps it
  along an interleaving;
* `Pool.step_eq_some` is the inversion of one step, and `Pool.exists_run` runs a pool to its end.
-/

namespace Interleave

open Labelled

/-- A program that makes calls `c : κ`, is answered with a `ρ c`, and returns an `α`. -/
inductive Program {κ : Type} (ρ : κ → Type) (α : Type) where
  | done (a : α)
  | call (c : κ) (next : ρ c → Program ρ α)

/-- How a server answers a call, and the state it is in afterwards. -/
abbrev Server {κ : Type} (ρ : κ → Type) (σ : Type) := (c : κ) → σ → ρ c × σ

variable {κ σ α β : Type} {ρ : κ → Type}

namespace Program

def bind : Program ρ α → (α → Program ρ β) → Program ρ β
  | done a, f => f a
  | call c next, f => call c fun r => (next r).bind f

instance : Monad (Program ρ) where
  pure := done
  bind := bind

/-- Make one call and return its answer. -/
def ask (c : κ) : Program ρ (ρ c) := call c done

theorem bind_done (p : Program ρ α) : p >>= done = p := by
  induction p with
  | done a => rfl
  | call c next ih => exact congrArg (call c) (funext ih)

theorem bind_bind {γ : Type} (p : Program ρ α) (f : α → Program ρ β) (g : β → Program ρ γ) :
    p >>= f >>= g = p >>= fun a => f a >>= g := by
  induction p with
  | done a => rfl
  | call c next ih => exact congrArg (call c) (funext ih)

instance : LawfulMonad (Program ρ) :=
  LawfulMonad.mk' _ (fun p => bind_done p) (fun _ _ => rfl) bind_bind

/-! ### A program that runs alone -/

/-- What a program returns when it runs alone, and the state it leaves. -/
def run (serve : Server ρ σ) : Program ρ α → σ → α × σ
  | done a, s => (a, s)
  | call c next, s => (next (serve c s).1).run serve (serve c s).2

@[simp] theorem run_call (serve : Server ρ σ) (c : κ) (next : ρ c → Program ρ α) (s : σ) :
    (call c next).run serve s = (next (serve c s).1).run serve (serve c s).2 := rfl

theorem run_bind (serve : Server ρ σ) (p : Program ρ α) (f : α → Program ρ β) (s : σ) :
    (p >>= f).run serve s = (f (p.run serve s).1).run serve (p.run serve s).2 := by
  induction p generalizing s with
  | done a => rfl
  | call c next ih => exact ih _ _

/-- The calls a program makes when it runs alone. -/
def calls (serve : Server ρ σ) : Program ρ α → σ → List κ
  | done _, _ => []
  | call c next, s => c :: (next (serve c s).1).calls serve (serve c s).2

/-- Every call the program can make satisfies `P`. -/
def Makes (P : κ → Prop) : Program ρ α → Prop
  | done _ => True
  | call c next => P c ∧ ∀ r, (next r).Makes P

theorem Makes.done {P : κ → Prop} (a : α) : (Program.done a : Program ρ α).Makes P := trivial

theorem Makes.bind {P : κ → Prop} {p : Program ρ α} {f : α → Program ρ β} (h : p.Makes P)
    (hf : ∀ a, (f a).Makes P) : (p >>= f).Makes P := by
  induction p with
  | done a => exact hf a
  | call c next ih => exact ⟨h.1, fun r => ih r (h.2 r)⟩

theorem Makes.mono {P Q : κ → Prop} {p : Program ρ α} (h : p.Makes P) (hPQ : ∀ c, P c → Q c) :
    p.Makes Q := by
  induction p with
  | done a => trivial
  | call c next ih => exact ⟨hPQ c h.1, fun r => ih r (h.2 r)⟩

theorem Makes.mem_calls {P : κ → Prop} {p : Program ρ α} (h : p.Makes P) (serve : Server ρ σ) (s : σ) :
    ∀ c ∈ p.calls serve s, P c := by
  induction p generalizing s with
  | done a => exact nofun
  | call c next ih => exact List.forall_mem_cons.mpr ⟨h.1, ih _ (h.2 _) _⟩

/-- Whatever the program is answered, what it returns satisfies `R`. -/
def Returns (R : α → Prop) : Program ρ α → Prop
  | done a => R a
  | call _ next => ∀ r, (next r).Returns R

theorem Returns.bind {R : α → Prop} {S : β → Prop} {p : Program ρ α} {f : α → Program ρ β}
    (h : p.Returns R) (hf : ∀ a, R a → (f a).Returns S) : (p >>= f).Returns S := by
  induction p with
  | done a => exact hf a h
  | call c next ih => exact fun r => ih r (h r)

/-- A result that is not an error. -/
def Succeeds {ε : Type} (r : Except ε α) : Prop := ∃ a, r = .ok a

theorem Returns.of_forall {R : α → Prop} (p : Program ρ α) (h : ∀ a, R a) : p.Returns R := by
  induction p with
  | done a => exact h a
  | call c next ih => exact fun r => ih r

/-- The rest of a program only runs on what the first part can return. -/
theorem Makes.bindOf {P : κ → Prop} {R : α → Prop} {p : Program ρ α} {f : α → Program ρ β}
    (h : p.Makes P) (hR : p.Returns R) (hf : ∀ a, R a → (f a).Makes P) : (p >>= f).Makes P := by
  induction p with
  | done a => exact hf a hR
  | call c next ih => exact ⟨h.1, fun r => ih r (h.2 r) (hR r)⟩

/-- Every call the program can make satisfies `P` when the calls before it were answered in states of
`I`. -/
def MakesIn (serve : Server ρ σ) (I : σ → Prop) (P : κ → Prop) : Program ρ α → Prop
  | done _ => True
  | call c next => P c ∧ ∀ s, I s → (next (serve c s).1).MakesIn serve I P

theorem Makes.makesIn {serve : Server ρ σ} {I : σ → Prop} {P : κ → Prop} {p : Program ρ α}
    (h : p.Makes P) : p.MakesIn serve I P := by
  induction p with
  | done a => trivial
  | call c next ih => exact ⟨h.1, fun s _ => ih _ (h.2 _)⟩

theorem MakesIn.bind {serve : Server ρ σ} {I : σ → Prop} {P : κ → Prop} {p : Program ρ α}
    {f : α → Program ρ β} (h : p.MakesIn serve I P) (hf : ∀ a, (f a).MakesIn serve I P) :
    (p >>= f).MakesIn serve I P := by
  induction p with
  | done a => exact hf a
  | call c next ih => exact ⟨h.1, fun s hs => ih _ (h.2 s hs)⟩

/-- What a program returns satisfies `R` when its calls were answered in states of `I`. -/
def ReturnsIn (serve : Server ρ σ) (I : σ → Prop) (R : α → Prop) : Program ρ α → Prop
  | done a => R a
  | call c next => ∀ s, I s → (next (serve c s).1).ReturnsIn serve I R

theorem ReturnsIn.bind {serve : Server ρ σ} {I : σ → Prop} {R : α → Prop} {S : β → Prop}
    {p : Program ρ α} {f : α → Program ρ β} (h : p.ReturnsIn serve I R)
    (hf : ∀ a, R a → (f a).ReturnsIn serve I S) : (p >>= f).ReturnsIn serve I S := by
  induction p with
  | done a => exact hf a h
  | call c next ih => exact fun s hs => ih _ (h s hs)

/-- The rest of a program only runs on what the first part can return. -/
theorem MakesIn.bindOf {serve : Server ρ σ} {I : σ → Prop} {P : κ → Prop} {R : α → Prop}
    {p : Program ρ α} {f : α → Program ρ β} (h : p.MakesIn serve I P) (hR : p.ReturnsIn serve I R)
    (hf : ∀ a, R a → (f a).MakesIn serve I P) : (p >>= f).MakesIn serve I P := by
  induction p with
  | done a => exact hf a hR
  | call c next ih => exact ⟨h.1, fun s hs => ih _ (h.2 s hs) (hR s hs)⟩

/-- **The invariant rule of a program that runs alone.** -/
theorem run_invariant {serve : Server ρ σ} {P : κ → Prop} {I : σ → Prop}
    (hserve : ∀ c s, P c → I s → I (serve c s).2) {p : Program ρ α} (hp : p.Makes P) {s : σ}
    (hs : I s) : I (p.run serve s).2 := by
  induction p generalizing s with
  | done a => exact hs
  | call c next ih => exact ih _ (hp.2 _) (hserve c s hp.1 hs)

/-- Run alone from `s`, a program ends in `Q`: in what it returns and the state it leaves. -/
def wp (serve : Server ρ σ) (p : Program ρ α) (Q : α → σ → Prop) (s : σ) : Prop :=
  Q (p.run serve s).1 (p.run serve s).2

section

variable {serve : Server ρ σ} {p : Program ρ α} {Q R : α → σ → Prop} {s : σ}

theorem wp.mono (h : wp serve p Q s) (hQR : ∀ a s', Q a s' → R a s') : wp serve p R s :=
  hQR _ _ h

theorem wp.and (h : wp serve p Q s) (h' : wp serve p R s) :
    wp serve p (fun a s' => Q a s' ∧ R a s') s := ⟨h, h'⟩

theorem wp_bind {f : α → Program ρ β} {Q : β → σ → Prop} :
    wp serve (p >>= f) Q s ↔ wp serve p (fun a => wp serve (f a) Q) s := by
  rw [wp, run_bind]
  rfl

/-- The invariant rule, as a rule of `wp`. -/
theorem wp_of_makes {P : κ → Prop} {I : σ → Prop} (hp : p.Makes P)
    (hserve : ∀ c s, P c → I s → I (serve c s).2) (hs : I s) : wp serve p (fun _ s' => I s') s :=
  run_invariant hserve hp hs

theorem wp_of_returns {R : α → Prop} (hp : p.Returns R) : wp serve p (fun a _ => R a) s := by
  induction p generalizing s with
  | done a => exact hp
  | call c next ih => exact ih _ (hp _)

end

/-! ### What a program does next -/

/-- The call a program makes next. -/
def next? : Program ρ α → Option κ
  | done _ => none
  | call c _ => some c

/-- After each call the program can make and each answer to it, what is left satisfies `Q`. -/
def Follows (Q : (c : κ) → ρ c → Program ρ α → Prop) : Program ρ α → Prop
  | done _ => True
  | call c next => ∀ r, Q c r (next r) ∧ (next r).Follows Q

/-- A program whose calls have nothing to be followed by. -/
theorem Follows.of_makes {Q : (c : κ) → ρ c → Program ρ α → Prop} {p : Program ρ α}
    (h : p.Makes fun c => ∀ r rest, Q c r rest) : p.Follows Q := by
  induction p with
  | done a => trivial
  | call c next ih => exact fun r => ⟨h.1 r _, ih r (h.2 r)⟩

theorem Follows.bind {Q : (c : κ) → ρ c → Program ρ β → Prop} {p : Program ρ α}
    {f : α → Program ρ β} (h : p.Makes fun c => ∀ r rest, Q c r rest)
    (hf : ∀ a, (f a).Follows Q) : (p >>= f).Follows Q := by
  induction p with
  | done a => exact hf a
  | call c next ih => exact fun r => ⟨h.1 r _, ih r (h.2 r)⟩

theorem next?_bind {p : Program ρ α} {c : κ} (h : p.next? = some c) (f : α → Program ρ β) :
    (p >>= f).next? = some c := by
  cases p with
  | done a => cases h
  | call c next => exact h

/-- What follows each call still does when the result is mapped. -/
theorem Follows.map {Q : (c : κ) → ρ c → Program ρ α → Prop} {Q' : (c : κ) → ρ c → Program ρ β → Prop}
    {p : Program ρ α} (h : p.Follows Q) (g : α → β)
    (hQ : ∀ c r rest, Q c r rest → Q' c r (rest >>= fun a => done (g a))) :
    (p >>= fun a => done (g a)).Follows Q' := by
  induction p with
  | done a => trivial
  | call c next ih => exact fun r => ⟨hQ c r _ (h r).1, ih r (h r).2⟩

/-! ### What a program brings about -/

/-- Among calls that keep `I`, some call of the program brings `Q` about before it returns. -/
def Reaches (serve : Server ρ σ) (I Q : σ → Prop) : Program ρ α → Prop
  | done _ => False
  | call c next => ∀ s, I s → Q (serve c s).2 ∨ (next (serve c s).1).Reaches serve I Q

theorem Reaches.bind {serve : Server ρ σ} {I Q : σ → Prop} {p : Program ρ α}
    (h : p.Reaches serve I Q) (f : α → Program ρ β) : (p >>= f).Reaches serve I Q := by
  induction p with
  | done a => exact h.elim
  | call c next ih => exact fun s hs => (h s hs).imp id fun hnext => ih _ hnext

/-! ### Programs that may fail -/

section

variable {ε : Type} {P : κ → Prop}

theorem Makes.pure (a : α) : (Pure.pure a : ExceptT ε (Program ρ) α).run.Makes P := trivial

theorem Makes.throw (e : ε) : (MonadExcept.throw e : ExceptT ε (Program ρ) α).run.Makes P := trivial

/-- The rest of a program runs where the first part succeeds. -/
theorem Makes.seq {p : ExceptT ε (Program ρ) α} {f : α → ExceptT ε (Program ρ) β}
    (h : p.run.Makes P) (hf : ∀ a, (f a).run.Makes P) : (p >>= f).run.Makes P := by
  refine Makes.bind (f := ExceptT.bindCont f) h fun r => ?_
  cases r with
  | ok a => exact hf a
  | error e => trivial

theorem MakesIn.seq {serve : Server ρ σ} {I : σ → Prop} {p : ExceptT ε (Program ρ) α}
    {f : α → ExceptT ε (Program ρ) β} (h : p.run.MakesIn serve I P)
    (hf : ∀ a, (f a).run.MakesIn serve I P) : (p >>= f).run.MakesIn serve I P := by
  refine MakesIn.bind (f := ExceptT.bindCont f) h fun r => ?_
  cases r with
  | ok a => exact hf a
  | error e => trivial

theorem Reaches.seq {serve : Server ρ σ} {I Q : σ → Prop} {p : ExceptT ε (Program ρ) α}
    (h : p.run.Reaches serve I Q) (f : α → ExceptT ε (Program ρ) β) :
    (p >>= f).run.Reaches serve I Q := Reaches.bind h (ExceptT.bindCont f)

theorem Makes.map {p : ExceptT ε (Program ρ) α} (h : p.run.Makes P) (f : α → β) :
    (f <$> p).run.Makes P := by
  refine Makes.bind (p := p.run) h fun r => ?_
  cases r <;> trivial

/-- A property of a result that is not an error. -/
def IfOk (R : α → Prop) : Except ε α → Prop
  | .ok a => R a
  | .error _ => True

theorem Makes.seqOf {R : α → Prop} {p : ExceptT ε (Program ρ) α}
    {f : α → ExceptT ε (Program ρ) β} (h : p.run.Makes P) (hR : p.run.Returns (IfOk R))
    (hf : ∀ a, R a → (f a).run.Makes P) : (p >>= f).run.Makes P := by
  refine Makes.bindOf (f := ExceptT.bindCont f) h hR fun r hr => ?_
  cases r with
  | ok a => exact hf a hr
  | error e => trivial

theorem Returns.seq {R : α → Prop} {S : β → Prop} {p : ExceptT ε (Program ρ) α}
    {f : α → ExceptT ε (Program ρ) β} (h : p.run.Returns (IfOk R))
    (hf : ∀ a, R a → (f a).run.Returns (IfOk S)) : (p >>= f).run.Returns (IfOk S) := by
  refine Returns.bind (f := ExceptT.bindCont f) h fun r hr => ?_
  cases r with
  | ok a => exact hf a hr
  | error e => trivial

theorem MakesIn.seqOf {serve : Server ρ σ} {I : σ → Prop} {R : α → Prop}
    {p : ExceptT ε (Program ρ) α} {f : α → ExceptT ε (Program ρ) β} (h : p.run.MakesIn serve I P)
    (hR : p.run.ReturnsIn serve I (IfOk R)) (hf : ∀ a, R a → (f a).run.MakesIn serve I P) :
    (p >>= f).run.MakesIn serve I P := by
  refine MakesIn.bindOf (f := ExceptT.bindCont f) h hR fun r hr => ?_
  cases r with
  | ok a => exact hf a hr
  | error e => trivial

theorem ReturnsIn.seq {serve : Server ρ σ} {I : σ → Prop} {R : α → Prop} {S : β → Prop}
    {p : ExceptT ε (Program ρ) α} {f : α → ExceptT ε (Program ρ) β}
    (h : p.run.ReturnsIn serve I (IfOk R)) (hf : ∀ a, R a → (f a).run.ReturnsIn serve I (IfOk S)) :
    (p >>= f).run.ReturnsIn serve I (IfOk S) := by
  refine ReturnsIn.bind (f := ExceptT.bindCont f) h fun r hr => ?_
  cases r with
  | ok a => exact hf a hr
  | error e => trivial

theorem Returns.seq_succeeds {p : ExceptT ε (Program ρ) α} {f : α → ExceptT ε (Program ρ) β}
    (h : p.run.Returns Succeeds) (hf : ∀ a, (f a).run.Returns Succeeds) :
    (p >>= f).run.Returns Succeeds := by
  refine Returns.bind (f := ExceptT.bindCont f) h fun r hr => ?_
  obtain ⟨a, rfl⟩ := hr
  exact hf a

/-- The rest of a program runs where the first part succeeds; an error ends it. -/
theorem wp_seq {serve : Server ρ σ} {p : ExceptT ε (Program ρ) α} {f : α → ExceptT ε (Program ρ) β}
    {Q : Except ε β → σ → Prop} {s : σ} : wp serve (p >>= f).run Q s ↔ wp serve p.run (fun r s' =>
      match r with
      | .ok a => wp serve (f a).run Q s'
      | .error e => Q (.error e) s') s := by
  refine (wp_bind (f := ExceptT.bindCont f)).trans (iff_of_eq (congrArg (wp serve p.run · s) ?_))
  funext r s'
  cases r <;> rfl

theorem wp_map {serve : Server ρ σ} {p : ExceptT ε (Program ρ) α} {f : α → β}
    {Q : Except ε β → σ → Prop} {s : σ} :
    wp serve (f <$> p).run Q s ↔ wp serve p.run (fun r s' => Q (r.map f) s') s := by
  refine (wp_bind (p := p.run)).trans (iff_of_eq (congrArg (wp serve p.run · s) ?_))
  funext r s'
  cases r <;> rfl

theorem wp_ofExcept {serve : Server ρ σ} {r : Except ε α} {Q : Except ε α → σ → Prop} {s : σ} :
    wp serve (MonadExcept.ofExcept r : ExceptT ε (Program ρ) α).run Q s ↔ Q r s := by
  cases r <;> exact .rfl

theorem Makes.ofExcept (r : Except ε α) :
    (MonadExcept.ofExcept r : ExceptT ε (Program ρ) α).run.Makes P := by
  cases r <;> trivial

theorem Returns.ofExcept {R : α → Prop} {r : Except ε α} (h : ∀ a, r = .ok a → R a) :
    (MonadExcept.ofExcept r : ExceptT ε (Program ρ) α).run.Returns (IfOk R) := by
  cases r with
  | error e => trivial
  | ok a => exact h a rfl

theorem Follows.seq {Q : (c : κ) → ρ c → Program ρ (Except ε β) → Prop}
    {p : ExceptT ε (Program ρ) α} {f : α → ExceptT ε (Program ρ) β}
    (h : p.run.Makes fun c => ∀ r rest, Q c r rest) (hf : ∀ a, (f a).run.Follows Q) :
    (p >>= f).run.Follows Q := by
  refine Follows.bind (f := ExceptT.bindCont f) h fun r => ?_
  cases r with
  | ok a => exact hf a
  | error e => trivial

end

end Program

open Program

/-! ### Programs that share a server -/

/-- Programs in progress and the state of the server they share. -/
structure Pool (ι : Type) (ρ : κ → Type) (α σ : Type) where
  programs : ι → Program ρ α
  state : σ

namespace Pool

variable {ι : Type} [DecidableEq ι] {serve : Server ρ σ} {pool pool' : Pool ι ρ α σ}

/-- One program makes its next call. -/
def step (serve : Server ρ σ) (pool : Pool ι ρ α σ) (i : ι) : Option (ι × Pool ι ρ α σ) :=
  match pool.programs i with
  | .done _ => none
  | .call c next => some (i,
      { programs := Function.update pool.programs i (next (serve c pool.state).1)
        state := (serve c pool.state).2 })

/-- Every program has returned. -/
def Returned (pool : Pool ι ρ α σ) : Prop := ∀ i, (pool.programs i).next? = none

/-- The pool after one program made its next call. -/
def after (serve : Server ρ σ) (pool : Pool ι ρ α σ) (i : ι) : Pool ι ρ α σ :=
  ((pool.step serve i).map Prod.snd).getD pool

theorem step_after {i : ι} (h : (pool.programs i).next?.isSome) :
    pool.step serve i = some (i, pool.after serve i) := by
  unfold after step
  cases hprogram : pool.programs i with
  | done a =>
    rw [hprogram] at h
    cases h
  | call c next => rfl

theorem state_after {i : ι} {c : κ} (h : (pool.programs i).next? = some c) :
    (pool.after serve i).state = (serve c pool.state).2 := by
  unfold after step
  cases hprogram : pool.programs i with
  | done a =>
    rw [hprogram] at h
    cases h
  | call c' next =>
    rw [hprogram] at h
    obtain rfl := Option.some.inj h
    rfl

/-- **Inversion of a step.** -/
theorem step_eq_some {i e : ι} (h : pool.step serve i = some (e, pool')) :
    ∃ c next, pool.programs i = .call c next ∧ e = i ∧
      pool'.programs = Function.update pool.programs i (next (serve c pool.state).1) ∧
      pool'.state = (serve c pool.state).2 := by
  unfold step at h
  split at h
  · cases h
  · next c next hprogram =>
    obtain ⟨rfl, rfl⟩ := Prod.mk.inj (Option.some.inj h)
    exact ⟨c, next, hprogram, rfl, rfl, rfl⟩

theorem makes_step {P : ι → κ → Prop} {i e : ι} (h : pool.step serve i = some (e, pool'))
    (hpool : ∀ j, (pool.programs j).Makes (P j)) (j : ι) : (pool'.programs j).Makes (P j) := by
  obtain ⟨c, next, hprogram, -, hprograms, -⟩ := step_eq_some h
  rw [hprograms]
  by_cases hji : j = i
  · subst hji
    rw [Function.update_self]
    have hmakes := hpool j
    rw [hprogram] at hmakes
    exact hmakes.2 _
  · rw [Function.update_of_ne hji]
    exact hpool j

theorem makesIn_step {I : σ → Prop} {P : ι → κ → Prop} {i e : ι}
    (h : pool.step serve i = some (e, pool')) (hstate : I pool.state)
    (hpool : ∀ j, (pool.programs j).MakesIn serve I (P j)) (j : ι) :
    (pool'.programs j).MakesIn serve I (P j) := by
  obtain ⟨c, next, hprogram, -, hprograms, -⟩ := step_eq_some h
  rw [hprograms]
  by_cases hji : j = i
  · subst hji
    rw [Function.update_self]
    have hmakes := hpool j
    rw [hprogram] at hmakes
    exact hmakes.2 _ hstate
  · rw [Function.update_of_ne hji]
    exact hpool j

/-- **The invariant rule of an interleaving.** -/
theorem invariant_run {P : ι → κ → Prop} {I : σ → Prop}
    (hI : ∀ i c s, P i c → I s → I (serve c s).2)
    (hmakes : ∀ j, (pool.programs j).MakesIn serve I (P j)) (hstart : I pool.state) {tr : List ι}
    (h : Run (Steps (step serve)) pool tr pool') :
    I pool'.state ∧ ∀ j, (pool'.programs j).MakesIn serve I (P j) := by
  refine h.preserves (fun pool => I pool.state ∧ ∀ j, (pool.programs j).MakesIn serve I (P j))
    ⟨hstart, hmakes⟩ ?_
  rintro pool e pool' ⟨hstate, hmakes⟩ ⟨i, hstep⟩
  obtain ⟨c, rest, hprogram, -, -, hnext⟩ := step_eq_some hstep
  have hi := hmakes i
  rw [hprogram] at hi
  exact ⟨hnext ▸ hI i c _ hi.1 hstate, makesIn_step hstep hstate hmakes⟩

/-- **A program that brings its end about**: along an interleaving whose calls keep `I` and what was
brought about, it has brought `Q` about by the time it returns. -/
theorem reaches_run {P : ι → κ → Prop} {I Q : σ → Prop}
    (hI : ∀ i c s, P i c → I s → I (serve c s).2)
    (hQ : ∀ i c s, P i c → I s → Q s → Q (serve c s).2)
    (hmakes : ∀ j, (pool.programs j).MakesIn serve I (P j)) (hstart : I pool.state) {j : ι}
    (hreaches : (pool.programs j).Reaches serve I Q) {tr : List ι}
    (h : Run (Steps (step serve)) pool tr pool') (hreturned : (pool'.programs j).next? = none) :
    Q pool'.state := by
  have hinv := h.preserves (fun pool => (I pool.state ∧ ∀ j, (pool.programs j).MakesIn serve I (P j)) ∧
    (Q pool.state ∨ (pool.programs j).Reaches serve I Q)) ⟨⟨hstart, hmakes⟩, .inr hreaches⟩ ?_
  · refine hinv.2.resolve_right fun hleft => ?_
    cases hprogram : pool'.programs j with
    | done a =>
      rw [hprogram] at hleft
      exact hleft
    | call c next =>
      rw [hprogram] at hreturned
      cases hreturned
  rintro pool e pool' ⟨⟨hstate, hmakes⟩, hreaches⟩ ⟨i, hstep⟩
  obtain ⟨c, rest, hprogram, -, hprograms, hnext⟩ := step_eq_some hstep
  have hc : P i c := by
    have hi := hmakes i
    rw [hprogram] at hi
    exact hi.1
  refine ⟨⟨hnext ▸ hI i c _ hc hstate, makesIn_step hstep hstate hmakes⟩, ?_⟩
  rcases hreaches with hQj | hj
  · exact .inl (hnext ▸ hQ i c _ hc hstate hQj)
  · rw [hprograms]
    by_cases hji : j = i
    · subst hji
      rw [hprogram] at hj
      rw [Function.update_self, hnext]
      exact hj pool.state hstate
    · rw [Function.update_of_ne hji]
      exact .inr hj

theorem returns_step {R : ι → α → Prop} {i e : ι} (h : pool.step serve i = some (e, pool'))
    (hpool : ∀ j, (pool.programs j).Returns (R j)) (j : ι) : (pool'.programs j).Returns (R j) := by
  obtain ⟨c, next, hprogram, -, hprograms, -⟩ := step_eq_some h
  rw [hprograms]
  by_cases hji : j = i
  · subst hji
    rw [Function.update_self]
    have hreturns := hpool j
    rw [hprogram] at hreturns
    exact hreturns _
  · rw [Function.update_of_ne hji]
    exact hpool j

/-- What a program can return is what it has returned at the end of an interleaving. -/
theorem returns_run {R : ι → α → Prop} (hpool : ∀ j, (pool.programs j).Returns (R j)) {tr : List ι}
    (h : Run (Steps (step serve)) pool tr pool') {j : ι} {a : α} (hdone : pool'.programs j = .done a) :
    R j a := by
  have hinv := h.preserves (fun pool => ∀ j, (pool.programs j).Returns (R j)) hpool fun pool e pool'
    hpool hstep => returns_step hstep.choose_spec hpool
  have hj := hinv j
  rw [hdone] at hj
  exact hj

/-- A program can be run to its end while the others wait. -/
theorem exists_run_of (serve : Server ρ σ) (i : ι) (pool : Pool ι ρ α σ) :
    ∃ tr pool', Run (Steps (step serve)) pool tr pool' ∧ (∃ a, pool'.programs i = .done a) ∧
      ∀ j, j ≠ i → pool'.programs j = pool.programs j := by
  obtain ⟨programs, s⟩ := pool
  dsimp only
  induction hprogram : programs i generalizing programs s with
  | done a => exact ⟨[], _, .start, ⟨a, hprogram⟩, fun _ _ => rfl⟩
  | call c next ih =>
    have hstep : step serve ⟨programs, s⟩ i = some (i,
        ⟨Function.update programs i (next (serve c s).1), (serve c s).2⟩) := by
      unfold step
      dsimp only
      rw [hprogram]
    obtain ⟨tr, pool', hrun, hdone, hothers⟩ := ih (serve c s).1
      (Function.update programs i (next (serve c s).1)) (serve c s).2 (Function.update_self ..)
    refine ⟨[i] ++ tr, pool', (Run.single ⟨i, hstep⟩).append hrun, hdone, fun j hji => ?_⟩
    rw [hothers j hji, Function.update_of_ne hji]

/-- **A pool can be run to its end.** -/
theorem exists_run [Fintype ι] (serve : Server ρ σ) (pool : Pool ι ρ α σ) :
    ∃ tr pool', Run (Steps (step serve)) pool tr pool' ∧ ∀ i, ∃ a, pool'.programs i = .done a := by
  have hsome : ∀ is : List ι, ∃ tr pool', Run (Steps (step serve)) pool tr pool' ∧
      ∀ i ∈ is, ∃ a, pool'.programs i = .done a := by
    intro is
    induction is with
    | nil => exact ⟨[], pool, .start, fun _ h => absurd h List.not_mem_nil⟩
    | cons i is ih =>
      obtain ⟨tr, mid, hrun, hdone⟩ := ih
      obtain ⟨tr', pool', hrun', hdone', hothers⟩ := exists_run_of serve i mid
      refine ⟨tr ++ tr', pool', hrun.append hrun', fun j hj => ?_⟩
      by_cases hji : j = i
      · subst hji
        exact hdone'
      · rw [hothers j hji]
        exact hdone j ((List.mem_cons.mp hj).resolve_left hji)
  obtain ⟨tr, pool', hrun, hdone⟩ := hsome Finset.univ.toList
  exact ⟨tr, pool', hrun, fun i => hdone i (Finset.mem_toList.mpr (Finset.mem_univ i))⟩

theorem follows_step {Q : (c : κ) → ρ c → Program ρ α → Prop} {i e : ι}
    (h : pool.step serve i = some (e, pool')) (hpool : ∀ j, (pool.programs j).Follows Q) (j : ι) :
    (pool'.programs j).Follows Q := by
  obtain ⟨c, next, hprogram, -, hprograms, -⟩ := step_eq_some h
  rw [hprograms]
  by_cases hji : j = i
  · subst hji
    rw [Function.update_self]
    have hfollows := hpool j
    rw [hprogram] at hfollows
    exact (hfollows _).2
  · rw [Function.update_of_ne hji]
    exact hpool j

end Pool

end Interleave
