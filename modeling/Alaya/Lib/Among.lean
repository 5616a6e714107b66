import Alaya.Lib.Program

/-!
# One program among others

A program makes its calls while others change the state between them.  `Among` relates a program and
the state it starts in to its moments, its result and the state at its end; the server is a relation,
so that a call may fail or take effect without a true answer.  The library is independent of both:

* `Among.bind` and `Among.seq` cut a run where its program is cut, `Among.map` undoes a map of the
  result, and `Among.ask` is a run of one call;
* `Among.makes` and `Among.returns` carry the bounds of a program to its runs, and `Among.own` what
  its calls do to its own moments;
* `Among.preserves` is the invariant rule: what every call and every move of the others keeps;
* `Among.simulates` is its form for a second state that follows the others alone;
* `Program.scheduled` computes the run of a schedule, and `Among.of_schedule` is that run.
-/

namespace Interleave

open Program

variable {κ σ α β : Type} {ρ : κ → Type}

/-- A moment of a run: the call the program makes, or `none` when the others move, and the states
around it. -/
structure Moment (κ σ : Type) where
  call : Option κ
  before : σ
  after : σ

/-- A program runs to its end while others move. -/
inductive Among (serves : (c : κ) → σ → ρ c → σ → Prop) (others : σ → σ → Prop) :
    Program ρ α → σ → List (Moment κ σ) → α → σ → Prop
  | done {a : α} {s : σ} : Among serves others (.done a) s [] a s
  | call {c : κ} {next : ρ c → Program ρ α} {s s₁ s' : σ} {r : ρ c} {tr : List (Moment κ σ)} {a : α} :
      serves c s r s₁ → Among serves others (next r) s₁ tr a s' →
      Among serves others (.call c next) s (⟨some c, s, s₁⟩ :: tr) a s'
  | other {p : Program ρ α} {s s₁ s' : σ} {tr : List (Moment κ σ)} {a : α} :
      others s s₁ → Among serves others p s₁ tr a s' →
      Among serves others p s (⟨none, s, s₁⟩ :: tr) a s'

/-- The moments at which the program itself moves satisfy `R`. -/
def Own (tr : List (Moment κ σ)) (R : σ → σ → Prop) : Prop :=
  ∀ m ∈ tr, m.call.isSome → R m.before m.after

/-- `Q` holds just before or just after some moment. -/
def Once (tr : List (Moment κ σ)) (Q : σ → Prop) : Prop := ∃ m ∈ tr, Q m.before ∨ Q m.after

section

variable {tr tr₁ tr₂ : List (Moment κ σ)} {R : σ → σ → Prop} {Q : σ → Prop}

theorem Own.append (h₁ : Own tr₁ R) (h₂ : Own tr₂ R) : Own (tr₁ ++ tr₂) R := by
  intro m hm
  rcases List.mem_append.mp hm with hm | hm
  · exact h₁ m hm
  · exact h₂ m hm

theorem Own.mono {R' : σ → σ → Prop} (h : Own tr R) (hR : ∀ t t', R t t' → R' t t') : Own tr R' :=
  fun m hm hown => hR _ _ (h m hm hown)

/-- Where only the others move. -/
theorem Own.of_none (h : ∀ m ∈ tr, m.call = none) : Own tr R := by
  intro m hm hown
  rw [h m hm] at hown
  cases hown

theorem Once.left (h : Once tr₁ Q) : Once (tr₁ ++ tr₂) Q := by
  obtain ⟨m, hm, hQ⟩ := h
  exact ⟨m, List.mem_append_left _ hm, hQ⟩

theorem Once.right (h : Once tr₂ Q) : Once (tr₁ ++ tr₂) Q := by
  obtain ⟨m, hm, hQ⟩ := h
  exact ⟨m, List.mem_append_right _ hm, hQ⟩

end

/-- Each moment stands in `Q` to the moments before it. -/
def Traced (tr : List (Moment κ σ)) (Q : List (Moment κ σ) → Moment κ σ → Prop) : Prop :=
  ∀ past m rest, tr = past ++ m :: rest → Q past m

section

variable {tr tr₁ tr₂ : List (Moment κ σ)} {Q Q' : List (Moment κ σ) → Moment κ σ → Prop}

theorem Traced.append (h₁ : Traced tr₁ Q) (h₂ : Traced tr₂ fun past m => Q (tr₁ ++ past) m) :
    Traced (tr₁ ++ tr₂) Q := by
  intro past m rest htr
  rcases List.append_eq_append_iff.mp htr with ⟨past', rfl, htr₂⟩ | ⟨rest', htr₁, hrest⟩
  · exact h₂ past' m rest htr₂
  · cases rest' with
    | nil =>
      rw [List.append_nil] at htr₁
      have hfirst : Q (tr₁ ++ []) m := h₂ [] m rest hrest.symm
      rwa [List.append_nil, htr₁] at hfirst
    | cons m' rest' =>
      obtain ⟨rfl, -⟩ := List.cons.inj hrest
      exact h₁ past m rest' htr₁

theorem Traced.cons {m : Moment κ σ} (hm : Q [] m) (h : Traced tr fun past m' => Q (m :: past) m') :
    Traced (m :: tr) Q := by
  intro past m' rest htr
  cases past with
  | nil => exact (List.cons.inj htr).1 ▸ hm
  | cons m'' past =>
    obtain ⟨rfl, htail⟩ := List.cons.inj htr
    exact h past m' rest htail

theorem Traced.mono (h : Traced tr Q) (hQ : ∀ past m, Q past m → Q' past m) : Traced tr Q' :=
  fun past m rest htr => hQ past m (h past m rest htr)

/-- What the program's own moments are not is not traced. -/
theorem Traced.of_own {R : σ → σ → Prop} (h : Own tr R)
    (hQ : ∀ past m, (m.call.isSome → R m.before m.after) → Q past m) : Traced tr Q := by
  rintro past m rest rfl
  exact hQ past m (h m (List.mem_append_right _ List.mem_cons_self))

end

/-- A second state, moved by the moves of the others alone. -/
def follow {γ : Type} (move : σ → σ → γ → γ) (tr : List (Moment κ σ)) (y : γ) : γ :=
  tr.foldl (fun y m => if m.call.isNone then move m.before m.after y else y) y

theorem follow_append {γ : Type} (move : σ → σ → γ → γ) (tr₁ tr₂ : List (Moment κ σ)) (y : γ) :
    follow move (tr₁ ++ tr₂) y = follow move tr₂ (follow move tr₁ y) := List.foldl_append

/-- The moves of the others satisfy `Q`. -/
def Others (tr : List (Moment κ σ)) (Q : σ → σ → Prop) : Prop :=
  ∀ m ∈ tr, m.call = none → Q m.before m.after

theorem Others.append_iff {tr₁ tr₂ : List (Moment κ σ)} {Q : σ → σ → Prop} :
    Others (tr₁ ++ tr₂) Q ↔ Others tr₁ Q ∧ Others tr₂ Q := List.forall_mem_append

theorem Others.cons_iff {m : Moment κ σ} {tr : List (Moment κ σ)} {Q : σ → σ → Prop} :
    Others (m :: tr) Q ↔ (m.call = none → Q m.before m.after) ∧ Others tr Q := List.forall_mem_cons

/-- The moments of the others' calls, and the state they leave. -/
def otherMoments (serve : Server ρ σ) : List κ → σ → List (Moment κ σ) × σ
  | [], s => ([], s)
  | c :: calls, s =>
    let rest := otherMoments serve calls (serve c s).2
    (⟨none, s, (serve c s).2⟩ :: rest.1, rest.2)

/-- The run under a schedule: before each call of the program the others make some of theirs. -/
def Program.scheduled (serve : Server ρ σ) : Program ρ α → List (List κ) → σ →
    List (Moment κ σ) × α × σ
  | .done a, _, s => ([], a, s)
  | .call c next, calls, s =>
    let others := otherMoments serve (calls.headD []) s
    let rest := scheduled serve (next (serve c others.2).1) calls.tail (serve c others.2).2
    (others.1 ++ ⟨some c, others.2, (serve c others.2).2⟩ :: rest.1, rest.2)

namespace Among

variable {serves : (c : κ) → σ → ρ c → σ → Prop} {others : σ → σ → Prop} {p : Program ρ α}
  {s s' : σ} {tr : List (Moment κ σ)} {a : α}

theorem bind {f : α → Program ρ β} {b : β} (h : Among serves others (p >>= f) s tr b s') :
    ∃ tr₁ tr₂ a t, tr = tr₁ ++ tr₂ ∧ Among serves others p s tr₁ a t ∧
      Among serves others (f a) t tr₂ b s' := by
  generalize hq : p >>= f = q at h
  induction h generalizing p with
  | @done b s =>
    cases p with
    | done a => exact ⟨[], [], a, s, rfl, .done, (show f a = .done b from hq) ▸ .done⟩
    | call c next => cases hq
  | @call c next s s₁ s' r tr b hserves hrest ih =>
    cases p with
    | done a => exact ⟨[], _, a, s, rfl, .done, (show f a = .call c next from hq) ▸ .call hserves hrest⟩
    | call c' next' =>
      obtain ⟨rfl, hnext⟩ := Program.call.inj (show Program.call c' _ = _ from hq)
      obtain ⟨tr₁, tr₂, a, t, rfl, hp, hf⟩ := ih (congrFun (eq_of_heq hnext) r)
      exact ⟨_ :: tr₁, tr₂, a, t, rfl, .call hserves hp, hf⟩
  | @other q s s₁ s' tr b hothers _ ih =>
    obtain ⟨tr₁, tr₂, a, t, rfl, hp, hf⟩ := ih hq
    exact ⟨_ :: tr₁, tr₂, a, t, rfl, .other hothers hp, hf⟩

/-- Two runs one after another are a run of the sequence. -/
theorem append {f : α → Program ρ β} {b : β} {t : σ} {tr₂ : List (Moment κ σ)}
    (h : Among serves others p s tr a t) (h' : Among serves others (f a) t tr₂ b s') :
    Among serves others (p >>= f) s (tr ++ tr₂) b s' := by
  induction h with
  | done => exact h'
  | call hserves _ ih => exact .call hserves (ih h')
  | other hothers _ ih => exact .other hothers (ih h')

/-- A program that has returned only waits. -/
theorem eq_of_done {b : α} (h : Among serves others (.done b) s tr a s') : a = b := by
  generalize hq : Program.done b = q at h
  induction h with
  | done => exact (Program.done.inj hq).symm
  | call => cases hq
  | other _ _ ih => exact ih hq

/-- Waiting is the same after any result. -/
theorem wait {b : α} {c : β} (h : Among serves others (.done b : Program ρ α) s tr a s') :
    Among serves others (.done c : Program ρ β) s tr c s' := by
  generalize hq : Program.done b = q at h
  induction h with
  | done => exact .done
  | call => cases hq
  | other hothers _ ih => exact .other hothers (ih hq)

/-- A program that waits once it has returned. -/
theorem then_wait {b c : β} {t : σ} {tr₂ : List (Moment κ σ)} (h : Among serves others p s tr a t)
    (h' : Among serves others (.done b : Program ρ β) t tr₂ c s') :
    Among serves others p s (tr ++ tr₂) a s' := by
  have hrun := append h (wait (c := a) h')
  rwa [bind_done] at hrun

/-- A run of a mapped program is a run of the program. -/
theorem map {f : α → β} {b : β} (h : Among serves others (p >>= fun a => .done (f a)) s tr b s') :
    ∃ a, b = f a ∧ Among serves others p s tr a s' := by
  obtain ⟨tr₁, tr₂, a, t, rfl, hp, hf⟩ := bind h
  exact ⟨a, eq_of_done hf, then_wait hp hf⟩

theorem makes {P : κ → Prop} (hp : p.Makes P) (h : Among serves others p s tr a s') {m : Moment κ σ}
    (hm : m ∈ tr) {c : κ} (hc : m.call = some c) : P c := by
  induction h with
  | done => cases hm
  | call _ _ ih =>
    rcases List.mem_cons.mp hm with rfl | hm
    · obtain rfl := Option.some.inj hc
      exact hp.1
    · exact ih (hp.2 _) hm
  | other _ _ ih =>
    rcases List.mem_cons.mp hm with rfl | hm
    · cases hc
    · exact ih hp hm

/-- Each of the program's own moments is served. -/
theorem served (h : Among serves others p s tr a s') {c : κ} {t t' : σ}
    (hm : ⟨some c, t, t'⟩ ∈ tr) : ∃ r, serves c t r t' := by
  induction h with
  | done => cases hm
  | call hserves _ ih =>
    rcases List.mem_cons.mp hm with heq | hm
    · obtain ⟨hcall, rfl, rfl⟩ := Moment.mk.inj heq
      obtain rfl := Option.some.inj hcall
      exact ⟨_, hserves⟩
    · exact ih hm
  | other _ _ ih =>
    rcases List.mem_cons.mp hm with heq | hm
    · cases congrArg Moment.call heq
    · exact ih hm

theorem returns {R : α → Prop} (hp : p.Returns R) (h : Among serves others p s tr a s') : R a := by
  induction h with
  | done => exact hp
  | call _ _ ih => exact ih (hp _)
  | other _ _ ih => exact ih hp

/-- What every call does, the program's own moments do. -/
theorem own {P : κ → Prop} {R : σ → σ → Prop} (hp : p.Makes P)
    (hcall : ∀ c s r s', P c → serves c s r s' → R s s') (h : Among serves others p s tr a s') :
    Own tr R := by
  induction h with
  | done => exact fun m hm => absurd hm List.not_mem_nil
  | call hserves _ ih =>
    intro m hm hown
    rcases List.mem_cons.mp hm with rfl | hm
    · exact hcall _ _ _ _ hp.1 hserves
    · exact ih (hp.2 _) m hm hown
  | other _ _ ih =>
    intro m hm hown
    rcases List.mem_cons.mp hm with rfl | hm
    · cases hown
    · exact ih hp m hm hown

/-- A program that has returned has no moments of its own. -/
theorem own_done {b : α} {R : σ → σ → Prop} (h : Among serves others (.done b) s tr a s') : Own tr R :=
  h.own (P := fun _ => False) (.done b) fun _ _ _ _ hc => hc.elim

/-- A run of one call has no other moment of its own. -/
theorem own_ask {c : κ} {r : ρ c} (h : Among serves others (Program.ask c) s tr r s') :
    Own tr fun t t' => serves c t r t' := by
  generalize hq : Program.ask c = q at h
  induction h with
  | done => cases hq
  | @call c' next s s₁ s' r tr b hserves hrest =>
    obtain ⟨rfl, hnext⟩ := Program.call.inj (show Program.call c _ = _ from hq)
    obtain rfl := eq_of_heq hnext
    obtain rfl := eq_of_done hrest
    intro m hm hown
    rcases List.mem_cons.mp hm with rfl | hm
    · exact hserves
    · exact (hrest.own_done (R := fun _ _ => False) m hm hown).elim
  | other _ _ ih =>
    intro m hm hown
    rcases List.mem_cons.mp hm with rfl | hm
    · cases hown
    · exact ih hq m hm hown

/-- **The invariant rule of a program among others.** -/
theorem preserves {P : κ → Prop} {I : σ → Prop} (hp : p.Makes P)
    (hcall : ∀ c s r s', P c → serves c s r s' → I s → I s') (hother : ∀ s s', others s s' → I s → I s')
    (h : Among serves others p s tr a s') (hs : I s) :
    I s' ∧ ∀ m ∈ tr, I m.before ∧ I m.after := by
  have hcons : ∀ {m : Moment κ σ} {rest : List (Moment κ σ)}, I m.before → I m.after →
      (I s' ∧ ∀ m ∈ rest, I m.before ∧ I m.after) →
      I s' ∧ ∀ m' ∈ m :: rest, I m'.before ∧ I m'.after := by
    rintro m rest hbefore hafter ⟨hend, hrest⟩
    refine ⟨hend, fun m' hm' => ?_⟩
    rcases List.mem_cons.mp hm' with rfl | hm'
    · exact ⟨hbefore, hafter⟩
    · exact hrest m' hm'
  induction h with
  | done => exact ⟨hs, fun m hm => absurd hm List.not_mem_nil⟩
  | call hserves _ ih =>
    have hnext := hcall _ _ _ _ hp.1 hserves hs
    exact hcons hs hnext (ih (hp.2 _) hnext hcons)
  | other hothers _ ih =>
    have hnext := hother _ _ hothers hs
    exact hcons hs hnext (ih hp hnext hcons)

section

variable {γ : Type} {move : σ → σ → γ → γ} {Q : σ → σ → Prop} {y : γ}

/-- **The simulation rule**: what relates the state to a second one that follows the others alone. -/
theorem simulates {P : κ → Prop} {J : σ → γ → Prop} (hp : p.Makes P)
    (hcall : ∀ c s r s' y, P c → serves c s r s' → J s y → J s' y)
    (hother : ∀ s s' y, Q s s' → J s y → J s' (move s s' y))
    (h : Among serves others p s tr a s') (hQ : Others tr Q) (hs : J s y) :
    J s' (follow move tr y) := by
  induction h generalizing y with
  | done => exact hs
  | call hserves _ ih => exact ih (hp.2 _) (Others.cons_iff.mp hQ).2 (hcall _ _ _ _ _ hp.1 hserves hs)
  | other _ _ ih =>
    obtain ⟨hmove, hrest⟩ := Others.cons_iff.mp hQ
    exact ih hp hrest (hother _ _ _ (hmove rfl) hs)

/-- The rule for one call: its answer says which relation holds afterwards. -/
theorem simulates_ask {c : κ} {r : ρ c} {J K : σ → γ → Prop}
    (hcall : ∀ s s' y, serves c s r s' → J s y → K s' y)
    (hJ : ∀ s s' y, Q s s' → J s y → J s' (move s s' y))
    (hK : ∀ s s' y, Q s s' → K s y → K s' (move s s' y))
    (h : Among serves others (Program.ask c) s tr r s') (hQ : Others tr Q) (hs : J s y) :
    K s' (follow move tr y) := by
  generalize hq : Program.ask c = q at h
  induction h generalizing y with
  | done => cases hq
  | @call c' next s s₁ s' r tr b hserves hrest =>
    obtain ⟨rfl, hnext⟩ := Program.call.inj (show Program.call c _ = _ from hq)
    obtain rfl := eq_of_heq hnext
    obtain rfl := eq_of_done hrest
    have hwait : K s' (follow move tr y) :=
      hrest.simulates (P := fun _ => False) (.done _) (fun _ _ _ _ _ hc => hc.elim) hK
        (Others.cons_iff.mp hQ).2 (hcall _ _ _ hserves hs)
    exact hwait
  | other _ _ ih =>
    obtain ⟨hmove, hrest⟩ := Others.cons_iff.mp hQ
    exact ih hcall hrest (hJ _ _ _ (hmove rfl) hs) hq

end

/-- A program that runs alone runs among others that do not move. -/
theorem alone {serve : Server ρ σ} (hserves : ∀ c s, serves c s (serve c s).1 (serve c s).2)
    (p : Program ρ α) (s : σ) :
    ∃ tr, Among serves others p s tr (p.run serve s).1 (p.run serve s).2 := by
  induction p generalizing s with
  | done a => exact ⟨[], .done⟩
  | call c next ih =>
    obtain ⟨tr, hrun⟩ := ih (serve c s).1 (serve c s).2
    exact ⟨_, .call (hserves c s) hrun⟩

/-- The calls of the others, one after another. -/
theorem after_otherMoments {serve : Server ρ σ} (hothers : ∀ c s, others s (serve c s).2)
    (calls : List κ) {s : σ} (h : Among serves others p (otherMoments serve calls s).2 tr a s') :
    Among serves others p s ((otherMoments serve calls s).1 ++ tr) a s' := by
  induction calls generalizing s with
  | nil => exact h
  | cons c calls ih => exact .other (hothers c s) (ih h)

/-- A schedule gives a run. -/
theorem of_schedule {serve : Server ρ σ} (hserves : ∀ c s, serves c s (serve c s).1 (serve c s).2)
    (hothers : ∀ c s, others s (serve c s).2) (p : Program ρ α) (calls : List (List κ)) (s : σ) :
    Among serves others p s (p.scheduled serve calls s).1 (p.scheduled serve calls s).2.1
      (p.scheduled serve calls s).2.2 := by
  induction p generalizing calls s with
  | done a => exact .done
  | call c next ih => exact after_otherMoments hothers _ (.call (hserves c _) (ih _ _ _))

/-- A run of one call: when it is made, and what it is answered. -/
theorem ask {c : κ} {r : ρ c} (h : Among serves others (Program.ask c) s tr r s') :
    ∃ t t', ⟨some c, t, t'⟩ ∈ tr ∧ serves c t r t' := by
  generalize hq : Program.ask c = q at h
  induction h with
  | done => cases hq
  | @call c' next s s₁ s' r tr b hserves hrest =>
    obtain ⟨rfl, hnext⟩ := Program.call.inj (show Program.call c _ = _ from hq)
    obtain rfl := eq_of_heq hnext
    obtain rfl := eq_of_done hrest
    exact ⟨s, s₁, List.mem_cons_self, hserves⟩
  | other _ _ ih =>
    obtain ⟨t, t', hmem, hserves⟩ := ih hq
    exact ⟨t, t', List.mem_cons_of_mem _ hmem, hserves⟩

/-- A run of one call: after it only the others move. -/
theorem ask_split {c : κ} {r : ρ c} (h : Among serves others (Program.ask c) s tr r s') :
    ∃ tr₁ t t' tr₂, tr = tr₁ ++ ⟨some c, t, t'⟩ :: tr₂ ∧ serves c t r t' ∧
      ∀ m ∈ tr₂, m.call = none := by
  generalize hq : Program.ask c = q at h
  induction h with
  | done => cases hq
  | @call c' next s s₁ s' r tr b hserves hrest =>
    obtain ⟨rfl, hnext⟩ := Program.call.inj (show Program.call c _ = _ from hq)
    obtain rfl := eq_of_heq hnext
    obtain rfl := eq_of_done hrest
    refine ⟨[], s, s₁, tr, rfl, hserves, fun m hm => ?_⟩
    have hwaits := hrest.own_done (R := fun _ _ => False) m hm
    cases hcall : m.call with
    | none => rfl
    | some c' =>
      rw [hcall] at hwaits
      exact (hwaits rfl).elim
  | other _ _ ih =>
    obtain ⟨tr₁, t, t', tr₂, rfl, hserves, hwaits⟩ := ih hq
    exact ⟨_ :: tr₁, t, t', tr₂, rfl, hserves, hwaits⟩

/-- A run of a program that makes a call: before it only the others move. -/
theorem first {c : κ} {next : ρ c → Program ρ α} (h : Among serves others (.call c next) s tr a s') :
    ∃ tr₁ t t' r tr₂, tr = tr₁ ++ ⟨some c, t, t'⟩ :: tr₂ ∧ (∀ m ∈ tr₁, m.call = none) ∧ serves c t r t' ∧
      Among serves others (next r) t' tr₂ a s' := by
  generalize hq : Program.call c next = q at h
  induction h with
  | done => cases hq
  | @call c' next' s s₁ s' r tr a hserves hrest =>
    obtain ⟨rfl, hnext⟩ := Program.call.inj hq
    obtain rfl := eq_of_heq hnext
    exact ⟨[], s, s₁, r, tr, rfl, fun m hm => absurd hm List.not_mem_nil, hserves, hrest⟩
  | other _ _ ih =>
    obtain ⟨tr₁, t, t', r, tr₂, rfl, hbefore, hserves, hrest⟩ := ih hq
    exact ⟨_ :: tr₁, t, t', r, tr₂, rfl, List.forall_mem_cons.mpr ⟨rfl, hbefore⟩, hserves, hrest⟩

/-- What is left of a run after one of its moments. -/
theorem cut {m : Moment κ σ} {tr₁ tr₂ : List (Moment κ σ)}
    (h : Among serves others p s (tr₁ ++ m :: tr₂) a s') :
    ∃ q : Program ρ α, (∀ P, p.Makes P → q.Makes P) ∧ Among serves others q m.after tr₂ a s' := by
  generalize htr : tr₁ ++ m :: tr₂ = tr at h
  induction h generalizing tr₁ with
  | done => cases List.append_ne_nil_of_right_ne_nil tr₁ (List.cons_ne_nil m tr₂) htr
  | @call c next s s₁ s' r tr a hserves hrest ih =>
    cases tr₁ with
    | nil =>
      obtain ⟨rfl, rfl⟩ := List.cons.inj htr
      exact ⟨next r, fun P hp => hp.2 r, hrest⟩
    | cons m' tr₁ =>
      obtain ⟨-, htail⟩ := List.cons.inj htr
      obtain ⟨q, hq, hcut⟩ := ih htail
      exact ⟨q, fun P hp => hq P (hp.2 r), hcut⟩
  | @other p s s₁ s' tr a hothers hrest ih =>
    cases tr₁ with
    | nil =>
      obtain ⟨rfl, rfl⟩ := List.cons.inj htr
      exact ⟨p, fun P hp => hp, hrest⟩
    | cons m' tr₁ =>
      obtain ⟨-, htail⟩ := List.cons.inj htr
      exact ih htail

/-! ### Programs that may fail -/

section

variable {ε : Type}

/-- What is left of a program once a part of it ended in `x`. -/
def After (serves : (c : κ) → σ → ρ c → σ → Prop) (others : σ → σ → Prop)
    (f : α → ExceptT ε (Program ρ) β) (x : Except ε α) (t : σ) (tr : List (Moment κ σ))
    (r : Except ε β) (s' : σ) : Prop :=
  match x with
  | .ok a => Among serves others (f a).run t tr r s'
  | .error e => Among serves others (.done (.error e)) t tr r s'

/-- A run of a sequence: the rest runs where the first part succeeds. -/
theorem seq {p : ExceptT ε (Program ρ) α} {f : α → ExceptT ε (Program ρ) β} {r : Except ε β}
    (h : Among serves others (p >>= f).run s tr r s') :
    ∃ tr₁ tr₂ x t, tr = tr₁ ++ tr₂ ∧ Among serves others p.run s tr₁ x t ∧
      After serves others f x t tr₂ r s' := by
  obtain ⟨tr₁, tr₂, x, t, htr, hp, hf⟩ := bind (f := ExceptT.bindCont f) h
  refine ⟨tr₁, tr₂, x, t, htr, hp, ?_⟩
  cases x <;> exact hf

/-- A run of a sequence that succeeds: both parts do. -/
theorem seq_ok {p : ExceptT ε (Program ρ) α} {f : α → ExceptT ε (Program ρ) β} {b : β}
    (h : Among serves others (p >>= f).run s tr (.ok b) s') :
    ∃ tr₁ tr₂ a t, tr = tr₁ ++ tr₂ ∧ Among serves others p.run s tr₁ (.ok a) t ∧
      Among serves others (f a).run t tr₂ (.ok b) s' := by
  obtain ⟨tr₁, tr₂, x, t, htr, hp, hf⟩ := seq h
  cases x with
  | ok a => exact ⟨tr₁, tr₂, a, t, htr, hp, hf⟩
  | error e => cases eq_of_done hf

/-- A check is no call: the rest runs where it passes. -/
theorem check {x : Except ε α} {f : α → ExceptT ε (Program ρ) β} {r : Except ε β}
    (h : Among serves others (MonadExcept.ofExcept x >>= f : ExceptT ε (Program ρ) β).run s tr r s') :
    After serves others f x s tr r s' := by
  cases x <;> exact h

theorem check_ok {x : Except ε α} {f : α → ExceptT ε (Program ρ) β} {b : β}
    (h : Among serves others (MonadExcept.ofExcept x >>= f : ExceptT ε (Program ρ) β).run s tr
      (.ok b) s') : ∃ a, x = .ok a ∧ Among serves others (f a).run s tr (.ok b) s' := by
  cases x with
  | ok a => exact ⟨a, rfl, h⟩
  | error e => cases eq_of_done (check h)

theorem append_seq {p : ExceptT ε (Program ρ) α} {f : α → ExceptT ε (Program ρ) β}
    {r : Except ε β} {t : σ} {tr₂ : List (Moment κ σ)} (h : Among serves others p.run s tr (.ok a) t)
    (h' : Among serves others (f a).run t tr₂ r s') :
    Among serves others (p >>= f).run s (tr ++ tr₂) r s' :=
  append (f := ExceptT.bindCont f) h h'

end

end Among

end Interleave
