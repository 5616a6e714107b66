import Alaya.Oidc.Flight
import Mathlib.Algebra.BigOperators.Group.Finset.Basic
import Mathlib.Algebra.Order.BigOperators.Group.Finset

/-!
# A provider is never wedged

The two gates are taken in one order, and what holds a gate is a call that can go on or a fetch that ends.  So as long as
a call is pending something can be done for it, and without new calls only so much can be done (`never_wedged`).
-/

namespace Alaya.Oidc

open Labelled

/-- The polls a phase of discovery may still take. -/
def Phase.rank : Phase → ℕ
  | .reading => 4
  | .waiting => 3
  | .checking => 2
  | .joining _ => 1

/-- The polls a call may still take. -/
def Caller.rank : Caller → ℕ
  | .discovery phase => phase.rank
  | .keyDiscovery _ phase => phase.rank + 1
  | .key _ .checking => 6
  | .key _ .waiting => 7
  | .key _ .reading => 8
  | .key _ (.joining _) => 1
  | _ => 0

/-- What is done for calls that are already there: a call goes on, or a fetch ends. -/
def Event.works {ι : Type} : Event ι → Bool
  | .poll .. | .finish .. => true
  | _ => false

def Event.calls {ι : Type} : Event ι → Bool
  | .callDiscovery _ | .callKey .. => true
  | _ => false

section

variable {ι : Type} [DecidableEq ι] {p : Provider} {w w' : World ι} {t₀ : ℕ}

/-- Whether a fetch has the gate. -/
def Gate.busy (gate : Gate ι) : ℕ :=
  match gate.holder with
  | some (.fetch _) => 1
  | _ => 0

/-- How many gates fetches have. -/
def World.fetching (w : World ι) : ℕ := (w.gate .discovery).busy + (w.gate .jwks).busy

omit [DecidableEq ι] in
theorem busy_of_ne_fetch {gate : Gate ι} (h : ∀ n, gate.holder ≠ some (.fetch n)) : gate.busy = 0 := by
  unfold Gate.busy
  split
  · next n hn => exact absurd hn (h n)
  · rfl

omit [DecidableEq ι] in
theorem fetching_le {v w : World ι} (h : ∀ kind, (v.gate kind).busy ≤ (w.gate kind).busy) : v.fetching ≤ w.fetching :=
  Nat.add_le_add (h .discovery) (h .jwks)

omit [DecidableEq ι] in
/-- A gate that does not go to a fetch is not busy. -/
theorem fetching_setHolder_le (w : World ι) (kind : Kind) {holder : Option (Holder ι)}
    (h : ∀ n, holder ≠ some (.fetch n)) : (w.setHolder kind holder).fetching ≤ w.fetching := by
  refine fetching_le fun k => ?_
  by_cases hk : k = kind
  · have hself : (w.setHolder kind holder).gate k = { w.gate kind with holder } := by
      rw [hk]
      exact Function.update_self ..
    rw [hself, busy_of_ne_fetch h]
    exact Nat.zero_le _
  · exact le_of_eq (congrArg Gate.busy (Function.update_of_ne hk ..))

omit [DecidableEq ι] in
theorem fetching_release_le (w : World ι) (kind : Kind) : (w.release kind).fetching ≤ w.fetching :=
  fetching_setHolder_le w kind fun n h => by cases h

omit [DecidableEq ι] in
theorem fetching_spawn_le (w : World ι) (fetch : Fetch) (dt : ℕ) : (w.spawn fetch dt).fetching ≤ w.fetching + 1 := by
  have hself : (w.spawn fetch dt).gate fetch.kind = ⟨w.now + dt, some (.fetch w.next)⟩ := Function.update_self ..
  have hother : ∀ kind ≠ fetch.kind, (w.spawn fetch dt).gate kind = w.gate kind := fun kind hk => Function.update_of_ne hk ..
  have hone : ((w.spawn fetch dt).gate fetch.kind).busy = 1 := by rw [hself]; rfl
  unfold World.fetching
  cases hkind : fetch.kind with
  | discovery =>
    rw [hkind] at hone hother
    rw [hone, hother .jwks nofun]
    omega
  | jwks =>
    rw [hkind] at hone hother
    rw [hone, hother .discovery nofun]
    omega

omit [DecidableEq ι] in
/-- What a poll of discovery leaves to be done. -/
theorem pollDiscovery_spec {i : ι} {dt : ℕ} {phase : Phase} {r : Phase ⊕ Except OidcError Discovery}
    (h : w.pollDiscovery i dt phase = some (w', r)) :
    w'.callers = w.callers ∧ (∀ phase', r = .inl phase' → phase'.rank < phase.rank ∧ w'.fetching ≤ w.fetching + 1) ∧
      (∀ r', r = .inr r' → w'.fetching ≤ w.fetching) := by
  rcases pollDiscovery_cases h with ⟨rfl, rfl, rfl⟩ | ⟨rfl, rfl, -, rfl⟩ | ⟨rfl, rfl, -, -, rfl⟩ | ⟨rfl, r', rfl, -, rfl⟩ |
    ⟨-, r', rfl, -, rfl⟩
  · refine ⟨rfl, fun phase' h => ?_, nofun⟩
    obtain rfl := Sum.inl.inj h
    exact ⟨by decide, Nat.le_succ _⟩
  · refine ⟨rfl, fun phase' h => ?_, nofun⟩
    obtain rfl := Sum.inl.inj h
    exact ⟨by decide, (fetching_setHolder_le w .discovery fun n h => by cases h).trans (Nat.le_succ _)⟩
  · refine ⟨rfl, fun phase' h => ?_, nofun⟩
    obtain rfl := Sum.inl.inj h
    exact ⟨Nat.one_lt_two, fetching_spawn_le w .discovery dt⟩
  · exact ⟨rfl, nofun, fun _ _ => fetching_release_le w .discovery⟩
  · exact ⟨rfl, nofun, fun _ _ => le_rfl⟩

theorem callers_setCaller_of_ne (w : World ι) {i j : ι} (c : Caller) (h : j ≠ i) :
    (w.setCaller i c).callers j = w.callers j := Function.update_of_ne h ..

theorem rank_pos (phase : Phase) : 0 < phase.rank := by
  cases phase <;> simp [Phase.rank]

/-- **A poll leaves less to be done for its call**, and starts at most one fetch. -/
theorem poll_spec {i : ι} {dt : ℕ} (h : w.poll i dt = some w') :
    (∀ j ≠ i, w'.callers j = w.callers j) ∧ (w'.callers i).rank < (w.callers i).rank ∧
      w'.fetching ≤ w.fetching + 1 := by
  -- Every branch ends by moving its call on, from a world with the callers as they were.
  have hends : ∀ (v : World ι) (c : Caller), v.callers = w.callers → c.rank < (w.callers i).rank →
      v.fetching ≤ w.fetching + 1 → (∀ j ≠ i, (v.setCaller i c).callers j = w.callers j) ∧
        ((v.setCaller i c).callers i).rank < (w.callers i).rank ∧ (v.setCaller i c).fetching ≤ w.fetching + 1 := by
    intro v c hcallers hrank hfetching
    refine ⟨fun j hj => ?_, ?_, hfetching⟩
    · rw [callers_setCaller_of_ne v c hj, hcallers]
    · rwa [World.callers_setCaller]
  unfold World.poll at h
  split at h
  case h_1 phase hc =>
    obtain ⟨⟨v, r⟩, hpoll, rfl⟩ := Option.map_eq_some_iff.mp h
    obtain ⟨hcallers, hinl, hinr⟩ := pollDiscovery_spec hpoll
    cases r with
    | inl phase' => exact hends v _ hcallers (hc ▸ (hinl _ rfl).1) (hinl _ rfl).2
    | inr r => exact hends v _ hcallers (hc ▸ rank_pos phase) ((hinr _ rfl).trans (Nat.le_succ _))
  case h_2 kid hc =>
    split at h <;> obtain rfl := Option.some.inj h
    · exact hends w _ rfl (by simp [hc, Caller.rank]) (Nat.le_succ _)
    · exact hends w _ rfl (by simp [hc, Caller.rank]) (Nat.le_succ _)
  case h_3 kid hc =>
    split at h
    · obtain rfl := Option.some.inj h
      exact hends _ _ rfl (by simp [hc, Caller.rank])
        ((fetching_setHolder_le w .jwks fun n h => by cases h).trans (Nat.le_succ _))
    · cases h
  case h_4 kid hc =>
    split at h
    · obtain rfl := Option.some.inj h
      exact hends _ _ rfl (by simp [hc, Caller.rank]) ((fetching_release_le w .jwks).trans (Nat.le_succ _))
    · split at h <;> obtain rfl := Option.some.inj h
      · exact hends _ _ rfl (by simp [hc, Caller.rank]) ((fetching_release_le w .jwks).trans (Nat.le_succ _))
      · exact hends w _ rfl (by simp [hc, Caller.rank, Phase.rank]) (Nat.le_succ _)
  case h_5 kid n hc =>
    split at h
    · obtain rfl := Option.some.inj h
      exact hends w _ rfl (by simp [hc, Caller.rank]) (Nat.le_succ _)
    · cases h
  case h_6 kid phase hc =>
    obtain ⟨⟨v, r⟩, hpoll, rfl⟩ := Option.map_eq_some_iff.mp h
    obtain ⟨hcallers, hinl, hinr⟩ := pollDiscovery_spec hpoll
    have hpos := rank_pos phase
    rcases r with phase' | (e | disc)
    · have hlt := (hinl _ rfl).1
      exact hends v _ hcallers (by rw [hc]; exact Nat.add_lt_add_right hlt 1) (hinl _ rfl).2
    · exact hends (v.release .jwks) _ hcallers (by rw [hc]; exact Nat.succ_pos _)
        ((fetching_release_le v .jwks).trans ((hinr _ rfl).trans (Nat.le_succ _)))
    · exact hends (v.spawn (.jwks disc.jwksUri kid) dt) _ hcallers (by rw [hc]; exact Nat.lt_add_of_pos_left hpos)
        ((fetching_spawn_le v _ dt).trans (Nat.add_le_add_right (hinr _ rfl) 1))
  case h_7 => cases h

theorem drop_spec {i : ι} (h : w.drop i = some w') :
    (∀ j ≠ i, w'.callers j = w.callers j) ∧ (w'.callers i).rank = 0 ∧ w'.fetching ≤ w.fetching := by
  have hends : ∀ v : World ι, v.callers = w.callers → v.fetching ≤ w.fetching →
      (∀ j ≠ i, (v.setCaller i .dropped).callers j = w.callers j) ∧
        ((v.setCaller i .dropped).callers i).rank = 0 ∧ (v.setCaller i .dropped).fetching ≤ w.fetching := by
    intro v hcallers hfetching
    refine ⟨fun j hj => ?_, ?_, hfetching⟩
    · rw [callers_setCaller_of_ne v _ hj, hcallers]
    · rw [World.callers_setCaller]
      rfl
  unfold World.drop at h
  split at h
  case h_1 => exact Option.some.inj h ▸ hends _ rfl (fetching_release_le w _)
  case h_2 => exact Option.some.inj h ▸ hends _ rfl (fetching_release_le w _)
  case h_3 => exact Option.some.inj h ▸ hends _ rfl ((fetching_release_le _ _).trans (fetching_release_le w _))
  case h_4 => exact Option.some.inj h ▸ hends _ rfl (fetching_release_le w _)
  case h_5 => exact Option.some.inj h ▸ hends w rfl le_rfl
  case h_6 => exact Option.some.inj h ▸ hends w rfl le_rfl
  case h_7 => cases h

omit [DecidableEq ι] in
/-- A fetch that ends leaves one fetch less. -/
theorem finish_spec (hheld : Held w) {n : ℕ} {response : Response} (h : w.finish p n response = some w') :
    w'.callers = w.callers ∧ w'.fetching < w.fetching := by
  have hends : ∀ (f : Fetch) (v : World ι), w.inFlight n = some f →
      v.gate = Function.update w.gate f.kind { w.gate f.kind with holder := none } → v.fetching < w.fetching := by
    intro f v hf hgate
    have hone : (w.gate f.kind).busy = 1 := by
      unfold Gate.busy
      rw [(hheld.fetch f.kind n).mpr ⟨f, hf, rfl⟩]
    have hzero : (v.gate f.kind).busy = 0 := by
      rw [hgate, Function.update_self]
      rfl
    have hother : ∀ kind ≠ f.kind, v.gate kind = w.gate kind := fun kind hk => by rw [hgate, Function.update_of_ne hk]
    unfold World.fetching
    cases hkind : f.kind with
    | discovery =>
      rw [hkind] at hone hzero hother
      rw [hone, hzero, hother .jwks nofun]
      omega
    | jwks =>
      rw [hkind] at hone hzero hother
      rw [hone, hzero, hother .discovery nofun]
      omega
  unfold World.finish at h
  split at h
  · next answer hf =>
    obtain rfl := Option.some.inj h
    exact ⟨rfl, hends _ _ hf rfl⟩
  · next uri kid answer hf =>
    obtain rfl := Option.some.inj h
    exact ⟨rfl, hends _ _ hf rfl⟩
  · cases h

/-! ### Only so much is left to do -/

/-- What is left to be done for the calls of `S`. -/
def World.left (w : World ι) (S : Finset ι) : ℕ := (∑ i ∈ S, 2 * (w.callers i).rank) + w.fetching

/-- Nothing is left to be done for a call outside `S`. -/
def World.Within (w : World ι) (S : Finset ι) : Prop := ∀ i ∉ S, (w.callers i).rank = 0

omit [DecidableEq ι] in
theorem left_lt {S : Finset ι} {i : ι} (hi : i ∈ S) (hothers : ∀ j ≠ i, w'.callers j = w.callers j)
    (hrank : (w'.callers i).rank < (w.callers i).rank) (hfetching : w'.fetching ≤ w.fetching + 1) :
    w'.left S < w.left S := by
  have hsum : (∑ j ∈ S, 2 * (w'.callers j).rank) + 2 ≤ ∑ j ∈ S, 2 * (w.callers j).rank := by
    classical
    rw [← Finset.add_sum_erase S _ hi, ← Finset.add_sum_erase S (fun j => 2 * (w.callers j).rank) hi]
    have hrest : ∑ j ∈ S.erase i, 2 * (w'.callers j).rank = ∑ j ∈ S.erase i, 2 * (w.callers j).rank :=
      Finset.sum_congr rfl fun j hj => by rw [hothers j (Finset.ne_of_mem_erase hj)]
    rw [hrest]
    omega
  unfold World.left
  omega

/-- **What a step without a new call leaves to be done**: less, if it did something. -/
theorem left_step {S : Finset ι} {e : Event ι} (hheld : Held w) (hS : w.Within S) (h : Step p w e w')
    (hcalls : e.calls = false) : w'.Within S ∧ w'.left S + (if e.works then 1 else 0) ≤ w.left S := by
  have hmoved : ∀ i, (w'.callers i).rank ≤ (w.callers i).rank → (∀ j ≠ i, w'.callers j = w.callers j) → w'.Within S := by
    intro i hi hothers j hj
    by_cases hji : j = i
    · exact hji ▸ Nat.le_zero.mp (hi.trans (hji ▸ (hS j hj).le))
    · rw [hothers j hji]
      exact hS j hj
  cases h with
  | tick dt => exact ⟨hS, le_rfl⟩
  | callDiscovery _ => cases hcalls
  | callKey _ => cases hcalls
  | @poll _ i dt h =>
    obtain ⟨hothers, hrank, hfetching⟩ := poll_spec h
    have hi : i ∈ S := by
      by_contra hi
      rw [hS i hi] at hrank
      exact Nat.not_lt_zero _ hrank
    exact ⟨hmoved i hrank.le hothers, left_lt hi hothers hrank hfetching⟩
  | @drop _ i h =>
    obtain ⟨hothers, hrank, hfetching⟩ := drop_spec h
    have hsum : w'.left S ≤ w.left S := Nat.add_le_add (Finset.sum_le_sum fun j _ => ?_) hfetching
    · exact ⟨hmoved i (hrank ▸ Nat.zero_le _) hothers, hsum⟩
    by_cases hj : j = i
    · rw [hj, hrank]
      exact Nat.zero_le _
    · rw [hothers j hj]
  | finish h =>
    obtain ⟨hcallers, hfetching⟩ := finish_spec hheld h
    refine ⟨fun i hi => hcallers ▸ hS i hi, ?_⟩
    unfold World.left
    rw [hcallers]
    exact Nat.add_lt_add_left hfetching _

/-- Without a new call only so much can be done. -/
theorem works_le {S : Finset ι} {tr : List (Event ι)} (hheld : Held w) (hS : w.Within S) (h : Run (Step p) w tr w')
    (hcalls : ∀ e ∈ tr, e.calls = false) : tr.countP Event.works ≤ w.left S := by
  have hinv := h.invariant (fun tr v => (∀ e ∈ tr, e.calls = false) → Held v ∧ v.Within S ∧
    v.left S + tr.countP Event.works ≤ w.left S) (fun _ => ⟨hheld, hS, le_rfl⟩) fun tr v e v' _ hv hstep hcalls => ?_
  · have := (hinv hcalls).2.2
    omega
  · obtain ⟨hheld, hS, hleft⟩ := hv fun e he => hcalls e (List.mem_append_left _ he)
    obtain ⟨hS', hleft'⟩ := left_step hheld hS hstep (hcalls e (List.mem_append_right _ List.mem_cons_self))
    refine ⟨?_, hS', ?_⟩
    · exact held_step hheld hstep
    · rw [List.countP_append, List.countP_singleton]
      omega

/-! ### Something can be done -/

theorem finish_of_inFlight {n : ℕ} {f : Fetch} (hf : w.inFlight n = some f) :
    ∃ e w', Event.works e = true ∧ Step p w e w' := by
  have hends : ∃ response, (w.finish p n response).isSome = true := by
    cases f with
    | discovery => exact ⟨.discovery .unsent, by unfold World.finish; rw [hf]; rfl⟩
    | jwks uri kid => exact ⟨.jwks .unsent, by unfold World.finish; rw [hf]; rfl⟩
  obtain ⟨response, hsome⟩ := hends
  obtain ⟨w', hw'⟩ := Option.isSome_iff_exists.mp hsome
  exact ⟨.finish n response, w', rfl, .finish hw'⟩

omit [DecidableEq ι] in
/-- A discovery that does not wait for its gate goes on once the fetch it joined has ended. -/
theorem pollDiscovery_isSome {i : ι} {phase : Phase} (hwaits : phase ≠ .waiting)
    (hjoins : ∀ n, phase = .joining n → ∃ r, w.outcome n = some (.discovery r)) :
    (w.pollDiscovery i 0 phase).isSome = true := by
  unfold World.pollDiscovery
  cases phase with
  | waiting => exact absurd rfl hwaits
  | reading =>
    dsimp only
    split <;> rfl
  | checking =>
    dsimp only
    split
    · rfl
    · split <;> rfl
  | joining n =>
    obtain ⟨r, hr⟩ := hjoins n rfl
    dsimp only
    rw [hr]
    rfl

/-- A call that waits for no gate goes on once the fetch it joined has ended. -/
theorem poll_isSome (hheld : Held w) (hidle : ∀ n, w.inFlight n = none) {i : ι} (hpending : 0 < (w.callers i).rank)
    (hdiscovery : w.callers i ≠ .discovery .waiting) (hkey : ∀ kid, w.callers i ≠ .key kid .waiting)
    (hkeyDiscovery : ∀ kid, w.callers i ≠ .keyDiscovery kid .waiting) : (w.poll i 0).isSome = true := by
  have hended : ∀ kind n, (w.callers i).joins = some (kind, n) → ∃ o, w.outcome n = some o ∧ o.kind = kind := by
    intro kind n h
    rcases hheld.joins i kind n h with ⟨f, hf, -⟩ | h
    · cases (hidle n).symm.trans hf
    · exact h
  have hdiscoveryEnded : ∀ n, (w.callers i).joins = some (.discovery, n) → ∃ r, w.outcome n = some (.discovery r) := by
    intro n h
    obtain ⟨o, ho, hkind⟩ := hended _ n h
    cases o with
    | discovery r => exact ⟨r, ho⟩
    | jwks r => cases hkind
  unfold World.poll
  cases hc : w.callers i with
  | discovery phase =>
    dsimp only
    rw [Option.isSome_map]
    exact pollDiscovery_isSome (fun h => hdiscovery (h ▸ hc)) fun n h => hdiscoveryEnded n (by rw [hc, h]; rfl)
  | keyDiscovery kid phase =>
    dsimp only
    rw [Option.isSome_map]
    exact pollDiscovery_isSome (fun h => hkeyDiscovery kid (h ▸ hc)) fun n h => hdiscoveryEnded n (by rw [hc, h]; rfl)
  | key kid phase =>
    cases phase with
    | reading =>
      dsimp only
      split <;> rfl
    | waiting => exact absurd hc (hkey kid)
    | checking =>
      dsimp only
      split
      · rfl
      · split <;> rfl
    | joining n =>
      obtain ⟨o, ho, hkind⟩ := hended .jwks n (by rw [hc]; rfl)
      cases o with
      | discovery r => cases hkind
      | jwks r =>
        dsimp only
        rw [ho]
        rfl
  | idle | returnedDiscovery _ | returnedKey _ | dropped =>
    rw [hc] at hpending
    exact absurd hpending (Nat.lt_irrefl _)

theorem works_of_poll {i : ι} (h : (w.poll i 0).isSome = true) : ∃ e w', Event.works e = true ∧ Step p w e w' := by
  obtain ⟨w', hw'⟩ := Option.isSome_iff_exists.mp h
  exact ⟨.poll i 0, w', rfl, .poll hw'⟩

/-- **Something can be done as long as a call is pending**: for the call itself, for a fetch in flight, or for the call
that holds the gate it waits for.  The gates are taken in one order, so that ends after two. -/
theorem works_of_pending (hheld : Held w) {i : ι} (hpending : 0 < (w.callers i).rank) :
    ∃ e w', Event.works e = true ∧ Step p w e w' := by
  by_cases hflight : ∃ n f, w.inFlight n = some f
  · obtain ⟨n, f, hf⟩ := hflight
    exact finish_of_inFlight hf
  have hidle : ∀ n, w.inFlight n = none := by
    intro n
    by_contra hn
    obtain ⟨f, hf⟩ := Option.ne_none_iff_exists'.mp hn
    exact hflight ⟨n, f, hf⟩
  -- A gate is free or held by a call, as no fetch is in flight.
  have hholder : ∀ kind, (w.gate kind).holder = none ∨ ∃ j, (w.callers j).holds kind = true := by
    intro kind
    cases hgate : (w.gate kind).holder with
    | none => exact .inl rfl
    | some holder =>
      cases holder with
      | caller j => exact .inr ⟨j, (hheld.caller kind j).mp hgate⟩
      | fetch n =>
        obtain ⟨f, hf, -⟩ := (hheld.fetch kind n).mp hgate
        cases (hidle n).symm.trans hf
  -- A call that holds the discovery gate goes on.
  have hdiscovery : ∀ j, (w.callers j).holds .discovery = true → (w.poll j 0).isSome = true := by
    intro j hj
    cases hc : w.callers j with
    | discovery phase =>
      rw [hc] at hj
      obtain rfl : phase = .checking := of_decide_eq_true hj
      exact poll_isSome hheld hidle (by simp [hc, Caller.rank, Phase.rank]) (by simp [hc]) (by simp [hc]) (by simp [hc])
    | keyDiscovery kid phase =>
      rw [hc] at hj
      obtain rfl : phase = .checking := of_decide_eq_true hj
      exact poll_isSome hheld hidle (by simp [hc, Caller.rank]) (by simp [hc]) (by simp [hc]) (by simp [hc])
    | _ => rw [hc] at hj; cases hj
  -- So does one that waits for it, if it is free.
  have hwaits : ∀ j kid, w.callers j = .keyDiscovery kid .waiting ∨ w.callers j = .discovery .waiting →
      ∃ e w', Event.works e = true ∧ Step p w e w' := by
    intro j kid hj
    rcases hholder .discovery with hfree | ⟨k, hk⟩
    · refine works_of_poll (i := j) ?_
      unfold World.poll
      rcases hj with hj | hj <;>
      · rw [hj]
        dsimp only
        rw [Option.isSome_map]
        unfold World.pollDiscovery
        dsimp only
        rw [if_pos hfree]
        rfl
    · exact works_of_poll (hdiscovery k hk)
  -- And one that holds the key gate, which may wait for discovery's.
  have hkey : ∀ j, (w.callers j).holds .jwks = true → ∃ e w', Event.works e = true ∧ Step p w e w' := by
    intro j hj
    cases hc : w.callers j with
    | key kid phase =>
      rw [hc] at hj
      obtain rfl : phase = .checking := of_decide_eq_true hj
      exact works_of_poll (i := j) (poll_isSome hheld hidle (by simp [hc, Caller.rank]) (by simp [hc]) (by simp [hc])
        (by simp [hc]))
    | keyDiscovery kid phase =>
      by_cases hphase : phase = .waiting
      · exact hwaits j kid (.inl (hphase ▸ hc))
      · exact works_of_poll (i := j) (poll_isSome hheld hidle (by simp [hc, Caller.rank]) (by simp [hc]) (by simp [hc])
          (by simp [hc, hphase]))
    | _ => rw [hc] at hj; cases hj
  by_cases hd : w.callers i = .discovery .waiting
  · exact hwaits i "" (.inr hd)
  by_cases hk : ∃ kid, w.callers i = .key kid .waiting
  · obtain ⟨kid, hk⟩ := hk
    rcases hholder .jwks with hfree | ⟨j, hj⟩
    · refine works_of_poll (i := i) ?_
      unfold World.poll
      rw [hk]
      dsimp only
      rw [if_pos hfree]
      rfl
    · exact hkey j hj
  by_cases hkd : ∃ kid, w.callers i = .keyDiscovery kid .waiting
  · obtain ⟨kid, hkd⟩ := hkd
    exact hwaits i kid (.inl hkd)
  exact works_of_poll (poll_isSome hheld hidle hpending hd (fun kid h => hk ⟨kid, h⟩) fun kid h => hkd ⟨kid, h⟩)

/-- Only the calls made are ever pending. -/
theorem within_run {tr : List (Event ι)} (h : Run (Step p) (World.start t₀) tr w) : ∃ S : Finset ι, w.Within S := by
  refine h.invariant (fun _ w => ∃ S : Finset ι, w.Within S) ⟨∅, fun _ _ => rfl⟩ fun tr v e v' hrun hv hstep => ?_
  obtain ⟨S, hS⟩ := hv
  have hcall : ∀ i c, v' = v.setCaller i c → ∃ S : Finset ι, v'.Within S := by
    rintro i c rfl
    refine ⟨insert i S, fun j hj => ?_⟩
    rw [Finset.mem_insert, not_or] at hj
    rw [callers_setCaller_of_ne v c hj.1]
    exact hS j hj.2
  cases e with
  | callDiscovery i =>
    cases hstep
    exact hcall i _ rfl
  | callKey i kid =>
    cases hstep
    exact hcall i _ rfl
  | tick dt => exact ⟨S, (left_step (kept_run hrun).1 hS hstep rfl).1⟩
  | poll i dt => exact ⟨S, (left_step (kept_run hrun).1 hS hstep rfl).1⟩
  | drop i => exact ⟨S, (left_step (kept_run hrun).1 hS hstep rfl).1⟩
  | finish n response => exact ⟨S, (left_step (kept_run hrun).1 hS hstep rfl).1⟩

/-- **A provider is never wedged.**  In every state reached, whatever calls went away: while a call is pending, a call can
go on or a fetch in flight can end; and without new calls that happens only so many times, so every pending call returns
or is dropped. -/
theorem never_wedged {tr : List (Event ι)} (h : Run (Step p) (World.start t₀) tr w) :
    ((∃ i, 0 < (w.callers i).rank) → ∃ e w', Event.works e = true ∧ Step p w e w') ∧
      ∃ bound, ∀ tr' w', Run (Step p) w tr' w' → (∀ e ∈ tr', e.calls = false) → tr'.countP Event.works ≤ bound := by
  have hheld := (kept_run h).1
  obtain ⟨S, hS⟩ := within_run h
  exact ⟨fun ⟨_, hi⟩ => works_of_pending hheld hi, w.left S, fun _ _ h' hcalls => works_le hheld hS h' hcalls⟩

end

/-- After the call that went away, what is left to do is bounded. -/
theorem never_wedged_hangUp : ∃ w : World Bool, w.discovery = some HangUp.document ∧ ∃ bound, ∀ tr' w',
    Run (Step HangUp.provider) w tr' w' → (∀ e ∈ tr', e.calls = false) → tr'.countP Event.works ≤ bound := by
  obtain ⟨w, hrun, hdiscovery⟩ := HangUp.run
  exact ⟨w, hdiscovery, (never_wedged hrun).2⟩

end Alaya.Oidc
