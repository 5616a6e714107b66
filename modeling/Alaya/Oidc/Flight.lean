import Alaya.Lib.Windows
import Alaya.Oidc.Provider

/-!
# Fetches of a provider under many calls

Any number of calls of `discovery` and `key_for_kid` run side by side, and each may be dropped at any await.  Whatever
they and the identity provider do, at most one fetch of a kind is in flight, the fetches of a kind start a cooldown
apart, and a cooldown is armed by a fetch that runs to its end (`fetches_apart`).
-/

namespace Alaya.Oidc

open Labelled

inductive Kind where
  | discovery
  | jwks
  deriving DecidableEq

def Kind.cooldown : Kind → ℕ
  | .discovery => discoveryCooldown
  | .jwks => jwksCooldown

/-- Who holds a gate: a call, or the fetch that took it along. -/
inductive Holder (ι : Type) where
  | caller (i : ι)
  | fetch (n : ℕ)
  deriving DecidableEq

/-- A single-flight gate and the time of its last fetch. -/
structure Gate (ι : Type) where
  last : ℕ
  holder : Option (Holder ι)

/-- Where a call of `discovery` or of `key_for_kid` awaits. -/
inductive Phase where
  /-- The read of its cache. -/
  | reading
  /-- Its gate. -/
  | waiting
  /-- The second read, with the gate held. -/
  | checking
  /-- The end of a fetch. -/
  | joining (n : ℕ)
  deriving DecidableEq

inductive Caller where
  | idle
  | discovery (phase : Phase)
  | key (kid : String) (phase : Phase)
  /-- A call for a key, in discovery with the key gate held. -/
  | keyDiscovery (kid : String) (phase : Phase)
  | returnedDiscovery (r : Except OidcError Discovery)
  | returnedKey (r : Except OidcError Jwk)
  | dropped

/-- A detached fetch. -/
inductive Fetch where
  | discovery
  | jwks (uri kid : String)
  deriving DecidableEq

def Fetch.kind : Fetch → Kind
  | .discovery => .discovery
  | .jwks .. => .jwks

/-- What a detached fetch hands to the call that joins it. -/
inductive Outcome where
  | discovery (r : Except OidcError Discovery)
  | jwks (r : Except OidcError Jwk)

/-- What answers a fetch. -/
inductive Response where
  | discovery (answer : Answer Discovery)
  | jwks (answer : Answer (List Jwk))

structure World (ι : Type) where
  now : ℕ
  gate : Kind → Gate ι
  discovery : Option Discovery
  keys : String → Option Jwk
  callers : ι → Caller
  /-- The fetches in flight, by number. -/
  inFlight : ℕ → Option Fetch
  outcome : ℕ → Option Outcome
  /-- The number of the next fetch. -/
  next : ℕ
  /-- When each fetch was started, the newest first; no step reads it. -/
  started : List (Kind × ℕ)

namespace World

variable {ι : Type} [DecidableEq ι]

/-- `cooled_down`: the gates of a new provider lie in the past. -/
def cooledDown (now : ℕ) : ℕ := if 2 * jwksCooldown ≤ now then now - 2 * jwksCooldown else now

/-- A new provider. -/
def start (now : ℕ) : World ι where
  now
  gate _ := ⟨cooledDown now, none⟩
  discovery := none
  keys _ := none
  callers _ := .idle
  inFlight _ := none
  outcome _ := none
  next := 0
  started := []

variable (w : World ι)

def setHolder (kind : Kind) (holder : Option (Holder ι)) : World ι :=
  { w with gate := Function.update w.gate kind { w.gate kind with holder } }

def release (kind : Kind) : World ι := w.setHolder kind none

def setCaller (i : ι) (c : Caller) : World ι := { w with callers := Function.update w.callers i c }

/-- Arm the cooldown, `dt` after it was found to be over, and spawn the fetch with the gate. -/
def spawn (fetch : Fetch) (dt : ℕ) : World ι :=
  { w with
    now := w.now + dt
    gate := Function.update w.gate fetch.kind ⟨w.now + dt, some (.fetch w.next)⟩
    inFlight := Function.update w.inFlight w.next (some fetch)
    next := w.next + 1
    started := (fetch.kind, w.now + dt) :: w.started }

/-- The cooldown of a kind is not over. -/
def cooling (kind : Kind) : Bool := w.now - (w.gate kind).last < kind.cooldown

/-- `discovery` from one await to the next; `none` where what it awaits is not there. -/
def pollDiscovery (i : ι) (dt : ℕ) : Phase → Option (World ι × (Phase ⊕ Except OidcError Discovery))
  | .reading =>
    match w.discovery with
    | some disc => some (w, .inr (.ok disc))
    | none => some (w, .inl .waiting)
  | .waiting =>
    if (w.gate .discovery).holder = none then some (w.setHolder .discovery (some (.caller i)), .inl .checking) else none
  | .checking =>
    match w.discovery with
    | some disc => some (w.release .discovery, .inr (.ok disc))
    | none =>
      if w.cooling .discovery then
        some (w.release .discovery, .inr (.error (.provider "discovery (cooldown)" .cooldown)))
      else some (w.spawn .discovery dt, .inl (.joining w.next))
  | .joining n =>
    match w.outcome n with
    | some (.discovery r) => some (w, .inr r)
    | _ => none

/-- A call from one await to the next. -/
def poll (i : ι) (dt : ℕ) : Option (World ι) :=
  match w.callers i with
  | .discovery phase => (w.pollDiscovery i dt phase).map fun
    | (w', .inl phase') => w'.setCaller i (.discovery phase')
    | (w', .inr r) => w'.setCaller i (.returnedDiscovery r)
  | .key kid .reading =>
    match w.keys kid with
    | some jwk => some (w.setCaller i (.returnedKey (.ok jwk)))
    | none => some (w.setCaller i (.key kid .waiting))
  | .key kid .waiting =>
    if (w.gate .jwks).holder = none then
      some ((w.setHolder .jwks (some (.caller i))).setCaller i (.key kid .checking))
    else none
  | .key kid .checking =>
    match w.keys kid with
    | some jwk => some ((w.release .jwks).setCaller i (.returnedKey (.ok jwk)))
    | none =>
      if w.cooling .jwks then
        some ((w.release .jwks).setCaller i (.returnedKey (.error (.invalid "unknown kid (cooldown)"))))
      else some (w.setCaller i (.keyDiscovery kid .reading))
  | .key _ (.joining n) =>
    match w.outcome n with
    | some (.jwks r) => some (w.setCaller i (.returnedKey r))
    | _ => none
  | .keyDiscovery kid phase => (w.pollDiscovery i dt phase).map fun
    | (w', .inl phase') => w'.setCaller i (.keyDiscovery kid phase')
    | (w', .inr (.error e)) => (w'.release .jwks).setCaller i (.returnedKey (.error e))
    | (w', .inr (.ok disc)) =>
      (w'.spawn (.jwks disc.jwksUri kid) dt).setCaller i (.key kid (.joining w'.next))
  | _ => none

/-- A call goes away: what it holds is released, what it spawned runs on. -/
def drop (i : ι) : Option (World ι) :=
  match w.callers i with
  | .discovery .checking => some ((w.release .discovery).setCaller i .dropped)
  | .key _ .checking => some ((w.release .jwks).setCaller i .dropped)
  | .keyDiscovery _ .checking => some (((w.release .discovery).release .jwks).setCaller i .dropped)
  | .keyDiscovery _ _ => some ((w.release .jwks).setCaller i .dropped)
  | .discovery _ | .key _ _ => some (w.setCaller i .dropped)
  | _ => none

/-- A detached fetch ends: what it fetched is cached before the gate is released. -/
def finish (p : Provider) (n : ℕ) (response : Response) : Option (World ι) :=
  match w.inFlight n, response with
  | some .discovery, .discovery answer =>
    let r := p.fetchDiscovery answer
    some ({ w with
      discovery := r.toOption.or w.discovery
      inFlight := Function.update w.inFlight n none
      outcome := Function.update w.outcome n (some (.discovery r)) }.release .discovery)
  | some (.jwks _ kid), .jwks answer =>
    let r := (fetchJson jwksOps answer).map keyMap
    some ({ w with
      keys := r.toOption.getD w.keys
      inFlight := Function.update w.inFlight n none
      outcome := Function.update w.outcome n
        (some (.jwks (r.bind fun keys => (keys kid).elim (.error (.invalid "unknown kid")) .ok))) }.release .jwks)
  | _, _ => none

end World

/-- What can happen to a provider. -/
inductive Event (ι : Type) where
  | tick (dt : ℕ)
  | callDiscovery (i : ι)
  | callKey (i : ι) (kid : String)
  | poll (i : ι) (dt : ℕ)
  | drop (i : ι)
  | finish (n : ℕ) (response : Response)

/-- One event of a provider. -/
inductive Step {ι : Type} [DecidableEq ι] (p : Provider) : World ι → Event ι → World ι → Prop
  | tick (w : World ι) (dt : ℕ) : Step p w (.tick dt) { w with now := w.now + dt }
  | callDiscovery {w : World ι} {i : ι} : w.callers i = .idle →
      Step p w (.callDiscovery i) (w.setCaller i (.discovery .reading))
  | callKey {w : World ι} {i : ι} {kid : String} : w.callers i = .idle →
      Step p w (.callKey i kid) (w.setCaller i (.key kid .reading))
  | poll {w w' : World ι} {i : ι} {dt : ℕ} : w.poll i dt = some w' → Step p w (.poll i dt) w'
  | drop {w w' : World ι} {i : ι} : w.drop i = some w' → Step p w (.drop i) w'
  | finish {w w' : World ι} {n : ℕ} {response : Response} : w.finish p n response = some w' →
      Step p w (.finish n response) w'

/-! ### What a step can do -/

namespace Caller

/-- The gates a call holds. -/
def holds : Caller → Kind → Bool
  | .discovery phase, .discovery => phase = .checking
  | .key _ phase, .jwks => phase = .checking
  | .keyDiscovery _ phase, .discovery => phase = .checking
  | .keyDiscovery _ _, .jwks => true
  | _, _ => false

/-- The fetch a call waits for the end of. -/
def joins : Caller → Option (Kind × ℕ)
  | .discovery (.joining n) | .keyDiscovery _ (.joining n) => some (.discovery, n)
  | .key _ (.joining n) => some (.jwks, n)
  | _ => none

/-- A call for a key in discovery has found the key cooldown over. -/
def inDiscovery : Caller → Bool
  | .keyDiscovery .. => true
  | _ => false

end Caller

section

variable {ι : Type} [DecidableEq ι]

/-- A document the provider has: cached, or just fetched. -/
def World.Knows (w : World ι) (disc : Discovery) : Prop :=
  w.discovery = some disc ∨ ∃ n, w.outcome n = some (.discovery (.ok disc))

/-- What the events of a provider are made of. -/
inductive Move (p : Provider) (w : World ι) : World ι → Prop
  | tick (dt : ℕ) : Move p w { w with now := w.now + dt }
  /-- A call goes on, with the gates it holds. -/
  | go {i : ι} {c : Caller} : c.holds = (w.callers i).holds → c.joins = none →
      (c.inDiscovery = true → (w.callers i).inDiscovery = true ∨ w.cooling .jwks = false) →
      Move p w (w.setCaller i c)
  | acquire {i : ι} {c : Caller} {kind : Kind} : (w.gate kind).holder = none →
      c.holds = Function.update (w.callers i).holds kind true → c.joins = none →
      (c.inDiscovery = true → (w.callers i).inDiscovery = true) →
      Move p w ((w.setHolder kind (some (.caller i))).setCaller i c)
  | release {i : ι} {c : Caller} {kind : Kind} : (w.callers i).holds kind = true →
      c.holds = Function.update (w.callers i).holds kind false → c.joins = none →
      (c.inDiscovery = true → (w.callers i).inDiscovery = true) →
      Move p w ((w.release kind).setCaller i c)
  | spawn {i : ι} {c : Caller} {fetch : Fetch} {dt : ℕ} : (w.callers i).holds fetch.kind = true →
      c.holds = Function.update (w.callers i).holds fetch.kind false → c.joins = some (fetch.kind, w.next) →
      (c.inDiscovery = true → (w.callers i).inDiscovery = true) →
      (w.cooling fetch.kind = false ∨ fetch.kind = .jwks ∧ (w.callers i).inDiscovery = true) →
      (fetch = .discovery → w.discovery = none) →
      (∀ uri kid, fetch = .jwks uri kid → ∃ disc, w.Knows disc ∧ uri = disc.jwksUri) →
      Move p w ((w.spawn fetch dt).setCaller i c)
  | finish {w' : World ι} {n : ℕ} {response : Response} : w.finish p n response = some w' → Move p w w'

open Relation

variable {p : Provider} {w w' : World ι} {t₀ : ℕ}

@[simp] theorem World.setCaller_setCaller (w : World ι) (i : ι) (c c' : Caller) :
    (w.setCaller i c).setCaller i c' = w.setCaller i c' := by
  simp [World.setCaller]

theorem World.release_setCaller (w : World ι) (i : ι) (c : Caller) (kind : Kind) :
    (w.setCaller i c).release kind = (w.release kind).setCaller i c := rfl

theorem World.spawn_setCaller (w : World ι) (i : ι) (c : Caller) (fetch : Fetch) (dt : ℕ) :
    (w.setCaller i c).spawn fetch dt = (w.spawn fetch dt).setCaller i c := rfl

theorem World.next_setCaller (w : World ι) (i : ι) (c : Caller) : (w.setCaller i c).next = w.next := rfl

theorem World.callers_setCaller (w : World ι) (i : ι) (c : Caller) : (w.setCaller i c).callers i = c :=
  Function.update_self ..

omit [DecidableEq ι] in
/-- **What a poll of discovery does.** -/
theorem pollDiscovery_cases {i : ι} {dt : ℕ} {phase : Phase} {r : Phase ⊕ Except OidcError Discovery}
    (h : w.pollDiscovery i dt phase = some (w', r)) :
    (phase = .reading ∧ r = .inl .waiting ∧ w' = w) ∨
    (phase = .waiting ∧ r = .inl .checking ∧ (w.gate .discovery).holder = none ∧
      w' = w.setHolder .discovery (some (.caller i))) ∨
    (phase = .checking ∧ r = .inl (.joining w.next) ∧ w.discovery = none ∧ w.cooling .discovery = false ∧
      w' = w.spawn .discovery dt) ∨
    (phase = .checking ∧ ∃ r', r = .inr r' ∧ (∀ disc, r' = .ok disc → w.Knows disc) ∧ w' = w.release .discovery) ∨
    (phase ≠ .checking ∧ ∃ r', r = .inr r' ∧ (∀ disc, r' = .ok disc → w.Knows disc) ∧ w' = w) := by
  cases phase with
  | reading =>
    simp only [World.pollDiscovery] at h
    split at h
    · next disc hdisc =>
      obtain ⟨rfl, rfl⟩ := Prod.mk.inj (Option.some.inj h)
      exact .inr (.inr (.inr (.inr ⟨nofun, _, rfl, fun d hd => .inl (hdisc.trans (congrArg _ (Except.ok.inj hd))),
        rfl⟩)))
    · obtain ⟨rfl, rfl⟩ := Prod.mk.inj (Option.some.inj h)
      exact .inl ⟨rfl, rfl, rfl⟩
  | waiting =>
    simp only [World.pollDiscovery] at h
    split at h
    · next hfree =>
      obtain ⟨rfl, rfl⟩ := Prod.mk.inj (Option.some.inj h)
      exact .inr (.inl ⟨rfl, rfl, hfree, rfl⟩)
    · cases h
  | checking =>
    simp only [World.pollDiscovery] at h
    split at h
    · next disc hdisc =>
      obtain ⟨rfl, rfl⟩ := Prod.mk.inj (Option.some.inj h)
      exact .inr (.inr (.inr (.inl ⟨rfl, _, rfl,
        fun d hd => .inl (hdisc.trans (congrArg _ (Except.ok.inj hd))), rfl⟩)))
    · next hnone =>
      split at h
      · obtain ⟨rfl, rfl⟩ := Prod.mk.inj (Option.some.inj h)
        exact .inr (.inr (.inr (.inl ⟨rfl, _, rfl, nofun, rfl⟩)))
      · next hover =>
        obtain ⟨rfl, rfl⟩ := Prod.mk.inj (Option.some.inj h)
        exact .inr (.inr (.inl ⟨rfl, rfl, hnone, Bool.eq_false_iff.mpr hover, rfl⟩))
  | joining n =>
    simp only [World.pollDiscovery] at h
    split at h
    · next r' hr =>
      obtain ⟨rfl, rfl⟩ := Prod.mk.inj (Option.some.inj h)
      exact .inr (.inr (.inr (.inr ⟨nofun, _, rfl, fun d hd => .inr ⟨n, hd ▸ hr⟩, rfl⟩)))
    · cases h

omit [DecidableEq ι] in
theorem Kind.funext {f g : Kind → Bool} (hdiscovery : f .discovery = g .discovery) (hjwks : f .jwks = g .jwks) :
    f = g := by
  funext kind
  cases kind
  · exact hdiscovery
  · exact hjwks

/-- Where a call for a key ends up once it has discovery's answer. -/
def World.leave (w : World ι) (i : ι) (kid : String) (dt : ℕ) : Except OidcError Discovery → World ι
  | .error e => (w.release .jwks).setCaller i (.returnedKey (.error e))
  | .ok disc => (w.spawn (.jwks disc.jwksUri kid) dt).setCaller i (.key kid (.joining w.next))

theorem move_leave {i : ι} {kid : String} {phase : Phase} {dt : ℕ} {r : Except OidcError Discovery}
    (hc : w.callers i = .keyDiscovery kid phase) (hphase : phase ≠ .checking)
    (hknows : ∀ disc, r = .ok disc → w.Knows disc) : Move p w (w.leave i kid dt r) := by
  have hholds : (w.callers i).holds .discovery = false := by
    rw [hc]
    exact decide_eq_false hphase
  have hkey : (w.callers i).holds .jwks = true := by rw [hc]; rfl
  cases r with
  | error e => exact .release hkey (Kind.funext hholds.symm rfl) rfl nofun
  | ok disc =>
    refine .spawn hkey (Kind.funext hholds.symm rfl) rfl nofun (.inr ⟨rfl, by rw [hc]; rfl⟩) nofun fun uri kid' h => ?_
    obtain ⟨rfl, rfl⟩ := Fetch.jwks.inj h
    exact ⟨disc, hknows disc rfl, rfl⟩

/-- **A poll is made of moves**: a call for a key may leave the discovery gate before it spawns its fetch or gives
up the key gate. -/
theorem moves_poll {i : ι} {dt : ℕ} (h : w.poll i dt = some w') : ReflTransGen (Move p) w w' := by
  unfold World.poll at h
  split at h
  case h_1 phase hc =>
    obtain ⟨⟨w₁, r⟩, hpoll, rfl⟩ := Option.map_eq_some_iff.mp h
    rcases pollDiscovery_cases hpoll with ⟨rfl, rfl, rfl⟩ | ⟨rfl, rfl, hfree, rfl⟩ | ⟨rfl, rfl, hnone, hover, rfl⟩ |
      ⟨rfl, r, rfl, -, rfl⟩ | ⟨hphase, r, rfl, -, rfl⟩
    · exact .single (.go (by rw [hc]; exact Kind.funext rfl rfl) rfl nofun)
    · exact .single (.acquire hfree (by rw [hc]; exact Kind.funext rfl rfl) rfl nofun)
    · exact .single (.spawn (by rw [hc]; rfl) (by rw [hc]; exact Kind.funext rfl rfl) rfl nofun (.inl hover)
        (fun _ => hnone) nofun)
    · exact .single (.release (by rw [hc]; rfl) (by rw [hc]; exact Kind.funext rfl rfl) rfl nofun)
    · refine .single (.go ?_ rfl nofun)
      rw [hc]
      exact Kind.funext (decide_eq_false hphase).symm rfl
  case h_2 kid hc =>
    split at h <;> obtain rfl := Option.some.inj h
    · exact .single (.go (by rw [hc]; exact Kind.funext rfl rfl) rfl nofun)
    · exact .single (.go (by rw [hc]; exact Kind.funext rfl rfl) rfl nofun)
  case h_3 kid hc =>
    split at h
    · next hfree =>
      obtain rfl := Option.some.inj h
      exact .single (.acquire hfree (by rw [hc]; exact Kind.funext rfl rfl) rfl nofun)
    · cases h
  case h_4 kid hc =>
    split at h
    · obtain rfl := Option.some.inj h
      exact .single (.release (by rw [hc]; rfl) (by rw [hc]; exact Kind.funext rfl rfl) rfl nofun)
    · split at h <;> obtain rfl := Option.some.inj h
      · exact .single (.release (by rw [hc]; rfl) (by rw [hc]; exact Kind.funext rfl rfl) rfl nofun)
      · next hover =>
        exact .single (.go (by rw [hc]; exact Kind.funext rfl rfl) rfl
          fun _ => .inr (Bool.eq_false_iff.mpr hover))
  case h_5 kid n hc =>
    split at h
    · obtain rfl := Option.some.inj h
      exact .single (.go (by rw [hc]; exact Kind.funext rfl rfl) rfl nofun)
    · cases h
  case h_6 kid phase hc =>
    obtain ⟨⟨w₁, r⟩, hpoll, rfl⟩ := Option.map_eq_some_iff.mp h
    have hkey : (w.callers i).holds .jwks = true := by rw [hc]; rfl
    have hin : (w.callers i).inDiscovery = true := by rw [hc]; rfl
    rcases pollDiscovery_cases hpoll with ⟨rfl, rfl, rfl⟩ | ⟨rfl, rfl, hfree, rfl⟩ | ⟨rfl, rfl, hnone, hover, rfl⟩ |
      ⟨rfl, r, rfl, hknows, rfl⟩ | ⟨hphase, r, rfl, hknows, rfl⟩
    · exact .single (.go (by rw [hc]; exact Kind.funext rfl rfl) rfl fun _ => .inl hin)
    · exact .single (.acquire hfree (by rw [hc]; exact Kind.funext rfl rfl) rfl fun _ => hin)
    · exact .single (.spawn (by rw [hc]; rfl) (by rw [hc]; exact Kind.funext rfl rfl) rfl (fun _ => hin) (.inl hover)
        (fun _ => hnone) nofun)
    · -- It gives up the discovery gate, and goes on as one that had not held it.
      have hfirst : Move p w ((w.release .discovery).setCaller i (.keyDiscovery kid .reading)) :=
        .release (by rw [hc]; rfl) (by rw [hc]; exact Kind.funext rfl rfl) rfl fun _ => hin
      have hleave : Move p ((w.release .discovery).setCaller i (.keyDiscovery kid .reading))
          (((w.release .discovery).setCaller i (.keyDiscovery kid .reading)).leave i kid dt r) :=
        move_leave (World.callers_setCaller _ _ _) nofun hknows
      refine .tail (.single hfirst) ?_
      cases r with
      | error e => simpa only [World.leave, World.release_setCaller, World.setCaller_setCaller] using hleave
      | ok disc =>
        simpa only [World.leave, World.spawn_setCaller, World.setCaller_setCaller, World.next_setCaller] using hleave
    · have hleave : Move p _ (World.leave _ i kid dt r) := move_leave hc hphase hknows
      cases r <;> exact .single hleave
  case h_7 => cases h

theorem moves_drop {i : ι} (h : w.drop i = some w') : ReflTransGen (Move p) w w' := by
  unfold World.drop at h
  split at h
  case h_1 hc =>
    obtain rfl := Option.some.inj h
    exact .single (.release (by rw [hc]; rfl) (by rw [hc]; exact Kind.funext rfl rfl) rfl nofun)
  case h_2 kid hc =>
    obtain rfl := Option.some.inj h
    exact .single (.release (by rw [hc]; rfl) (by rw [hc]; exact Kind.funext rfl rfl) rfl nofun)
  case h_3 kid hc =>
    obtain rfl := Option.some.inj h
    have hfirst : Move p w ((w.release .discovery).setCaller i (.key kid .checking)) :=
      .release (by rw [hc]; rfl) (by rw [hc]; exact Kind.funext rfl rfl) rfl nofun
    refine .tail (.single hfirst) ?_
    have hlast : Move p ((w.release .discovery).setCaller i (.key kid .checking))
        ((((w.release .discovery).setCaller i (.key kid .checking)).release .jwks).setCaller i .dropped) :=
      .release (by rw [World.callers_setCaller]; rfl) (by rw [World.callers_setCaller]; exact Kind.funext rfl rfl) rfl
        nofun
    simpa only [World.release_setCaller, World.setCaller_setCaller] using hlast
  case h_4 kid phase hphase hc =>
    obtain rfl := Option.some.inj h
    refine .single (.release (by rw [hc]; rfl) ?_ rfl nofun)
    rw [hc]
    exact Kind.funext (decide_eq_false hphase).symm rfl
  case h_5 phase hphase hc =>
    obtain rfl := Option.some.inj h
    refine .single (.go ?_ rfl nofun)
    rw [hc]
    exact Kind.funext (decide_eq_false hphase).symm rfl
  case h_6 kid phase hphase hc =>
    obtain rfl := Option.some.inj h
    refine .single (.go ?_ rfl nofun)
    rw [hc]
    exact Kind.funext rfl (decide_eq_false hphase).symm
  case h_7 => cases h

theorem moves_step {e : Event ι} (h : Step p w e w') : ReflTransGen (Move p) w w' := by
  cases h with
  | tick dt => exact .single (.tick dt)
  | callDiscovery hidle => exact .single (.go (by rw [hidle]; exact Kind.funext rfl rfl) rfl nofun)
  | callKey hidle => exact .single (.go (by rw [hidle]; exact Kind.funext rfl rfl) rfl nofun)
  | poll h => exact moves_poll h
  | drop h => exact moves_drop h
  | finish h => exact .single (.finish h)

/-! ### Who holds the gates -/

def Outcome.kind : Outcome → Kind
  | .discovery _ => .discovery
  | .jwks _ => .jwks

/-- The gates are held by the calls that say so and by the fetches in flight; every fetch started is in flight or has
ended. -/
structure Held (w : World ι) : Prop where
  caller : ∀ kind i, (w.gate kind).holder = some (.caller i) ↔ (w.callers i).holds kind = true
  fetch : ∀ kind n, (w.gate kind).holder = some (.fetch n) ↔ ∃ f, w.inFlight n = some f ∧ f.kind = kind
  fresh : ∀ n, w.next ≤ n → w.inFlight n = none ∧ w.outcome n = none
  ended : ∀ n < w.next, (w.inFlight n).isSome ∨ (w.outcome n).isSome
  pending : ∀ n f, w.inFlight n = some f → w.outcome n = none
  joins : ∀ i kind n, (w.callers i).joins = some (kind, n) →
    (∃ f, w.inFlight n = some f ∧ f.kind = kind) ∨ ∃ o, w.outcome n = some o ∧ o.kind = kind

omit [DecidableEq ι] in
theorem held_start (now : ℕ) : Held (World.start now : World ι) where
  caller _ _ := ⟨nofun, nofun⟩
  fetch _ _ := ⟨nofun, nofun⟩
  fresh _ _ := ⟨rfl, rfl⟩
  ended _ h := absurd h (Nat.not_lt_zero _)
  pending _ _ _ := rfl
  joins _ _ _ h := by cases h

/-- Only the gate that a call takes or leaves changes hands. -/
theorem Held.callers_update (hs : Held w) {gate' : Kind → Gate ι} {kind : Kind} {i : ι} {c : Caller} {b : Bool}
    (hgate : ∀ k ≠ kind, gate' k = w.gate k) (hc : c.holds = Function.update (w.callers i).holds kind b)
    (hnow : ∀ j, (gate' kind).holder = some (.caller j) ↔ j = i ∧ b = true)
    (hothers : ∀ j ≠ i, (w.callers j).holds kind = false) (k : Kind) (j : ι) :
    (gate' k).holder = some (.caller j) ↔ (Function.update w.callers i c j).holds k = true := by
  by_cases hk : k = kind
  · rw [hk, hnow]
    by_cases hj : j = i
    · rw [hj, Function.update_self, hc, Function.update_self]
      exact and_iff_right rfl
    · rw [Function.update_of_ne hj, hothers j hj]
      exact ⟨fun h => absurd h.1 hj, nofun⟩
  · rw [hgate k hk, hs.caller]
    by_cases hj : j = i
    · rw [hj, Function.update_self, hc, Function.update_of_ne hk]
    · rw [Function.update_of_ne hj]

omit [DecidableEq ι] in
/-- A gate that a call holds is held by no other call, and no fetch of its kind is in flight. -/
theorem Held.alone (hs : Held w) {kind : Kind} {i : ι} (hi : (w.callers i).holds kind = true) :
    (∀ j ≠ i, (w.callers j).holds kind = false) ∧ ∀ n f, w.inFlight n = some f → f.kind ≠ kind := by
  have hholder := (hs.caller kind i).mpr hi
  refine ⟨fun j hj => Bool.eq_false_iff.mpr fun h => hj ?_, fun n f hf hkind => ?_⟩
  · have heq := hholder.symm.trans ((hs.caller kind j).mpr h)
    simpa using heq.symm
  · have heq := hholder.symm.trans ((hs.fetch kind n).mpr ⟨f, hf, hkind⟩)
    simp at heq

/-- The joined fetches of the calls, when one call moves on. -/
theorem Held.joins_update (hs : Held w) {i : ι} {c : Caller} {P : Kind → ℕ → Prop}
    (hkept : ∀ kind n, ((∃ f, w.inFlight n = some f ∧ f.kind = kind) ∨ ∃ o, w.outcome n = some o ∧ o.kind = kind) →
      P kind n)
    (hc : ∀ kind n, c.joins = some (kind, n) → P kind n) (j : ι) (kind : Kind) (n : ℕ)
    (h : (Function.update w.callers i c j).joins = some (kind, n)) : P kind n := by
  by_cases hj : j = i
  · rw [hj, Function.update_self] at h
    exact hc kind n h
  · rw [Function.update_of_ne hj] at h
    exact hkept kind n (hs.joins j kind n h)

omit [DecidableEq ι] in
theorem held_finish {n : ℕ} {response : Response} (hs : Held w) (h : w.finish p n response = some w') : Held w' := by
  -- Both fetches end alike: what was in flight has an outcome, and its gate is free.
  have hends : ∀ (f : Fetch) (o : Outcome), w.inFlight n = some f → o.kind = f.kind →
      ∀ v : World ι, v.callers = w.callers → v.next = w.next →
        v.gate = Function.update w.gate f.kind { w.gate f.kind with holder := none } →
        v.inFlight = Function.update w.inFlight n none → v.outcome = Function.update w.outcome n (some o) →
          Held v := by
    intro f o hf ho v hcallers hnext hgate hflight houtcome
    have hholder : (w.gate f.kind).holder = some (.fetch n) := (hs.fetch f.kind n).mpr ⟨f, hf, rfl⟩
    refine ⟨fun kind i => ?_, fun kind m => ?_, fun m hm => ?_, fun m hm => ?_, fun m g hg => ?_,
      fun i kind m hjoins => ?_⟩
    · rw [hgate, hcallers, ← hs.caller]
      by_cases hk : kind = f.kind
      · rw [hk, Function.update_self, hholder]
        exact ⟨nofun, nofun⟩
      · rw [Function.update_of_ne hk]
    · rw [hgate, hflight]
      by_cases hk : kind = f.kind
      · rw [hk, Function.update_self]
        refine ⟨nofun, fun ⟨g, hg, hgk⟩ => ?_⟩
        have hm : m ≠ n := by
          rintro rfl
          rw [Function.update_self] at hg
          cases hg
        rw [Function.update_of_ne hm] at hg
        have heq := hholder.symm.trans ((hs.fetch f.kind m).mpr ⟨g, hg, hgk⟩)
        simp only [Option.some.injEq, Holder.fetch.injEq] at heq
        exact absurd heq.symm hm
      · rw [Function.update_of_ne hk, hs.fetch]
        by_cases hm : m = n
        · subst hm
          rw [Function.update_self, hf]
          exact ⟨fun ⟨g, hg, hgk⟩ => absurd (hgk.symm.trans (congrArg Fetch.kind (Option.some.inj hg).symm)) hk, nofun⟩
        · rw [Function.update_of_ne hm]
    · rw [hnext] at hm
      have hne : m ≠ n := by
        rintro rfl
        rw [(hs.fresh m hm).1] at hf
        cases hf
      rw [hflight, houtcome, Function.update_of_ne hne, Function.update_of_ne hne]
      exact hs.fresh m hm
    · rw [hflight, houtcome]
      by_cases hne : m = n
      · rw [hne, Function.update_self, Function.update_self]
        exact .inr rfl
      · rw [Function.update_of_ne hne, Function.update_of_ne hne]
        exact hs.ended m (hnext ▸ hm)
    · rw [hflight] at hg
      have hne : m ≠ n := by
        rintro rfl
        rw [Function.update_self] at hg
        cases hg
      rw [Function.update_of_ne hne] at hg
      rw [houtcome, Function.update_of_ne hne]
      exact hs.pending m g hg
    · rw [hcallers] at hjoins
      rw [hflight, houtcome]
      by_cases hne : m = n
      · subst hne
        rw [Function.update_self, Function.update_self]
        refine .inr ⟨o, rfl, ?_⟩
        rcases hs.joins i kind m hjoins with ⟨g, hg, rfl⟩ | ⟨o', ho', rfl⟩
        · rw [ho, Option.some.inj (hf.symm.trans hg)]
        · rw [hs.pending m f hf] at ho'
          cases ho'
      · rw [Function.update_of_ne hne, Function.update_of_ne hne]
        exact hs.joins i kind m hjoins
  unfold World.finish at h
  split at h
  · next answer hf =>
    obtain rfl := Option.some.inj h
    exact hends _ _ hf rfl _ rfl rfl rfl rfl rfl
  · next uri kid answer hf =>
    obtain rfl := Option.some.inj h
    exact hends _ _ hf rfl _ rfl rfl rfl rfl rfl
  · cases h

theorem held_spawn {i : ι} {c : Caller} {fetch : Fetch} {dt : ℕ} (hs : Held w)
    (hheld : (w.callers i).holds fetch.kind = true)
    (hc : c.holds = Function.update (w.callers i).holds fetch.kind false) (hjoins : c.joins = some (fetch.kind, w.next)) :
    Held ((w.spawn fetch dt).setCaller i c) := by
  obtain ⟨hothers, hflight⟩ := hs.alone hheld
  have hnew : Function.update w.inFlight w.next (some fetch) w.next = some fetch := Function.update_self ..
  have hold : ∀ n ≠ w.next, Function.update w.inFlight w.next (some fetch) n = w.inFlight n :=
    fun n hn => Function.update_of_ne hn ..
  refine ⟨fun kind j => hs.callers_update (fun k hk => Function.update_of_ne hk ..) hc (fun j => ?_) hothers kind j,
    fun kind n => ?_, fun n hn => ?_, fun n hn => ?_, fun n f hf => ?_, fun j kind n => ?_⟩
  · rw [show ((w.spawn fetch dt).setCaller i c).gate fetch.kind = ⟨w.now + dt, some (.fetch w.next)⟩ from
      Function.update_self ..]
    exact ⟨nofun, fun h => absurd h.2 nofun⟩
  · show (Function.update w.gate fetch.kind ⟨w.now + dt, some (.fetch w.next)⟩ kind).holder = _ ↔
      ∃ f, Function.update w.inFlight w.next (some fetch) n = some f ∧ f.kind = kind
    by_cases hn : n = w.next
    · rw [hn, hnew]
      by_cases hk : kind = fetch.kind
      · rw [hk, Function.update_self]
        exact ⟨fun _ => ⟨fetch, rfl, rfl⟩, fun _ => rfl⟩
      · rw [Function.update_of_ne hk, hs.fetch, (hs.fresh w.next le_rfl).1]
        exact ⟨fun ⟨f, hf, _⟩ => (nomatch hf), fun ⟨f, hf, hfk⟩ => absurd (hfk.symm.trans (by cases hf; rfl)) hk⟩
    · rw [hold n hn]
      by_cases hk : kind = fetch.kind
      · rw [hk, Function.update_self]
        refine ⟨fun h => ?_, fun ⟨f, hf, hfk⟩ => absurd hfk (hflight n f hf)⟩
        simp only [Option.some.injEq, Holder.fetch.injEq] at h
        exact absurd h.symm hn
      · rw [Function.update_of_ne hk, hs.fetch]
  · have hlt : w.next < n := hn
    show Function.update w.inFlight w.next (some fetch) n = none ∧ w.outcome n = none
    rw [hold n hlt.ne']
    exact hs.fresh n hlt.le
  · show (Function.update w.inFlight w.next (some fetch) n).isSome ∨ (w.outcome n).isSome
    by_cases hn' : n = w.next
    · rw [hn', hnew]
      exact .inl rfl
    · rw [hold n hn']
      exact hs.ended n (lt_of_le_of_ne (Nat.lt_succ_iff.mp hn) hn')
  · have hf' : Function.update w.inFlight w.next (some fetch) n = some f := hf
    show w.outcome n = none
    by_cases hn : n = w.next
    · rw [hn]
      exact (hs.fresh w.next le_rfl).2
    · rw [hold n hn] at hf'
      exact hs.pending n f hf'
  · refine hs.joins_update (P := fun kind n => (∃ f, Function.update w.inFlight w.next (some fetch) n = some f ∧
      f.kind = kind) ∨ ∃ o, w.outcome n = some o ∧ o.kind = kind) (fun kind n h => ?_) (fun kind n h => ?_) j kind n
    · rcases h with ⟨f, hf, hfk⟩ | h
      · refine .inl ⟨f, ?_, hfk⟩
        rw [hold n fun hn => by rw [hn, (hs.fresh w.next le_rfl).1] at hf; cases hf]
        exact hf
      · exact .inr h
    · obtain ⟨rfl, rfl⟩ := Prod.mk.inj (Option.some.inj (hjoins.symm.trans h))
      exact .inl ⟨fetch, hnew, rfl⟩

/-- **A move keeps the gates held as they say.** -/
theorem held_move (hs : Held w) (h : Move p w w') : Held w' := by
  have hnone : ∀ {c : Caller} {P : Kind → ℕ → Prop}, c.joins = none → ∀ kind n, c.joins = some (kind, n) → P kind n :=
    fun hc kind n h => nomatch hc.symm.trans h
  have hkept : ∀ (v : World ι) (kind : Kind) (i : ι) (c : Caller) (b : Bool), v.inFlight = w.inFlight →
      v.outcome = w.outcome → v.next = w.next → v.callers = Function.update w.callers i c →
      (∀ k ≠ kind, v.gate k = w.gate k) → c.holds = Function.update (w.callers i).holds kind b →
      (∀ j, (v.gate kind).holder = some (.caller j) ↔ j = i ∧ b = true) →
      (∀ n, (v.gate kind).holder ≠ some (.fetch n)) → (∀ n f, w.inFlight n = some f → f.kind ≠ kind) →
      (∀ j ≠ i, (w.callers j).holds kind = false) → c.joins = none → Held v := by
    intro v kind i c b hflight houtcome hnext hcallers hgate hc hnow hnofetch hidle hothers hjoins
    refine ⟨fun k j => ?_, fun k n => ?_, fun n hn => ?_, fun n hn => ?_, fun n f hf => ?_, fun j k n hj => ?_⟩
    · rw [hcallers]
      exact hs.callers_update hgate hc hnow hothers k j
    · rw [hflight]
      by_cases hk : k = kind
      · rw [hk]
        exact ⟨fun h => absurd h (hnofetch n), fun ⟨f, hf, hfk⟩ => absurd hfk (hidle n f hf)⟩
      · rw [hgate k hk, hs.fetch]
    · rw [hflight, houtcome]
      exact hs.fresh n (hnext ▸ hn)
    · rw [hflight, houtcome]
      exact hs.ended n (hnext ▸ hn)
    · rw [houtcome]
      exact hs.pending n f (hflight ▸ hf)
    · rw [hflight, houtcome]
      rw [hcallers] at hj
      exact hs.joins_update (fun _ _ h => h) (hnone hjoins) j k n hj
  cases h with
  | tick dt => exact ⟨hs.caller, hs.fetch, hs.fresh, hs.ended, hs.pending, hs.joins⟩
  | @go i c hc hjoins _ =>
    refine ⟨fun kind j => ?_, hs.fetch, hs.fresh, hs.ended, hs.pending, hs.joins_update (fun _ _ h => h) (hnone hjoins)⟩
    show (w.gate kind).holder = some (.caller j) ↔ (Function.update w.callers i c j).holds kind = true
    rw [hs.caller]
    by_cases hj : j = i
    · rw [hj, Function.update_self, hc]
    · rw [Function.update_of_ne hj]
  | @acquire i c kind hfree hc hjoins _ =>
    refine hkept _ kind i c true rfl rfl rfl rfl (fun k hk => Function.update_of_ne hk ..) hc (fun j => ?_)
      (fun n => ?_) (fun n f hf hk => ?_) (fun j _ => ?_) hjoins
    · rw [show (((w.setHolder kind (some (.caller i))).setCaller i c).gate kind) =
        { w.gate kind with holder := some (.caller i) } from Function.update_self ..]
      simp only [Option.some.injEq, Holder.caller.injEq, and_true]
      exact eq_comm
    · rw [show (((w.setHolder kind (some (.caller i))).setCaller i c).gate kind) =
        { w.gate kind with holder := some (.caller i) } from Function.update_self ..]
      exact nofun
    · exact nomatch hfree.symm.trans ((hs.fetch kind n).mpr ⟨f, hf, hk⟩)
    · exact Bool.eq_false_iff.mpr fun h => nomatch hfree.symm.trans ((hs.caller kind j).mpr h)
  | @release i c kind hheld hc hjoins _ =>
    obtain ⟨hothers, hflight⟩ := hs.alone hheld
    have hgate : ((w.release kind).setCaller i c).gate kind = { w.gate kind with holder := none } :=
      Function.update_self ..
    refine hkept _ kind i c false rfl rfl rfl rfl (fun k hk => Function.update_of_ne hk ..) hc (fun j => ?_)
      (fun n => ?_) hflight hothers hjoins
    · rw [hgate]
      exact ⟨nofun, fun h => absurd h.2 nofun⟩
    · rw [hgate]
      exact nofun
  | spawn hheld hc hjoins _ _ _ _ => exact held_spawn hs hheld hc hjoins
  | finish h => exact held_finish hs h

/-! ### When fetches start -/

omit [DecidableEq ι] in
/-- When the fetches of a kind were started, the newest first. -/
def World.times (w : World ι) (kind : Kind) : List ℕ := (w.started.filter fun s => s.1 = kind).map Prod.snd

/-- The starts of a kind lie a cooldown apart; its gate keeps the last of them. -/
structure Spaced (t₀ : ℕ) (w : World ι) : Prop where
  last : ∀ kind, (w.gate kind).last = (w.times kind).headD (World.cooledDown t₀)
  past : ∀ kind, (w.gate kind).last ≤ w.now
  apart : ∀ kind, (w.times kind).Pairwise fun t t' => t' + kind.cooldown ≤ t
  since : ∀ kind, ∀ t ∈ w.times kind, t₀ ≤ t ∧ t ≤ w.now
  begun : t₀ ≤ w.now
  ready : ∀ i, (w.callers i).inDiscovery = true → (w.gate .jwks).last + jwksCooldown ≤ w.now
  numbered : w.started.length = w.next

omit [DecidableEq ι] in
theorem spaced_start (t₀ : ℕ) : Spaced t₀ (World.start t₀ : World ι) where
  last _ := rfl
  past _ := by
    show World.cooledDown t₀ ≤ t₀
    unfold World.cooledDown
    split <;> omega
  apart _ := .nil
  since _ _ h := absurd h List.not_mem_nil
  begun := le_rfl
  ready _ h := by cases h
  numbered := rfl

theorem cooldown_pos (kind : Kind) : 0 < kind.cooldown := by cases kind <;> decide

omit [DecidableEq ι] in
theorem Spaced.over (hs : Spaced t₀ w) {kind : Kind} (h : w.cooling kind = false) :
    (w.gate kind).last + kind.cooldown ≤ w.now := by
  have hpast := hs.past kind
  have hpos := cooldown_pos kind
  have hover := of_decide_eq_false h
  omega

theorem holds_of_inDiscovery {c : Caller} (h : c.inDiscovery = true) : c.holds .jwks = true := by
  cases c <;> first | rfl | cases h

/-- A call that moves finds the key cooldown over, if it is in discovery. -/
theorem Spaced.ready_update (hs : Spaced t₀ w) {i : ι} {c : Caller}
    (hc : c.inDiscovery = true → (w.callers i).inDiscovery = true ∨ w.cooling .jwks = false) (j : ι)
    (h : (Function.update w.callers i c j).inDiscovery = true) : (w.gate .jwks).last + jwksCooldown ≤ w.now := by
  by_cases hj : j = i
  · rw [hj, Function.update_self] at h
    exact (hc h).elim (hs.ready i) hs.over
  · rw [Function.update_of_ne hj] at h
    exact hs.ready j h

omit [DecidableEq ι] in
theorem times_spawn (w : World ι) (fetch : Fetch) (dt : ℕ) (kind : Kind) :
    (w.spawn fetch dt).times kind = if fetch.kind = kind then (w.now + dt) :: w.times kind else w.times kind := by
  unfold World.times World.spawn
  rw [List.filter_cons]
  split <;> simp_all

theorem spaced_spawn {i : ι} {c : Caller} {fetch : Fetch} {dt : ℕ} (hs : Spaced t₀ w) (hheld : Held w)
    (hholds : (w.callers i).holds fetch.kind = true) (hc : c.holds = Function.update (w.callers i).holds fetch.kind false)
    (hin : c.inDiscovery = true → (w.callers i).inDiscovery = true)
    (hover : w.cooling fetch.kind = false ∨ fetch.kind = .jwks ∧ (w.callers i).inDiscovery = true) :
    Spaced t₀ ((w.spawn fetch dt).setCaller i c) := by
  have hpassed : (w.gate fetch.kind).last + fetch.kind.cooldown ≤ w.now := by
    rcases hover with hover | ⟨hkind, hin⟩
    · exact hs.over hover
    · rw [hkind]
      exact hs.ready i hin
  have hself : ((w.spawn fetch dt).setCaller i c).gate fetch.kind = ⟨w.now + dt, some (.fetch w.next)⟩ :=
    Function.update_self ..
  have hother : ∀ kind ≠ fetch.kind, ((w.spawn fetch dt).setCaller i c).gate kind = w.gate kind :=
    fun kind hk => Function.update_of_ne hk ..
  have htimes : ∀ kind, ((w.spawn fetch dt).setCaller i c).times kind =
      if fetch.kind = kind then (w.now + dt) :: w.times kind else w.times kind := times_spawn w fetch dt
  have hnow : ((w.spawn fetch dt).setCaller i c).now = w.now + dt := rfl
  refine ⟨fun kind => ?_, fun kind => ?_, fun kind => ?_, fun kind t ht => ?_, ?_, fun j hj => ?_, ?_⟩
  · rw [htimes]
    by_cases hk : kind = fetch.kind
    · rw [hk, hself, if_pos rfl]
      rfl
    · rw [hother kind hk, if_neg (Ne.symm hk), hs.last]
  · rw [hnow]
    by_cases hk : kind = fetch.kind
    · rw [hk, hself]
    · rw [hother kind hk]
      exact (hs.past kind).trans (Nat.le_add_right _ _)
  · rw [htimes]
    split
    · next hk =>
      subst hk
      refine List.pairwise_cons.mpr ⟨fun t ht => ?_, hs.apart _⟩
      have hle : t ≤ (w.times fetch.kind).headD (World.cooledDown t₀) := Windows.le_headD_of_apart (hs.apart fetch.kind) t ht
      rw [← hs.last] at hle
      omega
    · exact hs.apart kind
  · rw [hnow]
    rw [htimes] at ht
    have hbegun := hs.begun
    split at ht
    · rcases List.mem_cons.mp ht with rfl | ht
      · exact ⟨by omega, le_rfl⟩
      · have := hs.since kind t ht
        omega
    · have := hs.since kind t ht
      omega
  · exact hs.begun.trans (Nat.le_add_right _ _)
  · rw [hnow]
    -- A call in discovery holds the key gate, so the fetch that starts is one of discovery.
    have hj' : (Function.update w.callers i c j).inDiscovery = true := hj
    have hready := hs.ready_update (fun h => .inl (hin h)) j hj'
    have hk : Kind.jwks ≠ fetch.kind := by
      intro hk
      have hholds' := holds_of_inDiscovery hj'
      by_cases hji : j = i
      · rw [hji, Function.update_self, hc, hk, Function.update_self] at hholds'
        cases hholds'
      · rw [Function.update_of_ne hji, hk, (hheld.alone hholds).1 j hji] at hholds'
        cases hholds'
    rw [hother .jwks hk]
    omega
  · exact congrArg (· + 1) hs.numbered

omit [DecidableEq ι] in
/-- What starts no fetch keeps the starts apart. -/
theorem Spaced.keep (hs : Spaced t₀ w) {v : World ι} (hlast : ∀ k, (v.gate k).last = (w.gate k).last)
    (hnow : v.now = w.now) (hstarted : v.started = w.started) (hnext : v.next = w.next)
    (hready : ∀ j, (v.callers j).inDiscovery = true → (w.gate .jwks).last + jwksCooldown ≤ w.now) : Spaced t₀ v := by
  have htimes : ∀ kind, v.times kind = w.times kind := fun kind => by unfold World.times; rw [hstarted]
  refine ⟨fun k => ?_, fun k => ?_, fun k => ?_, fun k => ?_, ?_, fun j hj => ?_, ?_⟩
  · rw [hlast, htimes, hs.last]
  · rw [hlast, hnow]
    exact hs.past k
  · rw [htimes]
    exact hs.apart k
  · rw [htimes, hnow]
    exact hs.since k
  · rw [hnow]
    exact hs.begun
  · rw [hlast, hnow]
    exact hready j hj
  · rw [hstarted, hnext, hs.numbered]

/-- **A move keeps the starts apart.** -/
theorem spaced_move (hheld : Held w) (hs : Spaced t₀ w) (h : Move p w w') : Spaced t₀ w' := by
  have hlast : ∀ (kind k : Kind) (holder : Option (Holder ι)),
      (Function.update w.gate kind { w.gate kind with holder } k).last = (w.gate k).last := by
    intro kind k holder
    by_cases hk : k = kind
    · rw [hk, Function.update_self]
    · rw [Function.update_of_ne hk]
  cases h with
  | tick dt =>
    exact ⟨hs.last, fun k => (hs.past k).trans (Nat.le_add_right _ _), hs.apart,
      fun k t ht => ⟨(hs.since k t ht).1, (hs.since k t ht).2.trans (Nat.le_add_right _ _)⟩,
      hs.begun.trans (Nat.le_add_right _ _), fun i hi => (hs.ready i hi).trans (Nat.le_add_right _ _), hs.numbered⟩
  | go _ _ hin => exact hs.keep (fun _ => rfl) rfl rfl rfl (hs.ready_update hin)
  | @acquire i c kind _ _ _ hin =>
    exact hs.keep (fun k => hlast kind k _) rfl rfl rfl (hs.ready_update fun h => .inl (hin h))
  | @release i c kind _ _ _ hin =>
    exact hs.keep (fun k => hlast kind k _) rfl rfl rfl (hs.ready_update fun h => .inl (hin h))
  | spawn hholds hc _ hin hover _ _ => exact spaced_spawn hs hheld hholds hc hin hover
  | finish h =>
    unfold World.finish at h
    split at h
    · obtain rfl := Option.some.inj h
      exact hs.keep (fun k => hlast _ k _) rfl rfl rfl hs.ready
    · obtain rfl := Option.some.inj h
      exact hs.keep (fun k => hlast _ k _) rfl rfl rfl hs.ready
    · cases h

theorem held_step (hs : Held w) {e : Event ι} (hstep : Step p w e w') : Held w' := by
  have hmoves := moves_step hstep
  clear hstep
  induction hmoves with
  | refl => exact hs
  | tail _ hmove ih => exact held_move ih hmove

theorem kept_step (h : Held w ∧ Spaced t₀ w) {e : Event ι} (hstep : Step p w e w') : Held w' ∧ Spaced t₀ w' := by
  have hmoves := moves_step hstep
  clear hstep
  induction hmoves with
  | refl => exact h
  | tail _ hmove ih => exact ⟨held_move ih.1 hmove, spaced_move ih.1 ih.2 hmove⟩

theorem kept_run {tr : List (Event ι)} (h : Run (Step p) (World.start t₀) tr w) : Held w ∧ Spaced t₀ w :=
  h.invariant (fun _ w => Held w ∧ Spaced t₀ w) ⟨held_start t₀, spaced_start t₀⟩ fun _ _ _ _ _ hs => kept_step hs

/-- **Fetches are single-flight and cooled down.**  In every run, whatever the calls and the identity provider do: at
most one fetch of a kind is in flight; the starts of a kind lie a cooldown apart, so there are few in any time; a gate
is armed at the start of a fetch and at no other time; and every fetch started is in flight or has ended, its call
gone or not. -/
theorem fetches_apart {tr : List (Event ι)} (h : Run (Step p) (World.start t₀) tr w) (kind : Kind) :
    (∀ n m f g, w.inFlight n = some f → w.inFlight m = some g → f.kind = kind → g.kind = kind → n = m) ∧
      (w.times kind).Pairwise (fun t t' => t' + kind.cooldown ≤ t) ∧
      (w.times kind).length ≤ (w.now - t₀) / kind.cooldown + 1 ∧
      (w.gate kind).last = (w.times kind).headD (World.cooledDown t₀) ∧
      w.started.length = w.next ∧ ∀ n < w.next, (w.inFlight n).isSome ∨ (w.outcome n).isSome := by
  obtain ⟨hheld, hspaced⟩ := kept_run h
  refine ⟨fun n m f g hf hg hfk hgk => ?_, hspaced.apart kind, ?_, hspaced.last kind, hspaced.numbered, hheld.ended⟩
  · have hn := (hheld.fetch kind n).mpr ⟨f, hf, hfk⟩
    have hm := (hheld.fetch kind m).mpr ⟨g, hg, hgk⟩
    have heq := hn.symm.trans hm
    simpa using heq
  · by_cases hne : w.times kind = []
    · rw [hne]
      exact Nat.zero_le _
    · have hfew := Windows.length_of_apart (hspaced.apart kind) (hspaced.since kind) hne
      have hdiv := (Nat.le_div_iff_mul_le (cooldown_pos kind)).mpr hfew
      omega

end

/-! ### A call that goes away -/

namespace HangUp

/-- A provider whose URLs are of one origin. -/
def provider : Provider where
  parse url := if url = "https://id" ∨ url = "https://id/jwks" then some ⟨"https", some "id", none, none⟩ else none
  issuer := "https://id"
  relyingParty := false

def document : Discovery := ⟨"https://id", "https://id/jwks", none, none⟩

/-- A call for a key that is dropped while discovery is fetched, and a login that waits for it. -/
def events : List (Event Bool) :=
  [.callKey true "k", .callDiscovery false, .poll true 0, .poll true 0, .poll true 0, .poll true 0, .poll true 0,
    .poll false 0, .poll true 0, .drop true, .tick 5, .finish 0 (.discovery (.parsed document)), .poll false 0,
    .poll false 0]

/-- What an event makes of a provider. -/
def apply {ι : Type} [DecidableEq ι] (w : World ι) : Event ι → Option (World ι)
  | .tick dt => some { w with now := w.now + dt }
  | .callDiscovery i => match w.callers i with
    | .idle => some (w.setCaller i (.discovery .reading))
    | _ => none
  | .callKey i kid => match w.callers i with
    | .idle => some (w.setCaller i (.key kid .reading))
    | _ => none
  | .poll i dt => w.poll i dt
  | .drop i => w.drop i
  | .finish n response => w.finish provider n response

theorem step_apply {ι : Type} [DecidableEq ι] {w w' : World ι} {e : Event ι} (h : apply w e = some w') :
    Step provider w e w' := by
  cases e with
  | tick dt => exact Option.some.inj h ▸ Step.tick w dt
  | callDiscovery i =>
    unfold apply at h
    dsimp only at h
    split at h
    · next hidle => exact Option.some.inj h ▸ .callDiscovery hidle
    · cases h
  | callKey i kid =>
    unfold apply at h
    dsimp only at h
    split at h
    · next hidle => exact Option.some.inj h ▸ .callKey hidle
    · cases h
  | poll i dt => exact .poll h
  | drop i => exact .drop h
  | finish n response => exact .finish h

/-- The login is served the document that the other call's fetch brought. -/
theorem run : ∃ w, Run (Step provider) (World.start (secs 100)) events w ∧ w.discovery = some document := by
  have hruns : (events.foldlM apply (World.start (secs 100))).bind World.discovery = some document := by decide +kernel
  obtain ⟨w, hw, hdiscovery⟩ := Option.bind_eq_some_iff.mp hruns
  exact ⟨w, run_of_foldlM (fun _ _ _ => step_apply) hw, hdiscovery⟩

end HangUp

namespace Refetch

def key : Jwk := ⟨"EC", some "k", none, none, some "x", some "y"⟩

/-- A login whose discovery fails; a call for a key after the cooldown, which fetches both; and after another cooldown
a call for a key that was not among them. -/
def events : List (Event ℕ) :=
  [.callDiscovery 0, .poll 0 0, .poll 0 0, .poll 0 3, .finish 0 (.discovery (.refused 503)), .poll 0 0,
    .tick discoveryCooldown, .callKey 1 "k", .poll 1 0, .poll 1 0, .poll 1 0, .poll 1 0, .poll 1 0, .poll 1 2,
    .finish 1 (.discovery (.parsed HangUp.document)), .poll 1 4, .finish 2 (.jwks (.parsed [key])), .poll 1 0,
    .tick jwksCooldown, .callKey 2 "other", .poll 2 0, .poll 2 0, .poll 2 0, .poll 2 1]

/-- How often each kind was started, and the fetch of keys in flight. -/
def outcome (w : World ℕ) : ℕ × ℕ × Option Fetch :=
  ((w.times .discovery).length, (w.times .jwks).length, w.inFlight 3)

end Refetch

/-- Two fetches of each kind, a cooldown apart; the second fetch of keys is the one in flight. -/
theorem fetches_apart_refetch : ∃ w : World ℕ, Run (Step HangUp.provider) (World.start (secs 100)) Refetch.events w ∧
    (∀ kind, (w.times kind).length = 2 ∧ (w.times kind).Pairwise fun t t' => t' + kind.cooldown ≤ t) ∧
    (w.inFlight 3).isSome ∧ (∀ n f, w.inFlight n = some f → f.kind = .jwks → n = 3) ∧
    ∀ n < w.next, (w.inFlight n).isSome ∨ (w.outcome n).isSome := by
  have hruns : (Refetch.events.foldlM HangUp.apply (World.start (secs 100))).map Refetch.outcome =
      some (2, 2, some (.jwks "https://id/jwks" "other")) := by decide +kernel
  obtain ⟨w, hw, houtcome⟩ := Option.map_eq_some_iff.mp hruns
  obtain ⟨hdiscovery, hrest⟩ := Prod.mk.inj houtcome
  obtain ⟨hjwks, hflight⟩ := Prod.mk.inj hrest
  have hrun := run_of_foldlM (fun _ _ _ => HangUp.step_apply) hw
  obtain ⟨hsingle, -, -, -, -, hended⟩ := fetches_apart hrun .jwks
  refine ⟨w, hrun, fun kind => ⟨?_, (fetches_apart hrun kind).2.1⟩, by rw [hflight]; rfl, ?_, hended⟩
  · cases kind with
    | discovery => exact hdiscovery
    | jwks => exact hjwks
  · intro n f hf hkind
    exact hsingle n 3 f _ hf hflight hkind rfl

end Alaya.Oidc
