import Alaya.Oidc.Flight
import Alaya.Types.Memory

/-!
# What a provider trusts

Only a document that passed every rule is cached or returned to a caller, and keys are fetched from nowhere else than the
URI of such a document (`trusted_run`).  A document that is cached stays, and no discovery starts after it
(`discovered_once`).
-/

namespace Alaya.Oidc

open Labelled Relation

/-- The rules: the issuer is echoed, what is fetched or redirected to is of its origin, and a relying party has both
its endpoints, the first without a fragment. -/
structure Provider.Accepts (p : Provider) (disc : Discovery) : Prop where
  issuer : normalizeIssuer disc.issuer = p.issuer
  jwksUri : sameOriginHttps p.parse p.issuer disc.jwksUri = .ok ()
  endpoints : p.relyingParty = true → ∃ authorization token,
    disc.authorizationEndpoint = some authorization ∧ disc.tokenEndpoint = some token ∧
      sameOriginHttps p.parse p.issuer authorization = .ok () ∧ sameOriginHttps p.parse p.issuer token = .ok () ∧
      ∀ url ∈ p.parse authorization, url.fragment = none

section

variable {p : Provider} {disc disc' : Discovery}

theorem checkEndpoint_eq_ok {missing offOrigin : String} {endpoint : Option String}
    (h : p.checkEndpoint missing offOrigin endpoint = .ok ()) :
    ∃ e, endpoint = some e ∧ sameOriginHttps p.parse p.issuer e = .ok () := by
  unfold Provider.checkEndpoint at h
  split at h
  · cases h
  · next e =>
    split at h
    · cases h
    · next hsame => exact ⟨e, rfl, hsame⟩

theorem checkRpEndpoints_eq_ok (h : p.checkRpEndpoints disc = .ok ()) : ∃ authorization token,
    disc.authorizationEndpoint = some authorization ∧ disc.tokenEndpoint = some token ∧
      sameOriginHttps p.parse p.issuer authorization = .ok () ∧ sameOriginHttps p.parse p.issuer token = .ok () ∧
      ∀ url ∈ p.parse authorization, url.fragment = none := by
  obtain ⟨_, hauthorization, h⟩ := bind_eq_ok.mp h
  obtain ⟨_, htoken, h⟩ := bind_eq_ok.mp h
  obtain ⟨authorization, ha, hsame⟩ := checkEndpoint_eq_ok hauthorization
  obtain ⟨token, ht, hsame'⟩ := checkEndpoint_eq_ok htoken
  refine ⟨authorization, token, ha, ht, hsame, hsame', fun url hurl => ?_⟩
  rw [ha] at h
  dsimp only at h
  split at h
  · cases h
  · next hfragment =>
    rw [Option.mem_def.mp hurl] at hfragment
    simpa using hfragment

/-- **What `fetch_discovery` hands on has passed every rule.** -/
theorem accepts_of_checkDiscovery (h : p.checkDiscovery disc = .ok disc') : disc' = disc ∧ p.Accepts disc := by
  unfold Provider.checkDiscovery at h
  split at h
  · cases h
  · next hissuer =>
    split at h
    · cases h
    · next huri =>
      have hissuer := not_not.mp hissuer
      split at h
      · cases hrp : p.checkRpEndpoints disc with
        | error e =>
          rw [hrp] at h
          cases h
        | ok =>
          rw [hrp] at h
          exact ⟨(Except.ok.inj h).symm, hissuer, huri, fun _ => checkRpEndpoints_eq_ok hrp⟩
      · next hrole => exact ⟨(Except.ok.inj h).symm, hissuer, huri, fun hrole' => absurd hrole' hrole⟩

theorem accepts_of_fetchDiscovery {answer : Answer Discovery} (h : p.fetchDiscovery answer = .ok disc) :
    p.Accepts disc := by
  unfold Provider.fetchDiscovery at h
  obtain ⟨body, -, hcheck⟩ := bind_eq_ok.mp h
  obtain ⟨rfl, haccepts⟩ := accepts_of_checkDiscovery hcheck
  exact haccepts

end

section

variable {ι : Type} [DecidableEq ι] {p : Provider} {w w' : World ι} {t₀ : ℕ}

/-- What is cached or handed on was accepted, keys are fetched from an accepted document's URI, and with a document
cached no discovery is in flight. -/
structure Trusted (p : Provider) (w : World ι) : Prop where
  knows : ∀ disc, w.Knows disc → p.Accepts disc
  uri : ∀ n uri kid, w.inFlight n = some (.jwks uri kid) → ∃ disc, p.Accepts disc ∧ uri = disc.jwksUri
  once : ∀ n, w.inFlight n = some .discovery → w.discovery = none

omit [DecidableEq ι] in
theorem inFlight_of_finish {n m : ℕ} {response : Response} {f : Fetch} (h : w.finish p n response = some w')
    (hm : w'.inFlight m = some f) : m ≠ n ∧ w.inFlight m = some f := by
  have hflight : w'.inFlight = Function.update w.inFlight n none := by
    unfold World.finish at h
    split at h
    · exact Option.some.inj h ▸ rfl
    · exact Option.some.inj h ▸ rfl
    · cases h
  rw [hflight] at hm
  have hne : m ≠ n := by
    rintro rfl
    rw [Function.update_self] at hm
    cases hm
  rw [Function.update_of_ne hne] at hm
  exact ⟨hne, hm⟩

omit [DecidableEq ι] in
/-- Only the discovery that ends makes a document known, and it was the one in flight. -/
theorem trusted_finish {n : ℕ} {response : Response} (hheld : Held w) (hs : Trusted p w)
    (h : w.finish p n response = some w') : Trusted p w' := by
  refine ⟨fun disc hknows => ?_, fun m uri kid hm => hs.uri m uri kid (inFlight_of_finish h hm).2, fun m hm => ?_⟩
  · unfold World.finish at h
    split at h
    · next answer hf =>
      obtain rfl := Option.some.inj h
      rcases hknows with hcached | ⟨m, hm⟩
      · change (p.fetchDiscovery answer).toOption.or w.discovery = some disc at hcached
        cases hr : p.fetchDiscovery answer with
        | error e =>
          rw [hr] at hcached
          exact hs.knows disc (.inl hcached)
        | ok d =>
          rw [hr] at hcached
          obtain rfl := Option.some.inj hcached
          exact accepts_of_fetchDiscovery hr
      · change Function.update w.outcome n _ m = _ at hm
        by_cases hne : m = n
        · rw [hne, Function.update_self] at hm
          exact accepts_of_fetchDiscovery (Outcome.discovery.inj (Option.some.inj hm))
        · rw [Function.update_of_ne hne] at hm
          exact hs.knows disc (.inr ⟨m, hm⟩)
    · next uri kid answer hf =>
      obtain rfl := Option.some.inj h
      refine hs.knows disc (hknows.imp_right fun ⟨m, hm⟩ => ⟨m, ?_⟩)
      change Function.update w.outcome n _ m = _ at hm
      by_cases hne : m = n
      · rw [hne, Function.update_self] at hm
        cases hm
      · rwa [Function.update_of_ne hne] at hm
    · cases h
  · obtain ⟨hne, hm⟩ := inFlight_of_finish h hm
    have hnone := hs.once m hm
    unfold World.finish at h
    split at h
    · next answer hf =>
      have heq := ((hheld.fetch .discovery m).mpr ⟨_, hm, rfl⟩).symm.trans ((hheld.fetch .discovery n).mpr ⟨_, hf, rfl⟩)
      simp only [Option.some.injEq, Holder.fetch.injEq] at heq
      exact absurd heq hne
    · obtain rfl := Option.some.inj h
      exact hnone
    · cases h

theorem trusted_move (hheld : Held w) (hs : Trusted p w) (h : Move p w w') : Trusted p w' := by
  cases h with
  | tick dt => exact ⟨hs.knows, hs.uri, hs.once⟩
  | go _ _ _ => exact ⟨hs.knows, hs.uri, hs.once⟩
  | acquire _ _ _ _ => exact ⟨hs.knows, hs.uri, hs.once⟩
  | release _ _ _ _ => exact ⟨hs.knows, hs.uri, hs.once⟩
  | @spawn i c fetch dt _ _ _ _ _ hempty huri =>
    refine ⟨hs.knows, fun n uri kid hn => ?_, fun n hn => ?_⟩
    · change Function.update w.inFlight w.next (some fetch) n = _ at hn
      by_cases hne : n = w.next
      · rw [hne, Function.update_self] at hn
        obtain ⟨disc, hknows, rfl⟩ := huri uri kid (Option.some.inj hn)
        exact ⟨disc, hs.knows disc hknows, rfl⟩
      · rw [Function.update_of_ne hne] at hn
        exact hs.uri n uri kid hn
    · change Function.update w.inFlight w.next (some fetch) n = _ at hn
      by_cases hne : n = w.next
      · rw [hne, Function.update_self] at hn
        exact hempty (Option.some.inj hn)
      · rw [Function.update_of_ne hne] at hn
        exact hs.once n hn
  | finish h => exact trusted_finish hheld hs h

theorem trusted_step (hheld : Held w) (hs : Trusted p w) {e : Event ι} (hstep : Step p w e w') : Trusted p w' := by
  have hmoves := moves_step hstep
  clear hstep
  suffices h : Held w' ∧ Trusted p w' from h.2
  induction hmoves with
  | refl => exact ⟨hheld, hs⟩
  | tail _ hmove ih => exact ⟨held_move ih.1 hmove, trusted_move ih.1 ih.2 hmove⟩

theorem trusted_of_run {tr : List (Event ι)} (h : Run (Step p) (World.start t₀) tr w) : Trusted p w := by
  refine h.invariant (fun _ w => Trusted p w) ⟨fun disc hknows => ?_, fun n uri kid h => ?_, fun n h => ?_⟩
    fun _ _ _ _ hrun hs hstep => trusted_step (kept_run hrun).1 hs hstep
  · rcases hknows with h | ⟨n, h⟩ <;> cases h
  · cases h
  · cases h

/-- A document that the identity provider answered in the run, and that passed every rule. -/
def Told (p : Provider) (tr : List (Event ι)) (disc : Discovery) : Prop :=
  p.Accepts disc ∧ ∃ n, Event.finish n (.discovery (.parsed disc)) ∈ tr

omit [DecidableEq ι] in
theorem Told.append {tr : List (Event ι)} (h : Told p tr disc) (e : Event ι) : Told p (tr ++ [e]) disc :=
  h.imp_right fun ⟨n, hn⟩ => ⟨n, List.mem_append_left _ hn⟩

/-- What a step that ends no fetch shows of documents: a caller is returned one that the provider has, and keys are
fetched from the URI of one. -/
structure Shows (w w' : World ι) : Prop where
  discovery : w'.discovery = w.discovery
  outcome : w'.outcome = w.outcome
  returned : ∀ i disc, w'.callers i = .returnedDiscovery (.ok disc) →
    w.callers i = .returnedDiscovery (.ok disc) ∨ w.Knows disc
  uri : ∀ n uri kid, w'.inFlight n = some (.jwks uri kid) →
    w.inFlight n = some (.jwks uri kid) ∨ ∃ disc, w.Knows disc ∧ uri = disc.jwksUri

/-- A call that goes on to `c`, in a state with the same documents. -/
theorem Shows.setCaller {v : World ι} {i : ι} {c : Caller} (hdiscovery : v.discovery = w.discovery)
    (houtcome : v.outcome = w.outcome) (hcallers : v.callers = w.callers)
    (hreturned : ∀ disc, c = .returnedDiscovery (.ok disc) → w.Knows disc)
    (huri : ∀ n uri kid, v.inFlight n = some (.jwks uri kid) →
      w.inFlight n = some (.jwks uri kid) ∨ ∃ disc, w.Knows disc ∧ uri = disc.jwksUri) :
    Shows w (v.setCaller i c) where
  discovery := hdiscovery
  outcome := houtcome
  returned j disc hj := by
    by_cases hne : j = i
    · rw [hne, World.callers_setCaller] at hj
      exact .inr (hreturned disc hj)
    · rw [show (v.setCaller i c).callers j = v.callers j from Function.update_of_ne hne .., hcallers] at hj
      exact .inl hj
  uri := huri

omit [DecidableEq ι] in
/-- What a poll of discovery shows. -/
theorem shows_pollDiscovery {i : ι} {dt : ℕ} {phase : Phase} {r : Phase ⊕ Except OidcError Discovery}
    (h : w.pollDiscovery i dt phase = some (w', r)) :
    w'.discovery = w.discovery ∧ w'.outcome = w.outcome ∧ w'.callers = w.callers ∧
      (∀ n uri kid, w'.inFlight n = some (.jwks uri kid) → w.inFlight n = some (.jwks uri kid)) ∧
      ∀ disc, r = .inr (.ok disc) → w.Knows disc := by
  rcases pollDiscovery_cases h with ⟨-, rfl, rfl⟩ | ⟨-, rfl, -, rfl⟩ | ⟨-, rfl, -, -, rfl⟩ | ⟨-, r, rfl, hknows, rfl⟩ |
    ⟨-, r, rfl, hknows, rfl⟩
  · exact ⟨rfl, rfl, rfl, fun _ _ _ hn => hn, nofun⟩
  · exact ⟨rfl, rfl, rfl, fun _ _ _ hn => hn, nofun⟩
  · refine ⟨rfl, rfl, rfl, fun n uri kid hn => ?_, nofun⟩
    change Function.update w.inFlight w.next (some .discovery) n = _ at hn
    by_cases hne : n = w.next
    · rw [hne, Function.update_self] at hn
      cases hn
    · rwa [Function.update_of_ne hne] at hn
  · exact ⟨rfl, rfl, rfl, fun _ _ _ hn => hn, fun disc hr => hknows disc (Sum.inr.inj hr)⟩
  · exact ⟨rfl, rfl, rfl, fun _ _ _ hn => hn, fun disc hr => hknows disc (Sum.inr.inj hr)⟩

theorem shows_poll {i : ι} {dt : ℕ} (h : w.poll i dt = some w') : Shows w w' := by
  unfold World.poll at h
  split at h
  case h_1 phase hc =>
    obtain ⟨⟨w₁, r⟩, hpoll, rfl⟩ := Option.map_eq_some_iff.mp h
    obtain ⟨hdiscovery, houtcome, hcallers, huri, hknows⟩ := shows_pollDiscovery hpoll
    have huri' := fun n uri kid hn => Or.inl (b := ∃ disc, w.Knows disc ∧ uri = disc.jwksUri) (huri n uri kid hn)
    cases r with
    | inl phase' => exact .setCaller hdiscovery houtcome hcallers nofun huri'
    | inr r =>
      refine .setCaller hdiscovery houtcome hcallers (fun disc hr => hknows disc ?_) huri'
      rw [Caller.returnedDiscovery.inj hr]
  case h_2 kid hc =>
    split at h <;> obtain rfl := Option.some.inj h <;> exact .setCaller rfl rfl rfl nofun fun _ _ _ hn => .inl hn
  case h_3 kid hc =>
    split at h
    · obtain rfl := Option.some.inj h
      exact .setCaller rfl rfl rfl nofun fun _ _ _ hn => .inl hn
    · cases h
  case h_4 kid hc =>
    split at h
    · obtain rfl := Option.some.inj h
      exact .setCaller rfl rfl rfl nofun fun _ _ _ hn => .inl hn
    · split at h <;> obtain rfl := Option.some.inj h <;> exact .setCaller rfl rfl rfl nofun fun _ _ _ hn => .inl hn
  case h_5 kid n hc =>
    split at h
    · obtain rfl := Option.some.inj h
      exact .setCaller rfl rfl rfl nofun fun _ _ _ hn => .inl hn
    · cases h
  case h_6 kid phase hc =>
    obtain ⟨⟨w₁, r⟩, hpoll, rfl⟩ := Option.map_eq_some_iff.mp h
    obtain ⟨hdiscovery, houtcome, hcallers, huri, hknows⟩ := shows_pollDiscovery hpoll
    rcases r with phase' | (e | disc)
    · exact .setCaller hdiscovery houtcome hcallers nofun fun n uri kid hn => .inl (huri n uri kid hn)
    · exact .setCaller hdiscovery houtcome hcallers nofun fun n uri kid hn => .inl (huri n uri kid hn)
    · -- Its fetch goes to the URI of the document that discovery handed it.
      refine .setCaller hdiscovery houtcome hcallers nofun fun n uri kid' hn => ?_
      change Function.update w₁.inFlight w₁.next (some (.jwks disc.jwksUri kid)) n = _ at hn
      by_cases hne : n = w₁.next
      · rw [hne, Function.update_self] at hn
        exact .inr ⟨disc, hknows disc rfl, (Fetch.jwks.inj (Option.some.inj hn)).1.symm⟩
      · rw [Function.update_of_ne hne] at hn
        exact .inl (huri n uri kid' hn)
  case h_7 => cases h

theorem shows_drop {i : ι} (h : w.drop i = some w') : Shows w w' := by
  unfold World.drop at h
  split at h
  case h_7 => cases h
  all_goals
    obtain rfl := Option.some.inj h
    exact .setCaller rfl rfl rfl nofun fun _ _ _ hn => .inl hn

/-- Every document in the hands of the provider or of a caller, and every one whose keys are fetched, was told. -/
structure Disclosed (p : Provider) (tr : List (Event ι)) (w : World ι) : Prop where
  knows : ∀ disc, w.Knows disc → Told p tr disc
  returned : ∀ i disc, w.callers i = .returnedDiscovery (.ok disc) → Told p tr disc
  uri : ∀ n uri kid, w.inFlight n = some (.jwks uri kid) → ∃ disc, Told p tr disc ∧ uri = disc.jwksUri

omit [DecidableEq ι] in
theorem Disclosed.shows {tr : List (Event ι)} (h : Disclosed p tr w) (hshows : Shows w w') (e : Event ι) :
    Disclosed p (tr ++ [e]) w' where
  knows disc hknows := by
    unfold World.Knows at hknows
    rw [hshows.discovery, hshows.outcome] at hknows
    exact (h.knows disc hknows).append e
  returned i disc hi := by
    rcases hshows.returned i disc hi with hold | hknows
    · exact (h.returned i disc hold).append e
    · exact (h.knows disc hknows).append e
  uri n uri kid hn := by
    rcases hshows.uri n uri kid hn with hold | ⟨disc, hknows, rfl⟩
    · obtain ⟨disc, htold, rfl⟩ := h.uri n uri kid hold
      exact ⟨disc, htold.append e, rfl⟩
    · exact ⟨disc, (h.knows disc hknows).append e, rfl⟩

omit [DecidableEq ι] in
/-- A document that a fetch ends with was its answer. -/
theorem told_of_fetchDiscovery {tr : List (Event ι)} {n : ℕ} {answer : Answer Discovery}
    (h : p.fetchDiscovery answer = .ok disc) : Told p (tr ++ [.finish n (.discovery answer)]) disc := by
  refine ⟨accepts_of_fetchDiscovery h, n, List.mem_append_right _ ?_⟩
  unfold Provider.fetchDiscovery at h
  obtain ⟨body, hbody, hcheck⟩ := bind_eq_ok.mp h
  obtain ⟨rfl, -⟩ := accepts_of_checkDiscovery hcheck
  cases answer with
  | parsed body =>
    obtain rfl := Except.ok.inj hbody
    exact List.mem_cons_self
  | _ => cases hbody

omit [DecidableEq ι] in
theorem disclosed_finish {tr : List (Event ι)} {n : ℕ} {response : Response} (hs : Disclosed p tr w)
    (h : w.finish p n response = some w') : Disclosed p (tr ++ [.finish n response]) w' := by
  refine ⟨fun disc hknows => ?_, fun i disc hi => ?_, fun m uri kid hm => ?_⟩
  · unfold World.finish at h
    split at h
    · next answer hf =>
      obtain rfl := Option.some.inj h
      rcases hknows with hcached | ⟨m, hm⟩
      · change (p.fetchDiscovery answer).toOption.or w.discovery = some disc at hcached
        cases hr : p.fetchDiscovery answer with
        | error e =>
          rw [hr] at hcached
          exact (hs.knows disc (.inl hcached)).append _
        | ok d =>
          rw [hr] at hcached
          obtain rfl := Option.some.inj hcached
          exact told_of_fetchDiscovery hr
      · change Function.update w.outcome n _ m = _ at hm
        by_cases hne : m = n
        · rw [hne, Function.update_self] at hm
          exact told_of_fetchDiscovery (Outcome.discovery.inj (Option.some.inj hm))
        · rw [Function.update_of_ne hne] at hm
          exact (hs.knows disc (.inr ⟨m, hm⟩)).append _
    · next uri kid answer hf =>
      obtain rfl := Option.some.inj h
      refine (hs.knows disc (hknows.imp_right fun ⟨m, hm⟩ => ⟨m, ?_⟩)).append _
      change Function.update w.outcome n _ m = _ at hm
      by_cases hne : m = n
      · rw [hne, Function.update_self] at hm
        cases hm
      · rwa [Function.update_of_ne hne] at hm
    · cases h
  · have hcallers : w'.callers = w.callers := by
      unfold World.finish at h
      split at h
      · exact Option.some.inj h ▸ rfl
      · exact Option.some.inj h ▸ rfl
      · cases h
    exact (hs.returned i disc (by rw [← hcallers]; exact hi)).append _
  · obtain ⟨disc, htold, rfl⟩ := hs.uri m uri kid (inFlight_of_finish h hm).2
    exact ⟨disc, htold.append _, rfl⟩

theorem disclosed_step {tr : List (Event ι)} (hs : Disclosed p tr w) {e : Event ι} (hstep : Step p w e w') :
    Disclosed p (tr ++ [e]) w' := by
  cases hstep with
  | tick dt =>
    have hshows : Shows w { w with now := w.now + dt } := ⟨rfl, rfl, fun _ _ hi => .inl hi, fun _ _ _ hn => .inl hn⟩
    exact hs.shows hshows _
  | callDiscovery _ =>
    exact hs.shows (.setCaller rfl rfl rfl (fun _ h => Caller.noConfusion h) fun _ _ _ hn => .inl hn) _
  | callKey _ =>
    exact hs.shows (.setCaller rfl rfl rfl (fun _ h => Caller.noConfusion h) fun _ _ _ hn => .inl hn) _
  | poll h => exact hs.shows (shows_poll h) _
  | drop h => exact hs.shows (shows_drop h) _
  | finish h => exact disclosed_finish hs h

/-- **Only an accepted document is cached or returned to a caller**, in every run, and one that the identity provider
answered in that run; and keys are fetched only from the URI of such a document. -/
theorem trusted_run {tr : List (Event ι)} (h : Run (Step p) (World.start t₀) tr w) :
    (∀ disc, w.discovery = some disc → Told p tr disc) ∧
      (∀ i disc, w.callers i = .returnedDiscovery (.ok disc) → Told p tr disc) ∧
      ∀ n uri kid, w.inFlight n = some (.jwks uri kid) → ∃ disc, Told p tr disc ∧ uri = disc.jwksUri := by
  have hs : Disclosed p tr w := by
    refine h.invariant (fun tr w => Disclosed p tr w) ⟨fun disc hknows => ?_, fun i disc hi => ?_, fun n uri kid hn => ?_⟩
      fun _ _ _ _ _ hs hstep => disclosed_step hs hstep
    · rcases hknows with h | ⟨n, h⟩ <;> cases h
    · cases hi
    · cases hn
  exact ⟨fun disc hdisc => hs.knows disc (.inl hdisc), hs.returned, hs.uri⟩

theorem discovered_move (hs : Trusted p w) {disc : Discovery} (hdisc : w.discovery = some disc) (h : Move p w w') :
    w'.discovery = some disc ∧ w'.times .discovery = w.times .discovery := by
  cases h with
  | tick dt => exact ⟨hdisc, rfl⟩
  | go _ _ _ => exact ⟨hdisc, rfl⟩
  | acquire _ _ _ _ => exact ⟨hdisc, rfl⟩
  | release _ _ _ _ => exact ⟨hdisc, rfl⟩
  | @spawn i c fetch dt _ _ _ _ _ hempty _ =>
    cases fetch with
    | discovery => cases hdisc.symm.trans (hempty rfl)
    | jwks uri kid => exact ⟨hdisc, times_spawn w (.jwks uri kid) dt .discovery⟩
  | finish h =>
    unfold World.finish at h
    split at h
    · next answer hf => cases hdisc.symm.trans (hs.once _ hf)
    · obtain rfl := Option.some.inj h
      exact ⟨hdisc, rfl⟩
    · cases h

/-- **A provider is discovered once.**  A document that is cached stays cached, and no discovery is fetched after it. -/
theorem discovered_once {tr tr' : List (Event ι)} {disc : Discovery} (h : Run (Step p) (World.start t₀) tr w)
    (hdisc : w.discovery = some disc) (h' : Run (Step p) w tr' w') :
    w'.discovery = some disc ∧ w'.times .discovery = w.times .discovery := by
  refine (h'.invariant (fun tr' v => Run (Step p) (World.start t₀) (tr ++ tr') v ∧ v.discovery = some disc ∧
    v.times .discovery = w.times .discovery) ⟨?_, hdisc, rfl⟩ fun tr' v e v' hrun hv hstep => ?_).2
  · simpa using h
  · obtain ⟨hrun, hdisc, htimes⟩ := hv
    refine ⟨List.append_assoc tr tr' [e] ▸ hrun.step hstep, ?_⟩
    have hheld := (kept_run hrun).1
    have hs := trusted_of_run hrun
    have hmoves := moves_step hstep
    suffices hlast : Held v' ∧ Trusted p v' ∧ v'.discovery = some disc ∧ v'.times .discovery = w.times .discovery from
      hlast.2.2
    clear hstep hrun
    induction hmoves with
    | refl => exact ⟨hheld, hs, hdisc, htimes⟩
    | tail _ hmove ih =>
      obtain ⟨hheld, hs, hdisc, htimes⟩ := ih
      obtain ⟨hdisc', htimes'⟩ := discovered_move hs hdisc hmove
      exact ⟨held_move hheld hmove, trusted_move hheld hs hmove, hdisc', htimes'.trans htimes⟩

end

/-! ### A login beside a call for a key -/

namespace Beside

/-- The call for a key fetches the document; the login is returned it, and the keys are fetched. -/
def events : List (Event Bool) :=
  [.callKey true "k", .callDiscovery false, .poll true 0, .poll true 0, .poll true 0, .poll true 0, .poll true 0,
    .poll true 0, .poll false 0, .finish 0 (.discovery (.parsed HangUp.document)), .poll false 0, .poll false 0,
    .poll true 0]

/-- What the login was returned, and the second fetch. -/
def outcome (w : World Bool) : Option (Discovery × Fetch) :=
  match w.callers false, w.inFlight 1 with
  | .returnedDiscovery (.ok disc), some fetch => some (disc, fetch)
  | _, _ => none

theorem run : ∃ w, Run (Step HangUp.provider) (World.start (secs 100)) events w ∧
    w.callers false = .returnedDiscovery (.ok HangUp.document) ∧ w.inFlight 1 = some (.jwks "https://id/jwks" "k") := by
  have hruns : (events.foldlM HangUp.apply (World.start (secs 100))).bind outcome =
      some (HangUp.document, .jwks "https://id/jwks" "k") := by decide +kernel
  obtain ⟨w, hw, houtcome⟩ := Option.bind_eq_some_iff.mp hruns
  refine ⟨w, run_of_foldlM (fun _ _ _ => HangUp.step_apply) hw, ?_⟩
  unfold outcome at houtcome
  split at houtcome
  · next disc fetch hreturned hflight =>
    obtain ⟨rfl, rfl⟩ := Prod.mk.inj (Option.some.inj houtcome)
    exact ⟨hreturned, hflight⟩
  · cases houtcome

end Beside

/-- The document it was returned, and the one whose keys are fetched. -/
theorem trusted_run_beside : ∃ w : World Bool, w.callers false = .returnedDiscovery (.ok HangUp.document) ∧
    Told HangUp.provider Beside.events HangUp.document ∧ w.inFlight 1 = some (.jwks "https://id/jwks" "k") ∧
    ∃ disc, Told HangUp.provider Beside.events disc ∧ "https://id/jwks" = disc.jwksUri := by
  obtain ⟨w, hrun, hreturned, hflight⟩ := Beside.run
  obtain ⟨-, hcallers, huri⟩ := trusted_run hrun
  exact ⟨w, hreturned, hcallers false _ hreturned, hflight, huri 1 _ _ hflight⟩

/-- The document fetched for a call that hung up stays, and no discovery is fetched an hour later. -/
theorem discovered_once_hangUp : ∃ w w' : World Bool, w'.now = w.now + secs 3600 ∧
    w'.discovery = some HangUp.document ∧ w'.times .discovery = w.times .discovery := by
  obtain ⟨w, hrun, hdiscovery⟩ := HangUp.run
  exact ⟨w, _, rfl, discovered_once hrun hdiscovery (Run.start.step (Step.tick w (secs 3600)))⟩

end Alaya.Oidc
