import Alaya.Oidc.Trust

/-!
# Which tokens are accepted

A token is refused unless its algorithm, key, signature, audience, issuer and dates all hold.  The key comes from a call
of the provider that runs beside any others: it was served under the token's `kid` by the URI of an accepted document, and
the token is of no use an hour and two minutes after it was accepted (`accepted_token`).  The signatures and the
registered claims are the JWT library's to check.
-/

namespace Alaya.Oidc

open Labelled

def clockSkewLeewaySecs : ℕ := 60

/-- There is no revocation, so this bounds what a stolen token is worth. -/
def maxTokenAgeSecs : ℕ := 3600

/-- The algorithms a header can name; `none` is not one. -/
inductive Algorithm where
  | hs256 | hs384 | hs512
  | es256 | es384
  | rs256 | rs384 | rs512
  | ps256 | ps384 | ps512
  | edDSA
  deriving DecidableEq

structure Header where
  alg : Algorithm
  kid : Option String

structure Claims where
  iss : String
  /-- The identity provider may leave it out. -/
  iat : Option ℕ
  exp : ℕ

/-- Why the library refused a token. -/
inductive JwtError where
  | invalidAudience
  | expiredSignature
  | invalidSignature
  | other
  deriving DecidableEq

/-- The JWT library: headers, keys of JWK components, and `decode` under an algorithm, an audience and a leeway, at a
reading of the clock. -/
structure Jwt (Key : Type) where
  decodeHeader : String → Option Header
  fromRsaComponents : String → String → Option Key
  fromEcComponents : String → String → Option Key
  decode : String → Key → Algorithm → String → ℕ → ℕ → Except JwtError Claims

variable {Key : Type}

/-- What a token says, and which keys signed it. -/
structure Tokens (Key : Type) where
  claims : String → Option Claims
  audiences : String → List String
  signed : String → Key → Algorithm → Prop

/-- What the library promises of a token it decodes: `exp` and `aud` are required, `exp` up to the leeway. -/
structure Jwt.Decodes (lib : Jwt Key) (tokens : Tokens Key) : Prop where
  claims : ∀ {token key alg audience leeway now claims}, lib.decode token key alg audience leeway now = .ok claims →
    tokens.claims token = some claims
  signed : ∀ {token key alg audience leeway now claims}, lib.decode token key alg audience leeway now = .ok claims →
    tokens.signed token key alg
  audience : ∀ {token key alg audience leeway now claims}, lib.decode token key alg audience leeway now = .ok claims →
    audience ∈ tokens.audiences token
  unexpired : ∀ {token key alg audience leeway now claims}, lib.decode token key alg audience leeway now = .ok claims →
    now - leeway ≤ claims.exp

/-! ### The pipeline -/

def need {α : Type} (value : Option α) (op : String) : Except OidcError α := value.elim (.error (.invalid op)) .ok

def buildDecodingKey (lib : Jwt Key) (jwk : Jwk) (alg : Algorithm) : Except OidcError Key :=
  if jwk.kty = "RSA" ∧ alg = .rs256 then do
    let n ← need jwk.n "rsa n"
    let e ← need jwk.e "rsa e"
    need (lib.fromRsaComponents n e) "rsa key"
  else if jwk.kty = "EC" ∧ alg = .es256 then do
    let x ← need jwk.x "ec x"
    let y ← need jwk.y "ec y"
    need (lib.fromEcComponents x y) "ec key"
  else .error (.invalid "alg/key mismatch")

/-- The reason shown of a token the library refused. -/
def JwtError.op : JwtError → String
  | invalidAudience => "aud mismatch"
  | expiredSignature => "expired"
  | invalidSignature => "bad signature"
  | other => "invalid token"

/-- `Provider::verify`; the clock is read after the key was looked up. -/
def Provider.verify (p : Provider) (lib : Jwt Key) (keyForKid : String → Except OidcError Jwk) (token audience : String)
    (now : ℕ) : Except OidcError Claims := do
  let header ← need (lib.decodeHeader token) "bad header"
  if header.alg ≠ .rs256 ∧ header.alg ≠ .es256 then .error (.invalid "alg not allowed")
  else
    let kid ← need header.kid "missing kid"
    let jwk ← keyForKid kid
    let key ← buildDecodingKey lib jwk header.alg
    let claims ← (lib.decode token key header.alg audience clockSkewLeewaySecs now).mapError fun e => .invalid e.op
    if normalizeIssuer claims.iss ≠ p.issuer then .error (.invalid "iss mismatch") else return claims

/-- The cap on a token's lifetime: from `iat`, or from now where there is none.  The sum saturates. -/
def checkAge (claims : Claims) (now : ℕ) : Except OidcError Unit :=
  match claims.iat with
  | some iat =>
    if min (now + clockSkewLeewaySecs) (2 ^ 64 - 1) < iat then .error (.invalid "iat in the future")
    else if maxTokenAgeSecs < claims.exp - iat then .error (.invalid "token lifetime exceeds cap")
    else .ok ()
  | none => if maxTokenAgeSecs < claims.exp - now then .error (.invalid "token lifetime exceeds cap") else .ok ()

structure OidcVerifier where
  provider : Provider
  audience : String

/-- `validate`, with the readings of the clock in `decode` and after it. -/
def OidcVerifier.validate (v : OidcVerifier) (lib : Jwt Key) (keyForKid : String → Except OidcError Jwk) (token : String)
    (now now' : ℕ) : Except OidcError Unit := do
  let claims ← v.provider.verify lib keyForKid token v.audience now
  checkAge claims now'

/-! ### What an accepted token is -/

section

variable {lib : Jwt Key} {tokens : Tokens Key} {p : Provider} {v : OidcVerifier}
  {keyForKid : String → Except OidcError Jwk} {token audience : String} {now now' : ℕ} {claims : Claims}

theorem need_eq_ok {α : Type} {value : Option α} {op : String} {a : α} : need value op = .ok a ↔ value = some a := by
  cases value <;> simp [need]

theorem alg_of_buildDecodingKey {jwk : Jwk} {alg : Algorithm} {key : Key} (h : buildDecodingKey lib jwk alg = .ok key) :
    jwk.kty = "RSA" ∧ alg = .rs256 ∨ jwk.kty = "EC" ∧ alg = .es256 := by
  unfold buildDecodingKey at h
  split_ifs at h with hrsa hec
  · exact .inl hrsa
  · exact .inr hec

/-- A token that `verify` accepts, and the key it was accepted under. -/
structure Verified (lib : Jwt Key) (tokens : Tokens Key) (p : Provider) (keyForKid : String → Except OidcError Jwk)
    (token audience : String) (now : ℕ) (claims : Claims) (kid : String) (jwk : Jwk) : Prop where
  header : (lib.decodeHeader token).bind Header.kid = some kid
  decoded : tokens.claims token = some claims
  issuer : normalizeIssuer claims.iss = p.issuer
  audience : audience ∈ tokens.audiences token
  served : keyForKid kid = .ok jwk
  signed : ∃ key alg, buildDecodingKey lib jwk alg = .ok key ∧ tokens.signed token key alg ∧
    (jwk.kty = "RSA" ∧ alg = .rs256 ∨ jwk.kty = "EC" ∧ alg = .es256)
  unexpired : now ≤ claims.exp + clockSkewLeewaySecs

theorem verified_of_verify (hlib : lib.Decodes tokens) (h : p.verify lib keyForKid token audience now = .ok claims) :
    ∃ kid jwk, Verified lib tokens p keyForKid token audience now claims kid jwk := by
  obtain ⟨header, hheader, h⟩ := bind_eq_ok.mp h
  split_ifs at h with halg
  obtain ⟨kid, hkid, h⟩ := bind_eq_ok.mp h
  obtain ⟨jwk, hjwk, h⟩ := bind_eq_ok.mp h
  obtain ⟨key, hkey, h⟩ := bind_eq_ok.mp h
  obtain ⟨claims', hdecode, h⟩ := bind_eq_ok.mp h
  split_ifs at h with hissuer
  obtain rfl := Except.ok.inj h
  have hdecode : lib.decode token key header.alg audience clockSkewLeewaySecs now = .ok claims' := by
    cases hd : lib.decode token key header.alg audience clockSkewLeewaySecs now with
    | error e =>
      rw [hd] at hdecode
      cases hdecode
    | ok c =>
      rw [hd] at hdecode
      exact congrArg _ (Except.ok.inj hdecode)
  have hexp := hlib.unexpired hdecode
  refine ⟨kid, jwk, ?_, hlib.claims hdecode, not_not.mp hissuer, hlib.audience hdecode, hjwk,
    ⟨key, header.alg, hkey, hlib.signed hdecode, alg_of_buildDecodingKey hkey⟩, by omega⟩
  rw [need_eq_ok.mp hheader]
  exact need_eq_ok.mp hkid

/-- A token that passes the cap expires within it. -/
theorem exp_le_of_checkAge (h : checkAge claims now = .ok ()) :
    claims.exp ≤ now + clockSkewLeewaySecs + maxTokenAgeSecs := by
  unfold checkAge at h
  split at h
  · split_ifs at h with hfuture hage
    omega
  · split_ifs at h with hage
    omega

end

/-! ### Where a key comes from -/

section

variable {ι : Type} [DecidableEq ι] {p : Provider} {w w' : World ι} {t₀ : ℕ} {tr : List (Event ι)} {kid : String} {jwk : Jwk}

/-- A key that the URI of an accepted document answered, at some step of the run. -/
def Served (p : Provider) (t₀ : ℕ) (tr : List (Event ι)) (jwk : Jwk) : Prop :=
  ∃ tr₁ tr₂ n keys uri kid, tr = tr₁ ++ .finish n (.jwks (.parsed keys)) :: tr₂ ∧ jwk ∈ keys ∧
    sameOriginHttps p.parse p.issuer uri = .ok () ∧
    ∃ w₁ : World ι, Run (Step p) (World.start t₀) tr₁ w₁ ∧ w₁.inFlight n = some (.jwks uri kid)

theorem Served.append (h : Served p t₀ tr jwk) (e : Event ι) : Served p t₀ (tr ++ [e]) jwk := by
  obtain ⟨tr₁, tr₂, n, keys, uri, kid, rfl, hmem, hsame, w₁, hrun, hflight⟩ := h
  exact ⟨tr₁, tr₂ ++ [e], n, keys, uri, kid, by simp, hmem, hsame, w₁, hrun, hflight⟩

/-- A key of a key map was in the answer, under its `kid`. -/
theorem mem_of_keyMap {keys : List Jwk} (h : keyMap keys kid = some jwk) : jwk ∈ keys ∧ jwk.kid = some kid :=
  ⟨List.mem_reverse.mp (List.mem_of_find?_eq_some h), by simpa using List.find?_some h⟩

/-- The key that a call asks for. -/
def Caller.asks : Caller → Option String
  | .key kid _ | .keyDiscovery kid _ => some kid
  | _ => none

/-- The end of a fetch for a key is as the call that joins it expects. -/
def Joins (p : Provider) (t₀ : ℕ) (tr : List (Event ι)) (w : World ι) (n : ℕ) (kid : String) : Prop :=
  (∃ uri, w.inFlight n = some (.jwks uri kid)) ∨
    ∃ r, w.outcome n = some (.jwks r) ∧ ∀ jwk, r = .ok jwk → jwk.kid = some kid ∧ Served p t₀ tr jwk

/-- Each key that is cached or handed on was served under the `kid` it is found by. -/
structure Sourced (p : Provider) (t₀ : ℕ) (tr : List (Event ι)) (w : World ι) : Prop where
  keys : ∀ kid jwk, w.keys kid = some jwk → jwk.kid = some kid ∧ Served p t₀ tr jwk
  asked : ∀ i kid, (w.callers i).asks = some kid → Event.callKey i kid ∈ tr
  joins : ∀ i kid n, w.callers i = .key kid (.joining n) → Joins p t₀ tr w n kid
  returned : ∀ i jwk, w.callers i = .returnedKey (.ok jwk) →
    Served p t₀ tr jwk ∧ ∃ kid, Event.callKey i kid ∈ tr ∧ jwk.kid = some kid
  idle : ∀ i, w.callers i = .idle → ∀ kid, Event.callKey i kid ∉ tr
  once : ∀ i kid kid', Event.callKey i kid ∈ tr → Event.callKey i kid' ∈ tr → kid = kid'

omit [DecidableEq ι] in
theorem callKey_of_append {e : Event ι} {i : ι} (h : Event.callKey i kid ∈ tr ++ [e]) :
    Event.callKey i kid ∈ tr ∨ e = .callKey i kid := by
  rcases List.mem_append.mp h with h | h
  · exact .inl h
  · exact .inr (List.mem_singleton.mp h).symm

theorem Sourced.append (h : Sourced p t₀ tr w) {e : Event ι} (he : ∀ i kid, e ≠ .callKey i kid) :
    Sourced p t₀ (tr ++ [e]) w where
  keys kid jwk hk := ⟨(h.keys kid jwk hk).1, (h.keys kid jwk hk).2.append e⟩
  asked i kid hi := List.mem_append_left _ (h.asked i kid hi)
  joins i kid n hi := (h.joins i kid n hi).imp_right fun ⟨r, hr, hok⟩ =>
    ⟨r, hr, fun jwk hjwk => ⟨(hok jwk hjwk).1, (hok jwk hjwk).2.append e⟩⟩
  returned i jwk hi := by
    obtain ⟨hserved, kid, hcall, hkid⟩ := h.returned i jwk hi
    exact ⟨hserved.append e, kid, List.mem_append_left _ hcall, hkid⟩
  idle i hi kid hmem := h.idle i hi kid ((callKey_of_append hmem).resolve_right (he i kid))
  once i kid kid' hmem hmem' := h.once i kid kid' ((callKey_of_append hmem).resolve_right (he i kid))
    ((callKey_of_append hmem').resolve_right (he i kid'))

/-- A call that goes on to `c`, in a state with the same keys and fetches. -/
theorem Sourced.setCaller {i : ι} {c : Caller} (h : Sourced p t₀ tr w) (hkeys : w'.keys = w.keys)
    (hcallers : w'.callers = Function.update w.callers i c)
    (hjoins : ∀ n kid, Joins p t₀ tr w n kid → Joins p t₀ tr w' n kid)
    (hasked : ∀ kid, c.asks = some kid → Event.callKey i kid ∈ tr)
    (hjoin : ∀ kid n, c = .key kid (.joining n) → Joins p t₀ tr w' n kid)
    (hreturned : ∀ jwk, c = .returnedKey (.ok jwk) →
      Served p t₀ tr jwk ∧ ∃ kid, Event.callKey i kid ∈ tr ∧ jwk.kid = some kid) (hc : c ≠ .idle) :
    Sourced p t₀ tr w' := by
  have hcases : ∀ {j c'}, w'.callers j = c' → j = i ∧ c' = c ∨ w.callers j = c' := by
    intro j c' hj
    rw [hcallers] at hj
    by_cases hne : j = i
    · rw [hne, Function.update_self] at hj
      exact .inl ⟨hne, hj.symm⟩
    · rw [Function.update_of_ne hne] at hj
      exact .inr hj
  refine ⟨fun kid jwk hk => h.keys kid jwk (hkeys ▸ hk), fun j kid hj => ?_, fun j kid n hj => ?_, fun j jwk hj => ?_,
    fun j hj => ?_, h.once⟩
  · rcases hcases (rfl : w'.callers j = _) with ⟨rfl, heq⟩ | hold
    · exact hasked kid (heq ▸ hj)
    · exact h.asked j kid (hold ▸ hj)
  · rcases hcases hj with ⟨rfl, heq⟩ | hold
    · exact hjoin kid n heq.symm
    · exact hjoins n kid (h.joins j kid n hold)
  · rcases hcases hj with ⟨rfl, heq⟩ | hold
    · exact hreturned jwk heq.symm
    · exact h.returned j jwk hold
  · rcases hcases hj with ⟨-, heq⟩ | hold
    · exact absurd heq.symm hc
    · exact h.idle j hold

/-- A fetch that is started is a new one. -/
theorem joins_spawn (hfresh : w.inFlight w.next = none) (fetch : Fetch) (dt : ℕ) {n : ℕ} (h : Joins p t₀ tr w n kid) :
    Joins p t₀ tr (w.spawn fetch dt) n kid := by
  rcases h with ⟨uri, hn⟩ | houtcome
  · have hne : n ≠ w.next := by
      rintro rfl
      rw [hfresh] at hn
      cases hn
    exact .inl ⟨uri, (Function.update_of_ne hne ..).trans hn⟩
  · exact .inr houtcome

/-- What a poll of discovery leaves. -/
theorem joins_pollDiscovery (hheld : Held w) {i : ι} {dt : ℕ} {phase : Phase} {r : Phase ⊕ Except OidcError Discovery}
    (h : w.pollDiscovery i dt phase = some (w', r)) :
    w'.keys = w.keys ∧ w'.callers = w.callers ∧ (∀ n kid, Joins p t₀ tr w n kid → Joins p t₀ tr w' n kid) ∧
      ∀ disc, r = .inr disc → w'.inFlight w'.next = none := by
  have hfresh := (hheld.fresh w.next le_rfl).1
  rcases pollDiscovery_cases h with ⟨-, -, rfl⟩ | ⟨-, -, -, rfl⟩ | ⟨-, rfl, -, -, rfl⟩ | ⟨-, r, -, -, rfl⟩ | ⟨-, r, -, -, rfl⟩
  · exact ⟨rfl, rfl, fun _ _ hj => hj, fun _ _ => hfresh⟩
  · exact ⟨rfl, rfl, fun _ _ hj => hj, fun _ _ => hfresh⟩
  · exact ⟨rfl, rfl, fun _ _ hj => joins_spawn hfresh .discovery dt hj, nofun⟩
  · exact ⟨rfl, rfl, fun _ _ hj => hj, fun _ _ => hfresh⟩
  · exact ⟨rfl, rfl, fun _ _ hj => hj, fun _ _ => hfresh⟩

theorem sourced_poll (hheld : Held w) (hs : Sourced p t₀ tr w) {i : ι} {dt : ℕ} (h : w.poll i dt = some w') :
    Sourced p t₀ tr w' := by
  unfold World.poll at h
  split at h
  case h_1 phase hc =>
    obtain ⟨⟨w₁, r⟩, hpoll, rfl⟩ := Option.map_eq_some_iff.mp h
    obtain ⟨hkeys, hcallers, hjoins, -⟩ := joins_pollDiscovery hheld hpoll
    cases r <;> exact hs.setCaller hkeys (congrArg (Function.update · i _) hcallers) hjoins nofun nofun nofun nofun
  case h_2 kid hc =>
    have hasked := hs.asked i kid (by rw [hc]; rfl)
    split at h <;> obtain rfl := Option.some.inj h
    · next jwk hjwk =>
      obtain ⟨hkid, hserved⟩ := hs.keys kid jwk hjwk
      refine hs.setCaller rfl rfl (fun _ _ hj => hj) nofun nofun (fun jwk' heq => ?_) nofun
      obtain rfl := Except.ok.inj (Caller.returnedKey.inj heq)
      exact ⟨hserved, kid, hasked, hkid⟩
    · refine hs.setCaller rfl rfl (fun _ _ hj => hj) (fun kid' hk => ?_) nofun nofun nofun
      obtain rfl := Option.some.inj hk
      exact hasked
  case h_3 kid hc =>
    have hasked := hs.asked i kid (by rw [hc]; rfl)
    split at h
    · obtain rfl := Option.some.inj h
      refine hs.setCaller rfl rfl (fun _ _ hj => hj) (fun kid' hk => ?_) nofun nofun nofun
      obtain rfl := Option.some.inj hk
      exact hasked
    · cases h
  case h_4 kid hc =>
    have hasked := hs.asked i kid (by rw [hc]; rfl)
    split at h
    · next jwk hjwk =>
      obtain rfl := Option.some.inj h
      obtain ⟨hkid, hserved⟩ := hs.keys kid jwk hjwk
      refine hs.setCaller rfl rfl (fun _ _ hj => hj) nofun nofun (fun jwk' heq => ?_) nofun
      obtain rfl := Except.ok.inj (Caller.returnedKey.inj heq)
      exact ⟨hserved, kid, hasked, hkid⟩
    · split at h <;> obtain rfl := Option.some.inj h
      · exact hs.setCaller rfl rfl (fun _ _ hj => hj) nofun nofun nofun nofun
      · refine hs.setCaller rfl rfl (fun _ _ hj => hj) (fun kid' hk => ?_) nofun nofun nofun
        obtain rfl := Option.some.inj hk
        exact hasked
  case h_5 kid n hc =>
    have hasked := hs.asked i kid (by rw [hc]; rfl)
    split at h
    · next r hr =>
      obtain rfl := Option.some.inj h
      refine hs.setCaller rfl rfl (fun _ _ hj => hj) nofun nofun (fun jwk heq => ?_) nofun
      rcases hs.joins i kid n hc with ⟨uri, hn⟩ | ⟨r', hr', hok⟩
      · cases (hheld.pending n _ hn).symm.trans hr
      · obtain rfl : r' = r := Outcome.jwks.inj (Option.some.inj (hr'.symm.trans hr))
        obtain ⟨hkid, hserved⟩ := hok jwk (Caller.returnedKey.inj heq)
        exact ⟨hserved, kid, hasked, hkid⟩
    · cases h
  case h_6 kid phase hc =>
    have hasked := hs.asked i kid (by rw [hc]; rfl)
    obtain ⟨⟨w₁, r⟩, hpoll, rfl⟩ := Option.map_eq_some_iff.mp h
    obtain ⟨hkeys, hcallers, hjoins, hfresh⟩ := joins_pollDiscovery hheld hpoll
    rcases r with phase' | (e | disc)
    · refine hs.setCaller hkeys (congrArg (Function.update · i _) hcallers) hjoins (fun kid' hk => ?_) nofun nofun nofun
      obtain rfl := Option.some.inj hk
      exact hasked
    · exact hs.setCaller hkeys (congrArg (Function.update · i _) hcallers) hjoins nofun nofun nofun nofun
    · refine hs.setCaller hkeys (congrArg (Function.update · i _) hcallers)
        (fun n kid' hj => joins_spawn (hfresh _ rfl) (.jwks disc.jwksUri kid) dt (hjoins n kid' hj)) (fun kid' hk => ?_)
        (fun kid' n hk => ?_) nofun nofun
      · obtain rfl := Option.some.inj hk
        exact hasked
      · obtain ⟨rfl, hn⟩ := Caller.key.inj hk
        obtain rfl := Phase.joining.inj hn
        exact .inl ⟨disc.jwksUri, Function.update_self ..⟩
  case h_7 => cases h

theorem sourced_drop (hs : Sourced p t₀ tr w) {i : ι} (h : w.drop i = some w') : Sourced p t₀ tr w' := by
  have hdropped : ∀ v : World ι, v.keys = w.keys → v.callers = w.callers → v.inFlight = w.inFlight →
      v.outcome = w.outcome → Sourced p t₀ tr (v.setCaller i .dropped) := fun v hkeys hcallers hflight houtcome =>
    hs.setCaller hkeys (congrArg (Function.update · i _) hcallers)
      (fun n kid hj => hj.imp (fun ⟨uri, hn⟩ => ⟨uri, (congrFun hflight n).trans hn⟩)
        fun ⟨r, hr, hok⟩ => ⟨r, (congrFun houtcome n).trans hr, hok⟩) nofun nofun nofun nofun
  unfold World.drop at h
  split at h
  case h_7 => cases h
  all_goals
    obtain rfl := Option.some.inj h
    exact hdropped _ rfl rfl rfl rfl

/-- **The end of a fetch**: what it answered is served from here on. -/
theorem sourced_finish (hheld : Held w) (htrusted : Trusted p w) (hrun : Run (Step p) (World.start t₀) tr w)
    (hs : Sourced p t₀ tr w) {n : ℕ} {response : Response} (h : w.finish p n response = some w') :
    Sourced p t₀ (tr ++ [.finish n response]) w' := by
  have hs' := hs.append (e := .finish n response) nofun
  -- No call joined this fetch before it ended.
  have hold : ∀ m kid, Joins p t₀ (tr ++ [.finish n response]) w m kid → m ≠ n →
      w'.inFlight m = w.inFlight m → w'.outcome m = w.outcome m →
      Joins p t₀ (tr ++ [.finish n response]) w' m kid := fun m kid hj _ hflight houtcome =>
    hj.imp (fun ⟨uri, hn⟩ => ⟨uri, hflight.trans hn⟩) fun ⟨r, hr, hok⟩ => ⟨r, houtcome.trans hr, hok⟩
  unfold World.finish at h
  split at h
  · next answer hf =>
    obtain rfl := Option.some.inj h
    refine ⟨hs'.keys, hs'.asked, fun i kid m hi => ?_, hs'.returned, hs'.idle, hs'.once⟩
    have hj := hs'.joins i kid m hi
    by_cases hne : m = n
    · subst hne
      rcases hj with ⟨uri, hm⟩ | ⟨r, hr, -⟩
      · cases hm.symm.trans hf
      · cases (hheld.pending m _ hf).symm.trans hr
    · exact hold m kid hj hne (Function.update_of_ne hne ..) (Function.update_of_ne hne ..)
  · next uri kid answer hf =>
    obtain rfl := Option.some.inj h
    have hserved : ∀ keys kid' jwk, fetchJson jwksOps answer = .ok keys → keyMap keys kid' = some jwk →
        jwk.kid = some kid' ∧ Served p t₀ (tr ++ [.finish n (.jwks answer)]) jwk := by
      intro keys kid' jwk hfetch hmap
      obtain ⟨hmem, hkid⟩ := mem_of_keyMap hmap
      obtain ⟨disc, haccepts, rfl⟩ := htrusted.uri n uri kid hf
      cases answer with
      | parsed body =>
        obtain rfl := Except.ok.inj hfetch
        exact ⟨hkid, tr, [], n, body, _, kid, rfl, hmem, haccepts.jwksUri, w, hrun, hf⟩
      | _ => cases hfetch
    refine ⟨fun kid' jwk hk => ?_, hs'.asked, fun i kid' m hi => ?_, hs'.returned, hs'.idle, hs'.once⟩
    · cases hfetch : fetchJson jwksOps answer with
      | error e =>
        rw [hfetch] at hk
        exact hs'.keys kid' jwk hk
      | ok keys =>
        rw [hfetch] at hk
        exact hserved keys kid' jwk hfetch hk
    · have hj := hs'.joins i kid' m hi
      by_cases hne : m = n
      · subst hne
        obtain rfl : kid' = kid := by
          rcases hj with ⟨uri', hm⟩ | ⟨r, hr, -⟩
          · exact (Fetch.jwks.inj (Option.some.inj (hm.symm.trans hf))).2
          · cases (hheld.pending m _ hf).symm.trans hr
        refine .inr ⟨_, Function.update_self .., fun jwk hjwk => ?_⟩
        obtain ⟨table, htable, hfound⟩ := bind_eq_ok.mp hjwk
        cases hfetch : fetchJson jwksOps answer with
        | error e =>
          rw [hfetch] at htable
          cases htable
        | ok keys =>
          rw [hfetch] at htable
          obtain rfl := Except.ok.inj htable
          refine hserved keys kid' jwk hfetch ?_
          cases hmap : keyMap keys kid' with
          | none =>
            rw [hmap] at hfound
            cases hfound
          | some found =>
            rw [hmap] at hfound
            exact congrArg some (Except.ok.inj hfound)
      · exact hold m kid' hj hne (Function.update_of_ne hne ..) (Function.update_of_ne hne ..)
  · cases h

theorem sourced_callKey (hs : Sourced p t₀ tr w) {i : ι} (hidle : w.callers i = .idle) :
    Sourced p t₀ (tr ++ [.callKey i kid]) (w.setCaller i (.key kid .reading)) := by
  have hold : ∀ {j c}, (w.setCaller i (.key kid .reading)).callers j = c → c ≠ .key kid .reading → w.callers j = c := by
    intro j c hj hne
    by_cases hij : j = i
    · rw [hij, World.callers_setCaller] at hj
      exact absurd hj.symm hne
    · exact (Function.update_of_ne hij ..).symm.trans hj
  refine ⟨fun kid' jwk hk => ?_, fun j kid' hj => ?_, fun j kid' n hj => ?_, fun j jwk hj => ?_, fun j hj kid' hmem => ?_,
    fun j kid₁ kid₂ h₁ h₂ => ?_⟩
  · exact ⟨(hs.keys kid' jwk hk).1, (hs.keys kid' jwk hk).2.append _⟩
  · by_cases hij : j = i
    · rw [hij, World.callers_setCaller] at hj
      rw [hij, ← Option.some.inj hj]
      exact List.mem_append_right _ List.mem_cons_self
    · rw [show (w.setCaller i (.key kid .reading)).callers j = w.callers j from Function.update_of_ne hij ..] at hj
      exact List.mem_append_left _ (hs.asked j kid' hj)
  · exact (hs.joins j kid' n (hold hj nofun)).imp_right fun ⟨r, hr, hok⟩ =>
      ⟨r, hr, fun jwk hjwk => ⟨(hok jwk hjwk).1, (hok jwk hjwk).2.append _⟩⟩
  · obtain ⟨hserved, kid', hcall, hkid⟩ := hs.returned j jwk (hold hj nofun)
    exact ⟨hserved.append _, kid', List.mem_append_left _ hcall, hkid⟩
  · rcases callKey_of_append hmem with hmem | heq
    · exact hs.idle j (hold hj nofun) kid' hmem
    · obtain ⟨rfl, -⟩ := Event.callKey.inj heq
      rw [World.callers_setCaller] at hj
      cases hj
  · rcases callKey_of_append h₁ with h₁ | h₁ <;> rcases callKey_of_append h₂ with h₂ | h₂
    · exact hs.once j kid₁ kid₂ h₁ h₂
    · obtain ⟨rfl, -⟩ := Event.callKey.inj h₂
      exact absurd h₁ (hs.idle i hidle kid₁)
    · obtain ⟨rfl, -⟩ := Event.callKey.inj h₁
      exact absurd h₂ (hs.idle i hidle kid₂)
    · exact (Event.callKey.inj h₁).2.symm.trans (Event.callKey.inj h₂).2

theorem sourced_step (hheld : Held w) (htrusted : Trusted p w) (hrun : Run (Step p) (World.start t₀) tr w)
    (hs : Sourced p t₀ tr w) {e : Event ι} (h : Step p w e w') : Sourced p t₀ (tr ++ [e]) w' := by
  cases h with
  | tick dt =>
    have hs' := hs.append (e := .tick dt) nofun
    exact ⟨hs'.keys, hs'.asked, hs'.joins, hs'.returned, hs'.idle, hs'.once⟩
  | @callDiscovery i hidle =>
    have hs' := hs.append (e := .callDiscovery i) nofun
    exact hs'.setCaller rfl rfl (fun _ _ hj => hj) nofun nofun nofun nofun
  | callKey hidle => exact sourced_callKey hs hidle
  | poll h => exact sourced_poll hheld (hs.append nofun) h
  | drop h => exact sourced_drop (hs.append nofun) h
  | finish h => exact sourced_finish hheld htrusted hrun hs h

theorem sourced_run (h : Run (Step p) (World.start t₀) tr w) : Sourced p t₀ tr w := by
  refine (h.invariant (fun tr w => Run (Step p) (World.start t₀) tr w ∧ Sourced p t₀ tr w) ⟨.start, ?_⟩
    fun tr v e v' _ hv hstep => ⟨hv.1.step hstep, ?_⟩).2
  · exact ⟨nofun, nofun, nofun, nofun, fun _ _ _ => List.not_mem_nil,
      fun _ _ _ h => absurd h List.not_mem_nil⟩
  · exact sourced_step (kept_run hv.1).1 (trusted_of_run hv.1) hv.1 hv.2 hstep

end

/-! ### An accepted token -/

section

variable {ι : Type} [DecidableEq ι] {lib : Jwt Key} {tokens : Tokens Key} {v : OidcVerifier} {t₀ : ℕ} {tr : List (Event ι)}
  {w : World ι} {keyForKid : String → Except OidcError Jwk} {token : String} {now now' : ℕ}

/-- **What it takes for a token to be accepted**, in every run of the provider: it is signed for the audience by a key of
its kind that the URI of an accepted document served under the key's `kid`, it says it is from the issuer, and it is not
accepted at a time more than an hour and two minutes later, whatever keys there are then. -/
theorem accepted_token (hlib : lib.Decodes tokens) (hrun : Run (Step v.provider) (World.start t₀) tr w)
    (hkeys : ∀ kid jwk, keyForKid kid = .ok jwk → ∃ i, Event.callKey i kid ∈ tr ∧ w.callers i = .returnedKey (.ok jwk))
    (h : v.validate lib keyForKid token now now' = .ok ()) :
    (∃ claims key alg jwk, tokens.claims token = some claims ∧ normalizeIssuer claims.iss = v.provider.issuer ∧
      v.audience ∈ tokens.audiences token ∧ tokens.signed token key alg ∧ buildDecodingKey lib jwk alg = .ok key ∧
      (jwk.kty = "RSA" ∧ alg = .rs256 ∨ jwk.kty = "EC" ∧ alg = .es256) ∧ jwk.kid = (lib.decodeHeader token).bind Header.kid ∧
      Served v.provider t₀ tr jwk) ∧
    ∀ keyForKid' later later', v.validate lib keyForKid' token later later' = .ok () →
      later ≤ now' + maxTokenAgeSecs + 2 * clockSkewLeewaySecs := by
  obtain ⟨claims, hverify, hage⟩ := bind_eq_ok.mp h
  obtain ⟨kid, jwk, hv⟩ := verified_of_verify hlib hverify
  refine ⟨?_, fun keyForKid' later later' hlater => ?_⟩
  · obtain ⟨key, alg, hkey, hsigned, hkind⟩ := hv.signed
    obtain ⟨i, hcall, hreturned⟩ := hkeys kid jwk hv.served
    obtain ⟨hserved, kid', hcall', hkid⟩ := (sourced_run hrun).returned i jwk hreturned
    obtain rfl := (sourced_run hrun).once i kid kid' hcall hcall'
    exact ⟨claims, key, alg, jwk, hv.decoded, hv.issuer, hv.audience, hsigned, hkey, hkind, hkid.trans hv.header.symm,
      hserved⟩
  · obtain ⟨claims', hverify', -⟩ := bind_eq_ok.mp hlater
    obtain ⟨kid', jwk', hv'⟩ := verified_of_verify hlib hverify'
    obtain rfl := Option.some.inj (hv.decoded.symm.trans hv'.decoded)
    have hexp := exp_le_of_checkAge hage
    have hunexpired := hv'.unexpired
    omega

end

/-! ### A token of an hour -/

namespace SignedIn

/-- A call for a key that discovers the provider and fetches its keys. -/
def events : List (Event Bool) :=
  [.callKey true "k", .poll true 0, .poll true 0, .poll true 0, .poll true 0, .poll true 0, .poll true 0,
    .finish 0 (.discovery (.parsed HangUp.document)), .poll true 0, .finish 1 (.jwks (.parsed [Refetch.key])), .poll true 0]

def verifier : OidcVerifier := ⟨HangUp.provider, "https://me/mcp"⟩

/-- What the token says. -/
def claims : Claims := ⟨"https://id/", some 1000, 4600⟩

/-- One token, signed by the served key; keys go by their first coordinate. -/
def tokens : Tokens String where
  claims token := if token = "t" then some claims else none
  audiences _ := ["https://me/mcp"]
  signed token key alg := token = "t" ∧ key = "x" ∧ alg = .es256

/-- Every token carries the header of that one. -/
def lib : Jwt String where
  decodeHeader _ := some ⟨.es256, some "k"⟩
  fromRsaComponents _ _ := none
  fromEcComponents x _ := some x
  decode token key alg audience leeway now :=
    if ¬(token = "t" ∧ key = "x" ∧ alg = .es256) then .error .invalidSignature
    else if audience ∉ ["https://me/mcp"] then .error .invalidAudience
    else if claims.exp < now - leeway then .error .expiredSignature
    else .ok claims

theorem decodes : lib.Decodes tokens := by
  have hdecode : ∀ {token key alg audience leeway now c}, lib.decode token key alg audience leeway now = .ok c →
      (token = "t" ∧ key = "x" ∧ alg = .es256) ∧ audience ∈ ["https://me/mcp"] ∧ now - leeway ≤ claims.exp ∧
        claims = c := by
    intro token key alg audience leeway now c h
    unfold lib at h
    dsimp only at h
    split_ifs at h with hsigned haudience hexp
    exact ⟨hsigned, haudience, not_lt.mp hexp, Except.ok.inj h⟩
  refine ⟨fun h => ?_, fun h => (hdecode h).1, fun h => (hdecode h).2.1, fun h => ?_⟩
  · obtain ⟨⟨rfl, -⟩, -, -, rfl⟩ := hdecode h
    rfl
  · obtain ⟨-, -, hexp, rfl⟩ := hdecode h
    exact hexp

def keyForKid (kid : String) : Except OidcError Jwk := if kid = "k" then .ok Refetch.key else .error (.invalid "unknown kid")

/-- The key that the call returned. -/
def answer (w : World Bool) : Option Jwk :=
  match w.callers true with
  | .returnedKey (.ok jwk) => some jwk
  | _ => none

theorem answer_eq_some {w : World Bool} {jwk : Jwk} (h : answer w = some jwk) : w.callers true = .returnedKey (.ok jwk) := by
  unfold answer at h
  split at h
  · next heq => exact Option.some.inj h ▸ heq
  · cases h

theorem run : ∃ w, Run (Step HangUp.provider) (World.start (secs 100)) events w ∧
    w.callers true = .returnedKey (.ok Refetch.key) := by
  have hruns : (events.foldlM HangUp.apply (World.start (secs 100))).bind answer = some Refetch.key := by decide +kernel
  obtain ⟨w, hw, hanswer⟩ := Option.bind_eq_some_iff.mp hruns
  exact ⟨w, run_of_foldlM (fun _ _ _ => HangUp.step_apply) hw, answer_eq_some hanswer⟩

end SignedIn

open SignedIn in
/-- The token is accepted, and then for no more than an hour and two minutes; a forged one is not. -/
theorem accepted_token_signedIn : ∃ w : World Bool, ∃ jwk, Served HangUp.provider (secs 100) SignedIn.events jwk ∧
    w.callers true = .returnedKey (.ok Refetch.key) ∧ buildDecodingKey SignedIn.lib jwk .es256 = .ok "x" ∧
    SignedIn.verifier.validate SignedIn.lib SignedIn.keyForKid "t" 2000 2000 = .ok () ∧
    SignedIn.verifier.validate SignedIn.lib SignedIn.keyForKid "forged" 2000 2000 ≠ .ok () ∧
    ∀ keyForKid' later later', SignedIn.verifier.validate SignedIn.lib keyForKid' "t" later later' = .ok () →
      later ≤ 2000 + maxTokenAgeSecs + 2 * clockSkewLeewaySecs := by
  obtain ⟨w, hrun, hreturned⟩ := SignedIn.run
  have hvalid : verifier.validate lib keyForKid "t" 2000 2000 = .ok () := by decide +kernel
  have hkeys : ∀ kid jwk, keyForKid kid = .ok jwk →
      ∃ i, Event.callKey i kid ∈ events ∧ w.callers i = .returnedKey (.ok jwk) := by
    intro kid jwk hjwk
    unfold keyForKid at hjwk
    split_ifs at hjwk with hkid
    obtain rfl := Except.ok.inj hjwk
    exact ⟨true, by rw [hkid]; exact List.mem_cons_self, hreturned⟩
  obtain ⟨⟨claims, key, alg, jwk, -, -, -, hsigned, hkey, -, -, hserved⟩, hlater⟩ :=
    accepted_token decodes hrun hkeys hvalid
  obtain ⟨-, rfl, rfl⟩ : "t" = "t" ∧ key = "x" ∧ alg = .es256 := hsigned
  exact ⟨w, jwk, hserved, hreturned, hkey, hvalid, by decide +kernel, hlater⟩

end Alaya.Oidc
