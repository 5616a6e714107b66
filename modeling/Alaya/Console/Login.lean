import Alaya.Console.Sessions
import Alaya.Oidc.Accept
import Alaya.Types.Citation

/-!
# Who gets a session of the console

A login draws a state and a nonce and keeps them in an encrypted cookie; the callback that comes back with the state
spends it, exchanges the code and mints a session from the ID token.  Any number of browsers log in side by side, anyone
may send any issued cookie with any code and state as often as they like, and the token endpoint answers any tokens.
Random tokens do not repeat.

Every session belongs to a listed subject, whose token was verified and carries the nonce of the login whose cookie came
back; no login and no token is worth a second session (`sessions_minted`).
-/

namespace Alaya.Console.Login

open Labelled Oidc

def loginTtlSecs : ℤ := 600

def sessionTtlSecs : ℤ := 12 * 3600

def maxNextBytes : ℕ := 512

def maxClaimBytes : ℕ := 255

/-! ### The redirect after a login -/

/-- `u8::is_ascii_graphic`. -/
def isAsciiGraphic (c : Char) : Bool := decide ('!' ≤ c) && decide (c ≤ '~')

def safeNext (next : String) : String :=
  if utf8Len next.toList ≤ maxNextBytes ∧ ['/'] <+: next.toList ∧ ¬ ['/', '/'] <+: next.toList ∧
      next.toList.all fun c => isAsciiGraphic c && c != '\\' then next
  else "/"

/-- A path that a browser keeps to its own site, whatever it strips or turns around. -/
structure OnSite (next : String) : Prop where
  path : ∃ rest, next.toList = '/' :: rest ∧ ∀ c ∈ rest.head?, c ≠ '/' ∧ c ≠ '\\'
  graphic : ∀ c ∈ next.toList, isAsciiGraphic c = true ∧ c ≠ '\\'
  few : utf8Len next.toList ≤ maxNextBytes

theorem onSite_safeNext (next : String) : OnSite (safeNext next) := by
  unfold safeNext
  split_ifs with h
  · obtain ⟨hfew, ⟨rest, hpath⟩, hdouble, hall⟩ := h
    have hgraphic : ∀ c ∈ next.toList, isAsciiGraphic c = true ∧ c ≠ '\\' := by
      intro c hc
      simpa using List.all_eq_true.mp hall c hc
    refine ⟨⟨rest, hpath.symm, fun c hc => ⟨?_, ?_⟩⟩, hgraphic, hfew⟩
    · rintro rfl
      obtain ⟨rest', rfl⟩ := List.head?_eq_some_iff.mp hc
      exact hdouble ⟨rest', hpath⟩
    · obtain ⟨rest', rfl⟩ := List.head?_eq_some_iff.mp hc
      exact (hgraphic c (by rw [← hpath]; exact List.mem_cons_of_mem _ List.mem_cons_self)).2
  · exact ⟨⟨[], rfl, nofun⟩, List.forall_mem_singleton.mpr ⟨rfl, by decide⟩, by decide⟩

/-- A path that was found safe is led on to as it is. -/
theorem safeNext_of_onSite {next : String} (h : OnSite next) : safeNext next = next := by
  obtain ⟨⟨rest, hpath, hhead⟩, hgraphic, hfew⟩ := h
  refine if_pos ⟨hfew, ⟨rest, hpath.symm⟩, ?_, ?_⟩
  · rintro ⟨rest', hdouble⟩
    obtain rfl : '/' :: rest' = rest := (List.cons.inj (hdouble.trans hpath)).2
    exact (hhead '/' rfl).1 rfl
  · refine List.all_eq_true.mpr fun c hc => ?_
    simpa using hgraphic c hc

/-! ### The identity -/

/-- What the login cookie holds. -/
structure Flow where
  state : String
  nonce : String
  pkceVerifier : String
  next : String
  exp : ℤ
  deriving DecidableEq

def newLoginState (state nonce pkceVerifier next : String) (now : ℤ) : Flow :=
  ⟨state, nonce, pkceVerifier, next, now + loginTtlSecs⟩

structure IdClaims where
  sub : String
  nonce : Option String
  email : Option String
  name : Option String
  preferredUsername : Option String

/-- The relying party: its provider, and what the library reads of the identity in a token it decodes. -/
structure OidcRp (Key : Type) where
  provider : Oidc.Provider
  clientId : String
  lib : Jwt Key
  idClaims : String → Option IdClaims
  allowedSubjects : List String

/-- A session, with what it shows of its operator. -/
structure Profile where
  session : Session
  sub : String
  email : Option String
  name : Option String
  deriving DecidableEq

/-- A fresh session, with two readings of the clock. -/
def sessionFor (claims : IdClaims) (sid csrf : String) (now seenAt : ℤ) : Profile where
  session := ⟨sid, csrf, now + sessionTtlSecs, seenAt⟩
  sub := claims.sub
  email := claims.email
  name := claims.name.or claims.preferredUsername

def claimWithinBound (s : String) : Bool := utf8Len s.toList ≤ maxClaimBytes

namespace OidcRp

variable {Key : Type} (rp : OidcRp Key) (keyForKid : String → Except OidcError Jwk)

def subjectAllowed (sub : String) : Bool := rp.allowedSubjects.any (· = sub)

def verifyIdToken (token : String) (now : ℕ) : Except OidcError IdClaims := do
  let _ ← rp.provider.verify rp.lib keyForKid token rp.clientId now
  let claims ← need (rp.idClaims token) "invalid token"
  if claimWithinBound claims.sub then
    return { claims with
      email := claims.email.filter claimWithinBound
      name := claims.name.filter claimWithinBound
      preferredUsername := claims.preferredUsername.filter claimWithinBound }
  else .error (.invalid "sub exceeds the OIDC Core §2 ceiling")

/-- The end of an exchange, once the token endpoint has answered an ID token. -/
def exchangeAndVerify (token expectedNonce : String) (now : ℕ) : Except OidcError IdClaims := do
  let claims ← rp.verifyIdToken keyForKid token now
  if claims.nonce = some expectedNonce then return claims else .error (.invalid "nonce mismatch")

variable {rp keyForKid} {token nonce : String} {now : ℕ} {claims : IdClaims}

/-- **What an exchange that goes through has shown.** -/
theorem shown_of_exchange (h : rp.exchangeAndVerify keyForKid token nonce now = .ok claims) :
    (∃ said, rp.provider.verify rp.lib keyForKid token rp.clientId now = .ok said) ∧
      (∃ read, rp.idClaims token = some read ∧ read.sub = claims.sub ∧ read.nonce = some nonce) ∧
      utf8Len claims.sub.toList ≤ maxClaimBytes := by
  obtain ⟨checked, hchecked, h⟩ := bind_eq_ok.mp h
  split_ifs at h with hnonce
  obtain rfl := Except.ok.inj h
  obtain ⟨said, hsaid, hchecked⟩ := bind_eq_ok.mp hchecked
  obtain ⟨read, hread, hchecked⟩ := bind_eq_ok.mp hchecked
  split_ifs at hchecked with hbound
  obtain rfl := Except.ok.inj hchecked
  exact ⟨⟨said, hsaid⟩, ⟨read, need_eq_ok.mp hread, rfl, hnonce⟩, of_decide_eq_true hbound⟩

end OidcRp

/-! ### Logins side by side -/

/-- A session that was minted, of which login and from which token. -/
structure Mint where
  flow : Flow
  token : String
  profile : Profile
  deriving DecidableEq

/-- The console, with the random tokens drawn so far, the logins it issued a cookie for, the callbacks that wait for the
token endpoint, the logins whose code was exchanged and the sessions minted, the newest first. -/
structure World where
  now : ℤ
  drawn : List String
  flows : List Flow
  consumedLogins : ConsumedLogins
  exchanging : List (Flow × String)
  asked : List Flow
  minted : List Mint

namespace World

def start (now : ℤ) : World := ⟨now, [], [], ∅, [], [], []⟩

/-- A callback up to the exchange.  It reads its cookie at one reading of the clock and spends the state at another. -/
def callback (w : World) (flow : Flow) (code cbState : String) (readAt : ℤ) : World :=
  match readLogin ⟨flow.state, flow.exp⟩ readAt with
  | none => w
  | some login =>
    if login.state ≠ cbState then w
    else
      let spent := spendLogin w.consumedLogins login.state login.exp w.now
      if spent.1 then
        { w with consumedLogins := spent.2, exchanging := (flow, code) :: w.exchanging, asked := flow :: w.asked }
      else { w with consumedLogins := spent.2 }

/-- A callback that ends without a session. -/
def abandon (w : World) (flow : Flow) (code : String) : World :=
  { w with exchanging := w.exchanging.erase (flow, code) }

/-- The rest of a callback, with the ID token that its exchange answered. -/
def finish {Key : Type} (w : World) (rp : OidcRp Key) (flow : Flow) (code token sid csrf : String)
    (keyForKid : String → Except OidcError Jwk) (now : ℕ) (seenAt : ℤ) : World :=
  match rp.exchangeAndVerify keyForKid token flow.nonce now with
  | .error _ => w.abandon flow code
  | .ok claims =>
    if rp.subjectAllowed claims.sub then
      { w.abandon flow code with
        drawn := [sid, csrf] ++ w.drawn
        minted := ⟨flow, token, sessionFor claims sid csrf w.now seenAt⟩ :: w.minted }
    else w.abandon flow code

end World

inductive Event where
  | tick (dt : ℕ)
  | login (next state nonce pkceVerifier : String)
  | callback (flow : Flow) (code cbState : String) (readAt : ℤ)
  | answered (flow : Flow) (code token sid csrf : String) (keyForKid : String → Except OidcError Jwk) (now : ℕ)
      (seenAt : ℤ)
  | failed (flow : Flow) (code : String)

variable {Key : Type}

/-- What the console does next; `serves` are the keys that its provider hands out, each under a `kid`. -/
inductive Step (rp : OidcRp Key) (serves : String → Jwk → Prop) : World → Event → World → Prop
  | tick {w : World} (dt : ℕ) : Step rp serves w (.tick dt) { w with now := w.now + dt }
  | login {w : World} {state nonce pkceVerifier : String} (next : String) :
      ([state, nonce, pkceVerifier] ++ w.drawn).Nodup →
      Step rp serves w (.login next state nonce pkceVerifier) { w with
        drawn := [state, nonce, pkceVerifier] ++ w.drawn
        flows := newLoginState state nonce pkceVerifier (safeNext next) w.now :: w.flows }
  -- The cookie is authenticated, so it is one the console issued, in whatever hands it is now.
  | callback {w : World} {flow : Flow} {readAt : ℤ} (code cbState : String) : flow ∈ w.flows → readAt ≤ w.now →
      Step rp serves w (.callback flow code cbState readAt) (w.callback flow code cbState readAt)
  | answered {w : World} {flow : Flow} {code : String} (token sid csrf : String)
      (keyForKid : String → Except OidcError Jwk) (now : ℕ) (seenAt : ℤ) :
      (flow, code) ∈ w.exchanging → ([sid, csrf] ++ w.drawn).Nodup → w.now ≤ seenAt →
      (∀ kid jwk, keyForKid kid = .ok jwk → serves kid jwk) →
      Step rp serves w (.answered flow code token sid csrf keyForKid now seenAt)
        (w.finish rp flow code token sid csrf keyForKid now seenAt)
  | failed {w : World} {flow : Flow} {code : String} : (flow, code) ∈ w.exchanging →
      Step rp serves w (.failed flow code) (w.abandon flow code)

/-! ### The account -/

section

variable {consumed : ConsumedLogins} {state : String} {exp now : ℤ}

/-- Spending a state loses no other that has not expired. -/
theorem spendLogin_keeps {e : ℤ} {s : String} (h : toLex (e, s) ∈ consumed ∨ e ≤ now) :
    toLex (e, s) ∈ (spendLogin consumed state exp now).2 ∨ e ≤ now := by
  rcases h with h | h
  · unfold spendLogin
    split_ifs with hexpired
    · exact .inl h
    · by_cases hlive : now < e
      · exact .inl (Finset.mem_insert_of_mem (mem_popExpired.mpr ⟨h, hlive⟩))
      · exact .inr (not_lt.mp hlive)
  · exact .inr h

/-- A state that is spent has not expired, and was not spent before. -/
theorem spendLogin_fresh (h : (spendLogin consumed state exp now).1 = true) :
    ¬ (toLex (exp, state) ∈ consumed ∨ exp ≤ now) ∧ toLex (exp, state) ∈ (spendLogin consumed state exp now).2 := by
  unfold spendLogin at h ⊢
  split_ifs at h ⊢ with hexpired
  have hfresh : toLex (exp, state) ∉ popExpired consumed now := of_decide_eq_true h
  refine ⟨fun hold => ?_, Finset.mem_insert_self _ _⟩
  rcases hold with hin | hle
  · exact hfresh (mem_popExpired.mpr ⟨hin, not_le.mp hexpired⟩)
  · exact hexpired hle

end

/-- What a session was minted from. -/
def Mint.Earned (rp : OidcRp Key) (serves : String → Jwk → Prop) (m : Mint) : Prop :=
  ∃ keyForKid now claims sid csrf mintedAt seenAt, (∀ kid jwk, keyForKid kid = .ok jwk → serves kid jwk) ∧
    rp.exchangeAndVerify keyForKid m.token m.flow.nonce now = .ok claims ∧
      rp.subjectAllowed claims.sub = true ∧ m.profile = sessionFor claims sid csrf mintedAt seenAt

/-- The logins a session was minted for, and those that wait for their token. -/
def World.claimed (w : World) : List Flow := w.minted.map Mint.flow ++ w.exchanging.map Prod.fst

/-- **Each login is exchanged at most once, and each exchange mints at most one session.** -/
structure Accounted (rp : OidcRp Key) (serves : String → Jwk → Prop) (w : World) : Prop where
  onSite : ∀ f ∈ w.flows, OnSite f.next
  drawn : ∀ f ∈ w.flows, f.nonce ∈ w.drawn
  nonces : w.flows.Pairwise fun f g => f.nonce ≠ g.nonce
  issued : ∀ f ∈ w.asked, f ∈ w.flows
  spent : ∀ f ∈ w.asked, toLex (f.exp, f.state) ∈ w.consumedLogins ∨ f.exp ≤ w.now
  once : w.asked.Nodup
  claimed : w.claimed.Nodup
  asked : ∀ f ∈ w.claimed, f ∈ w.asked
  earned : ∀ m ∈ w.minted, m.Earned rp serves
  sids : (w.minted.map fun m => m.profile.session.sid).Nodup
  sidDrawn : ∀ m ∈ w.minted, m.profile.session.sid ∈ w.drawn

section

variable {rp : OidcRp Key} {serves : String → Jwk → Prop} {w w' : World} {e : Event} {flow : Flow} {code : String}

theorem accounted_start (now : ℤ) : Accounted rp serves (.start now) :=
  ⟨nofun, nofun, .nil, nofun, nofun, .nil, .nil, nofun, nofun, .nil, nofun⟩

/-- The logins left when one of them ends. -/
theorem claimed_erase (hwaits : (flow, code) ∈ w.exchanging) :
    (flow :: (w.abandon flow code).claimed).Perm w.claimed := by
  have hperm : w.exchanging.Perm ((flow, code) :: w.exchanging.erase (flow, code)) := List.perm_cons_erase hwaits
  exact List.perm_middle.symm.trans ((hperm.map Prod.fst).symm.append_left _)

theorem Accounted.abandon (h : Accounted rp serves w) (hwaits : (flow, code) ∈ w.exchanging) :
    Accounted rp serves (w.abandon flow code) := by
  have hperm := claimed_erase hwaits
  exact { h with
    claimed := (List.nodup_cons.mp (hperm.nodup_iff.mpr h.claimed)).2
    asked := fun f hf => h.asked f (hperm.mem_iff.mp (List.mem_cons_of_mem _ hf)) }

/-- A login is issued with a nonce of its own. -/
theorem Accounted.login (h : Accounted rp serves w) {state nonce pkceVerifier : String} (next : String)
    (hfresh : ([state, nonce, pkceVerifier] ++ w.drawn).Nodup) : Accounted rp serves { w with
      drawn := [state, nonce, pkceVerifier] ++ w.drawn
      flows := newLoginState state nonce pkceVerifier (safeNext next) w.now :: w.flows } := by
  have hnew : nonce ∉ w.drawn := fun hin =>
    (List.nodup_append.mp hfresh).2.2 nonce (List.mem_cons_of_mem _ List.mem_cons_self) nonce hin rfl
  exact { h with
    onSite := List.forall_mem_cons.mpr ⟨onSite_safeNext next, h.onSite⟩
    drawn := List.forall_mem_cons.mpr ⟨List.mem_cons_of_mem _ List.mem_cons_self,
      fun f hf => List.mem_append_right _ (h.drawn f hf)⟩
    nonces := List.pairwise_cons.mpr ⟨fun f hf (heq : nonce = f.nonce) => hnew (heq ▸ h.drawn f hf), h.nonces⟩
    issued := fun f hf => List.mem_cons_of_mem _ (h.issued f hf)
    sidDrawn := fun m hm => List.mem_append_right _ (h.sidDrawn m hm) }

/-- **A callback exchanges the code of a login that no other exchanged.** -/
theorem Accounted.callback (h : Accounted rp serves w) (hissued : flow ∈ w.flows) (code cbState : String) (readAt : ℤ) :
    Accounted rp serves (w.callback flow code cbState readAt) := by
  unfold World.callback
  split
  · exact h
  · next login hread =>
    obtain ⟨rfl, -⟩ := readLogin_eq_some hread
    have hspent : ∀ f ∈ w.asked,
        toLex (f.exp, f.state) ∈ (spendLogin w.consumedLogins flow.state flow.exp w.now).2 ∨ f.exp ≤ w.now :=
      fun f hf => spendLogin_keeps (h.spent f hf)
    dsimp only
    split_ifs with hstate hfresh
    · exact h
    · obtain ⟨hnot, hin⟩ := spendLogin_fresh hfresh
      have hnew : flow ∉ w.asked := fun hasked => hnot (h.spent flow hasked)
      have hmiddle : (w.minted.map Mint.flow ++ flow :: w.exchanging.map Prod.fst).Perm (flow :: w.claimed) :=
        List.perm_middle
      exact { h with
        issued := List.forall_mem_cons.mpr ⟨hissued, h.issued⟩
        spent := List.forall_mem_cons.mpr ⟨.inl hin, hspent⟩
        once := List.nodup_cons.mpr ⟨hnew, h.once⟩
        claimed := hmiddle.nodup_iff.mpr (List.nodup_cons.mpr ⟨fun hf => hnew (h.asked flow hf), h.claimed⟩)
        asked := fun f hf => (List.mem_cons.mp (hmiddle.mem_iff.mp hf)).elim (fun heq => heq ▸ List.mem_cons_self)
          fun hf => List.mem_cons_of_mem _ (h.asked f hf) }
    · exact { h with spent := hspent }

theorem Accounted.finish (h : Accounted rp serves w) (hwaits : (flow, code) ∈ w.exchanging) {sid csrf : String}
    (token : String) (keyForKid : String → Except OidcError Jwk) (now : ℕ) (seenAt : ℤ)
    (hfresh : ([sid, csrf] ++ w.drawn).Nodup) (hserved : ∀ kid jwk, keyForKid kid = .ok jwk → serves kid jwk) :
    Accounted rp serves (w.finish rp flow code token sid csrf keyForKid now seenAt) := by
  have hleft := h.abandon hwaits
  unfold World.finish
  split
  · exact hleft
  · next claims hverified =>
    split_ifs with hallowed
    · have hperm := claimed_erase hwaits
      have hnew : ∀ m ∈ w.minted, m.profile.session.sid ≠ sid := fun m hm heq =>
        (List.nodup_append.mp hfresh).2.2 sid List.mem_cons_self sid (heq ▸ h.sidDrawn m hm) rfl
      have hsidNew : sid ∉ w.minted.map fun m => m.profile.session.sid := by
        intro hin
        obtain ⟨m, hm, heq⟩ := List.mem_map.mp hin
        exact hnew m hm heq
      exact { hleft with
        drawn := fun f hf => List.mem_append_right _ (h.drawn f hf)
        claimed := hperm.nodup_iff.mpr h.claimed
        asked := fun f hf => h.asked f (hperm.mem_iff.mp hf)
        earned := List.forall_mem_cons.mpr
          ⟨⟨keyForKid, now, claims, sid, csrf, w.now, seenAt, hserved, hverified, hallowed, rfl⟩, h.earned⟩
        sids := List.nodup_cons.mpr ⟨hsidNew, h.sids⟩
        sidDrawn := List.forall_mem_cons.mpr ⟨List.mem_cons_self,
          fun m hm => List.mem_append_right _ (h.sidDrawn m hm)⟩ }
    · exact hleft

theorem accounted_step (h : Accounted rp serves w) (hstep : Step rp serves w e w') : Accounted rp serves w' := by
  cases hstep with
  | tick dt => exact { h with spent := fun f hf => (h.spent f hf).imp_right fun hle => hle.trans (by simp) }
  | login next hfresh => exact h.login next hfresh
  | callback code cbState hissued _ => exact h.callback hissued code cbState _
  | answered token sid csrf keyForKid now seenAt hwaits hfresh _ hserved =>
    exact h.finish hwaits token keyForKid now seenAt hfresh hserved
  | failed hwaits => exact h.abandon hwaits

theorem accounted_run {now : ℤ} {tr : List Event} (hrun : Run (Step rp serves) (.start now) tr w) :
    Accounted rp serves w :=
  hrun.preserves (Accounted rp serves) (accounted_start now) fun _ _ _ h hstep => accounted_step h hstep

/-- A token names the nonce of one login. -/
theorem Accounted.tokens (h : Accounted rp serves w) : (w.minted.map Mint.token).Nodup := by
  have hflows : (w.minted.map Mint.flow).Nodup := (List.nodup_append.mp h.claimed).1
  have hissued : ∀ m ∈ w.minted, m.flow ∈ w.flows := fun m hm =>
    h.issued _ (h.asked _ (List.mem_append_left _ (List.mem_map.mpr ⟨m, hm, rfl⟩)))
  refine List.pairwise_map.mpr ((List.pairwise_map.mp hflows).imp_of_mem fun {a b} ha hb hne htoken => hne ?_)
  have hnonce : ∀ m ∈ w.minted, ((rp.idClaims m.token).bind IdClaims.nonce) = some m.flow.nonce := by
    intro m hm
    obtain ⟨keyForKid, now, claims, sid, csrf, mintedAt, seenAt, -, hverified, -, -⟩ := h.earned m hm
    obtain ⟨-, ⟨read, hread, -, hnonce⟩, -⟩ := OidcRp.shown_of_exchange hverified
    rw [hread]
    exact hnonce
  have hsame : a.flow.nonce = b.flow.nonce := by
    have ha' := hnonce a ha
    rw [htoken, hnonce b hb] at ha'
    exact (Option.some.inj ha').symm
  by_contra hflow
  have : Std.Symm fun f g : Flow => f.nonce ≠ g.nonce := ⟨fun _ _ => Ne.symm⟩
  exact h.nonces.forall (hissued a ha) (hissued b hb) hflow hsame

/-- **Who gets a session.**  However callbacks run side by side and whatever cookies, codes, states and tokens they are
given: a session belongs to a listed subject whose token was verified under a key of the provider and carries the nonce of
a login the console issued, and leads on to a path of its own site; each login is exchanged at most once; and no two
sessions have one login, one token or one session id. -/
theorem sessions_minted {tokens : Tokens Key} (hlib : rp.lib.Decodes tokens) {now : ℤ} {tr : List Event}
    (hrun : Run (Step rp serves) (.start now) tr w) :
    (∀ m ∈ w.minted, m.flow ∈ w.flows ∧ OnSite m.flow.next ∧ safeNext m.flow.next = m.flow.next ∧
      m.profile.sub ∈ rp.allowedSubjects ∧ utf8Len m.profile.sub.toList ≤ maxClaimBytes ∧
      (∃ keyForKid at' said kid jwk, serves kid jwk ∧
        Verified rp.lib tokens rp.provider keyForKid m.token rp.clientId at' said kid jwk) ∧
      ∃ read, rp.idClaims m.token = some read ∧ read.sub = m.profile.sub ∧ read.nonce = some m.flow.nonce) ∧
    w.asked.Nodup ∧ (w.minted.map Mint.flow).Nodup ∧ (w.minted.map Mint.token).Nodup ∧
    (w.minted.map fun m => m.profile.session.sid).Nodup := by
  have h := accounted_run hrun
  refine ⟨fun m hm => ?_, h.once, (List.nodup_append.mp h.claimed).1, h.tokens, h.sids⟩
  have hissued : m.flow ∈ w.flows := h.issued _ (h.asked _ (List.mem_append_left _ (List.mem_map.mpr ⟨m, hm, rfl⟩)))
  obtain ⟨keyForKid, at', claims, sid, csrf, mintedAt, seenAt, hserved, hverified, hallowed, hprofile⟩ := h.earned m hm
  obtain ⟨⟨said, hsaid⟩, ⟨read, hread, hsub, hnonce⟩, hbound⟩ := OidcRp.shown_of_exchange hverified
  obtain ⟨kid, jwk, hsigned⟩ := verified_of_verify hlib hsaid
  obtain ⟨sub, hlisted, hsame⟩ := List.any_eq_true.mp hallowed
  obtain rfl : sub = claims.sub := of_decide_eq_true hsame
  rw [hprofile]
  exact ⟨hissued, h.onSite _ hissued, safeNext_of_onSite (h.onSite _ hissued), hlisted, hbound,
    ⟨keyForKid, at', said, kid, jwk, hserved _ _ hsigned.served, hsigned⟩, read, hread, hsub, hnonce⟩

end

/-! ### A login -/

namespace SignedOn

/-- A console that lists one subject, and whose identity provider has signed one token. -/
def rp : OidcRp String where
  provider := HangUp.provider
  clientId := "https://me/mcp"
  lib := SignedIn.lib
  idClaims _ := some ⟨"ana", some "n", none, none, none⟩
  allowedSubjects := ["ana"]

/-- The one key of the provider. -/
def serves (kid : String) (jwk : Jwk) : Prop := kid = "k" ∧ jwk = Refetch.key

/-- The login of a browser. -/
def flow : Flow := ⟨"s", "n", "v", "/lb", 600⟩

def events : List Event :=
  [.login "/lb" "s" "n" "v", .callback flow "c" "s" 0, .answered flow "c" "t" "i" "x" SignedIn.keyForKid 2000 0]

/-- What is minted. -/
def mint : Mint := ⟨flow, "t", ⟨⟨"i", "x", 43200, 0⟩, "ana", none, none⟩⟩

theorem run : ∃ w, Run (Step rp serves) (.start 0) events w ∧ w.minted = [mint] := by
  have hlogin : Run (Step rp serves) (.start 0) [.login "/lb" "s" "n" "v"] ⟨0, ["s", "n", "v"], [flow], ∅, [], [], []⟩ :=
    Run.single (.login "/lb" (by decide))
  have hback := hlogin.step (.callback "c" "s" List.mem_cons_self (le_refl (0 : ℤ)))
  have hwaits : (World.callback ⟨0, ["s", "n", "v"], [flow], ∅, [], [], []⟩ flow "c" "s" 0).exchanging =
      [(flow, "c")] := by
    decide +kernel
  have hserved : ∀ kid jwk, SignedIn.keyForKid kid = .ok jwk → serves kid jwk := by
    intro kid jwk hjwk
    unfold SignedIn.keyForKid at hjwk
    split_ifs at hjwk with hkid
    exact ⟨hkid, (Except.ok.inj hjwk).symm⟩
  have hanswered := hback.step (.answered "t" "i" "x" SignedIn.keyForKid 2000 0
    (by rw [hwaits]; exact List.mem_cons_self) (by decide +kernel) (by decide +kernel) hserved)
  exact ⟨_, hanswered, by decide +kernel⟩

end SignedOn

open SignedOn in
/-- One session, of the listed subject. -/
theorem sessions_minted_signedOn : ∃ w, Run (Step rp serves) (.start 0) events w ∧ w.minted = [mint] ∧
    mint.flow ∈ w.flows ∧ mint.profile.sub ∈ rp.allowedSubjects ∧ OnSite mint.flow.next := by
  obtain ⟨w, hrun, hminted⟩ := SignedOn.run
  have hmem : mint ∈ w.minted := by rw [hminted]; exact List.mem_cons_self
  obtain ⟨hissued, honSite, -, hlisted, -⟩ := (sessions_minted SignedIn.decodes hrun).1 mint hmem
  exact ⟨w, hrun, hminted, hissued, hlisted, honSite⟩

end Alaya.Console.Login
