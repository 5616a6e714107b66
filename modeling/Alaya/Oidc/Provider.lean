import Alaya.Lib.Run
import Mathlib.Algebra.Order.Ring.Nat
import Mathlib.Data.List.Basic
import Mathlib.Logic.Function.Basic

/-!
# An OIDC provider

Discovery and the keys are fetched on first use, each behind a gate of its own: one fetch at a time, and none within
the cooldown of the last.  A fetch runs detached from the call that started it and takes the gate along, so a call may
be dropped at any of its awaits.  A call for a key holds the key gate while it runs discovery.

A step is what runs between two awaits, so the lock acquired, the cooldown armed and the fetch spawned are one step.
`Instant`s and `Duration`s are nanoseconds; how a URL is parsed is a parameter.
-/

namespace Alaya.Oidc

/-- The `Duration::from_secs` of `s`. -/
def secs (s : ℕ) : ℕ := s * 10 ^ 9

def jwksCooldown : ℕ := secs 30

def discoveryCooldown : ℕ := jwksCooldown - secs 1

/-! ### Errors -/

/-- Why a provider failed; what a document said is kept. -/
inductive Cause where
  | transport
  | status (code : ℕ)
  | tooLarge
  | parse
  | document (value : String)
  | missing
  | cooldown
  deriving DecidableEq

inductive OidcError where
  | invalid (op : String)
  | provider (op : String) (cause : Cause)
  deriving DecidableEq

/-- The reasons one fetch can fail with, in pipeline order. -/
structure FetchOps where
  send : String
  status : String
  read : String
  parse : String

def discoveryOps : FetchOps := ⟨"discovery failed", "discovery status", "discovery read", "discovery parse"⟩

def jwksOps : FetchOps := ⟨"jwks fetch failed", "jwks status", "jwks read", "jwks parse"⟩

/-- How an endpoint answers one request. -/
inductive Answer (α : Type) where
  | unsent
  | refused (status : ℕ)
  /-- The connection broke off in the body. -/
  | brokeOff
  /-- The body ran past the cap. -/
  | tooLarge
  | unparsed
  | parsed (body : α)

/-- `fetch_json`. -/
def fetchJson {α : Type} (ops : FetchOps) : Answer α → Except OidcError α
  | .unsent => .error (.provider ops.send .transport)
  | .refused status => .error (.provider ops.status (.status status))
  | .brokeOff => .error (.provider ops.read .transport)
  | .tooLarge => .error (.provider ops.read .tooLarge)
  | .unparsed => .error (.provider ops.parse .parse)
  | .parsed body => .ok body

/-! ### The rules of a discovery document -/

structure Discovery where
  issuer : String
  jwksUri : String
  authorizationEndpoint : Option String
  tokenEndpoint : Option String
  deriving DecidableEq

structure Jwk where
  kty : String
  kid : Option String
  n : Option String
  e : Option String
  x : Option String
  y : Option String
  deriving DecidableEq

/-- What is read of a parsed URL. -/
structure Url where
  scheme : String
  host : Option String
  port : Option ℕ
  fragment : Option String

/-- A decimal byte, without leading zeros. -/
def parseOctet (cs : List Char) : Option ℕ :=
  if cs = [] ∨ 3 < cs.length ∨ (cs.head? = some '0' ∧ cs ≠ ['0']) ∨ ¬cs.all Char.isDigit then none
  else
    let value := cs.foldl (fun n c => 10 * n + (c.toNat - 48)) 0
    if value < 256 then some value else none

def parseIpv4 (cs : List Char) : Option (List ℕ) :=
  let parts := cs.splitOn '.'
  if parts.length = 4 then parts.mapM parseOctet else none

def hexDigit (c : Char) : Option ℕ :=
  if c.isDigit then some (c.toNat - 48)
  else if 'a' ≤ c ∧ c ≤ 'f' then some (c.toNat - 87)
  else if 'A' ≤ c ∧ c ≤ 'F' then some (c.toNat - 55)
  else none

/-- One to four hex digits. -/
def parseGroup (cs : List Char) : Option ℕ :=
  if cs = [] ∨ 4 < cs.length then none
  else (cs.mapM hexDigit).map fun digits => digits.foldl (fun n d => 16 * n + d) 0

/-- The groups between colons; the last may be an IPv4 address, of two groups. -/
def parseGroups (ipv4 : Bool) (cs : List Char) : Option (List ℕ) :=
  if cs = [] then some []
  else
    let parts := cs.splitOn ':'
    match parts.mapM parseGroup with
    | some groups => some groups
    | none =>
      if !ipv4 then none
      else
        (parts.dropLast.mapM parseGroup).bind fun groups => (parts.getLast?.bind parseIpv4).bind fun octets =>
          match octets with
          | [a, b, c, d] => some (groups ++ [256 * a + b, 256 * c + d])
          | _ => none

/-- What stands before and after the first `::`. -/
def cutDoubleColon : List Char → Option (List Char × List Char)
  | ':' :: ':' :: rest => some ([], rest)
  | c :: rest => (cutDoubleColon rest).map fun p => (c :: p.1, p.2)
  | [] => none

/-- Eight groups, or fewer around a `::` that stands for the zeros between. -/
def parseIpv6 (cs : List Char) : Option (List ℕ) :=
  match cutDoubleColon cs with
  | none => (parseGroups true cs).filter fun groups => groups.length = 8
  | some (before, after) =>
    (parseGroups false before).bind fun head => (parseGroups true after).bind fun tail =>
      if head.length + tail.length ≤ 7 then
        some (head ++ List.replicate (8 - head.length - tail.length) 0 ++ tail)
      else none

/-- `IpAddr::is_loopback` of a text that is one. -/
def isLoopbackIp (host : String) : Bool :=
  match parseIpv4 host.toList with
  | some octets => octets.head? = some 127
  | none => parseIpv6 host.toList = some [0, 0, 0, 0, 0, 0, 0, 1]

/-- Strip a single trailing slash. -/
def normalizeIssuer (s : String) : String :=
  if s.toList.getLast? = some '/' then String.ofList s.toList.dropLast else s

/-- The brackets of an IPv6 literal are stripped together. -/
def bareHost (host : String) : String :=
  if host.toList.head? = some '[' ∧ host.toList.tail.getLast? = some ']' then
    String.ofList host.toList.tail.dropLast
  else host

abbrev Origin := String × String × ℕ

def originOf (parse : String → Option Url) (url : String) : Option Origin := do
  let parsed ← parse url
  let defaultPort ← if parsed.scheme = "https" then some 443 else if parsed.scheme = "http" then some 80 else none
  let host ← parsed.host
  return (parsed.scheme, (bareHost host).map Char.toLower, parsed.port.getD defaultPort)

def isLoopbackOrigin (origin : Origin) : Bool := origin.2.1 = "localhost" || isLoopbackIp origin.2.1

def sameOriginHttps (parse : String → Option Url) (issuer endpoint : String) : Except OidcError Unit :=
  let sameOrigin := match originOf parse issuer, originOf parse endpoint with
    | some issuerOrigin, some epOrigin =>
      (epOrigin.1 = "https" || (isLoopbackOrigin issuerOrigin && epOrigin.1 = "http")) && epOrigin = issuerOrigin
    | _, _ => false
  if sameOrigin then .ok () else .error (.invalid "endpoint not same-origin with issuer")

/-- A provider: the URLs it parses, its normalised issuer and its role. -/
structure Provider where
  parse : String → Option Url
  issuer : String
  relyingParty : Bool

namespace Provider

variable (p : Provider)

/-- One endpoint a relying party needs. -/
def checkEndpoint (missing offOrigin : String) (endpoint : Option String) : Except OidcError Unit :=
  match endpoint with
  | none => .error (.provider missing .missing)
  | some endpoint =>
    match sameOriginHttps p.parse p.issuer endpoint with
    | .error _ => .error (.provider offOrigin (.document endpoint))
    | .ok () => .ok ()

def checkRpEndpoints (disc : Discovery) : Except OidcError Unit := do
  p.checkEndpoint "discovery missing authorization_endpoint" "authorization_endpoint not same-origin"
    disc.authorizationEndpoint
  p.checkEndpoint "discovery missing token_endpoint" "token_endpoint not same-origin" disc.tokenEndpoint
  match disc.authorizationEndpoint with
  | none => return ()
  | some endpoint =>
    if (p.parse endpoint).any fun url => url.fragment.isSome then
      .error (.provider "authorization_endpoint has a fragment" (.document endpoint))
    else return ()

/-- `fetch_discovery` of the document an endpoint answered. -/
def checkDiscovery (disc : Discovery) : Except OidcError Discovery :=
  if normalizeIssuer disc.issuer ≠ p.issuer then
    .error (.provider "discovery issuer mismatch" (.document disc.issuer))
  else match sameOriginHttps p.parse p.issuer disc.jwksUri with
    | .error _ => .error (.provider "jwks_uri not same-origin" (.document disc.jwksUri))
    | .ok () =>
      if p.relyingParty then (p.checkRpEndpoints disc).map fun _ => disc else .ok disc

def fetchDiscovery (answer : Answer Discovery) : Except OidcError Discovery :=
  (fetchJson discoveryOps answer).bind p.checkDiscovery

end Provider

/-- Keys by their `kid`; of two with one, the last. -/
def keyMap (keys : List Jwk) (kid : String) : Option Jwk := keys.reverse.find? fun jwk => jwk.kid = some kid

end Alaya.Oidc
