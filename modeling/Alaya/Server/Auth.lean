import Alaya.Types.Citation
import Alaya.Lib.Words
import Alaya.Oidc.Provider
import Mathlib.Data.List.DropRight

/-!
# Who may run what

A request on a protected route carries a bearer token, which resolves to a principal, and the principal's allowlist is
asked for the operation of the route.  The operation is read off the raw path by prefixes and suffixes, apart from the
router, which matches segments: whatever the router dispatches, the operation asked for is the handler's own or the one
no allowlist has (`gated_as_dispatched`).
-/

namespace Alaya

/-! ### Principals -/

/-- Read and additive operations of an OIDC principal. -/
def oidcAllowlist : List String :=
  ["search", "get_memory", "check_database_health", "memory_contradictions", "find_duplicates", "store_memory"]

/-- Reads of the read-only static bearer. -/
def readonlyAllowlist : List String :=
  ["search", "get_memory", "check_database_health", "memory_contradictions", "find_duplicates", "get_relations"]

inductive AuthPrincipal where
  | static
  | staticReadOnly
  | oidc
  | anonymous
  deriving DecidableEq, Repr

def AuthPrincipal.allows (p : AuthPrincipal) (op : String) : Bool :=
  match p with
  | .static | .anonymous => true
  | .oidc => oidcAllowlist.contains op
  | .staticReadOnly => readonlyAllowlist.contains op

/-- The principals an allowlist restricts. -/
def AuthPrincipal.Restricted (p : AuthPrincipal) : Prop := p = .oidc ∨ p = .staticReadOnly

inductive WritePolicy where
  | full
  | readOnly
  deriving DecidableEq, Repr

namespace WritePolicy

def forPrincipal : AuthPrincipal → WritePolicy
  | .oidc | .staticReadOnly => .readOnly
  | .static | .anonymous => .full

/-- The `read_only` of a service call. -/
def readOnlyFor (p : AuthPrincipal) : Bool := forPrincipal p = .readOnly

theorem readOnlyFor_iff {p : AuthPrincipal} : readOnlyFor p = true ↔ p.Restricted := by
  cases p <;> simp [readOnlyFor, forPrincipal, AuthPrincipal.Restricted]

end WritePolicy

/-! ### The configuration -/

/-- A verifier of tokens, built at startup. -/
structure OidcVerifier where
  issuer : String
  audience : String
  deriving DecidableEq

/-- `OidcVerifier::new`; an error is a refused start. -/
def OidcVerifier.build (parse : String → Option Oidc.Url) (issuer audience : String) : Except String OidcVerifier :=
  let normalised := Oidc.normalizeIssuer issuer
  let isLoopback := ((Oidc.originOf parse normalised).map Oidc.isLoopbackOrigin).getD false
  if "https://".toList.isPrefixOf normalised.toList || isLoopback then .ok ⟨normalised, audience⟩
  else .error ("OIDC_ISSUER must be https:// (except loopback): " ++ issuer)

/-- What the environment says of authentication. -/
structure AuthConfig where
  apiKey : String
  readonlyApiKey : String
  oidcIssuer : Option String
  publicBaseUrl : String
  allowUnauthenticated : Bool

structure AuthState where
  apiKey : Option String
  readonlyApiKey : Option String
  allowUnauthenticated : Bool
  oidc : Option OidcVerifier
  publicBaseUrl : String
  deriving DecidableEq

/-- No credential of any kind, and the flag of a development setup. -/
def AuthState.openMode (auth : AuthState) : Bool :=
  auth.apiKey.isNone && auth.readonlyApiKey.isNone && auth.oidc.isNone && auth.allowUnauthenticated

/-- `is_loopback` or `is_private` of an IPv4 address. -/
def isPrivateIpv4 : List ℕ → Bool
  | [a, b, _, _] => a = 127 || a = 10 || (a = 172 && 16 ≤ b && b ≤ 31) || (a = 192 && b = 168)
  | _ => false

/-- The IPv4 address an IPv6 one wraps. -/
def toIpv4Mapped : List ℕ → Option (List ℕ)
  | [0, 0, 0, 0, 0, 65535, x, y] => some [x / 256, x % 256, y / 256, y % 256]
  | _ => none

/-- Loopback, a private range, or a name inside the cluster. -/
def hostIsPrivate (h : String) : Bool :=
  if h = "localhost" || [".svc", ".svc.cluster.local", ".internal"].any fun suffix => suffix.toList.isSuffixOf h.toList
  then true
  else
    match Oidc.parseIpv4 h.toList with
    | some v4 => isPrivateIpv4 v4
    | none =>
      match Oidc.parseIpv6 h.toList with
      | none => false
      | some v6 =>
        match toIpv4Mapped v6 with
        | some v4 => isPrivateIpv4 v4
        | none => v6 = [0, 0, 0, 0, 0, 0, 0, 1] || (v6.head?.any fun x => 0xFC00 ≤ x && x ≤ 0xFDFF)

/-- The host of a URL, in lower case and without the brackets of an IPv6 literal. -/
def hostOf (parse : String → Option Oidc.Url) (url : String) : Option String := do
  let parsed ← parse url
  let h ← parsed.host
  return String.ofList (((h.toList.dropWhile (· = '[')).rdropWhile (· = ']')).map Char.toLower)

def isPrivateHost (parse : String → Option Oidc.Url) (url : String) : Bool := ((hostOf parse url).map hostIsPrivate).getD false

/-- An empty key is none. -/
def configuredKey (key : String) : Option String := if key = "" then none else some key

/-- `build_auth_state`; an error is a refused start. -/
def buildAuthState (parse : String → Option Oidc.Url) (config : AuthConfig) : Except String AuthState :=
  let apiKey := configuredKey config.apiKey
  let readonlyApiKey := configuredKey config.readonlyApiKey
  if apiKey.isSome && apiKey = readonlyApiKey then .error "ALAYA_READONLY_API_KEY must differ from ALAYA_API_KEY"
  else
    match config.oidcIssuer.mapM fun issuer => OidcVerifier.build parse issuer (config.publicBaseUrl ++ "/mcp") with
    | .error e => .error e
    | .ok oidc =>
      if apiKey.isNone && readonlyApiKey.isNone && oidc.isNone && !config.allowUnauthenticated then
        .error "no auth configured: set ALAYA_API_KEY, ALAYA_READONLY_API_KEY, or OIDC_ISSUER, or DANGEROUSLY_ALLOW_UNAUTHENTICATED=true for dev"
      else if apiKey.isNone && readonlyApiKey.isNone && oidc.isNone && !isPrivateHost parse config.publicBaseUrl then
        .error ("DANGEROUSLY_ALLOW_UNAUTHENTICATED refused on public origin " ++ config.publicBaseUrl)
      else .ok ⟨apiKey, readonlyApiKey, config.allowUnauthenticated, oidc, config.publicBaseUrl⟩

section

variable {parse : String → Option Oidc.Url} {config : AuthConfig} {auth : AuthState}

theorem configuredKey_ne_empty (key : String) : configuredKey key ≠ some "" := by
  unfold configuredKey
  split
  · exact nofun
  · next hne => exact fun h => hne (Option.some.inj h)

/-- **What a start guarantees.**  The two keys are different and neither is empty, and the server runs without a
credential only under the flag and on a host that is not public. -/
theorem buildAuthState_ok (h : buildAuthState parse config = .ok auth) :
    (auth.apiKey.isSome → auth.apiKey ≠ auth.readonlyApiKey) ∧ auth.apiKey ≠ some "" ∧
      auth.readonlyApiKey ≠ some "" ∧
      (auth.apiKey = none → auth.readonlyApiKey = none → auth.oidc = none →
        auth.openMode = true ∧ isPrivateHost parse auth.publicBaseUrl = true) := by
  unfold buildAuthState at h
  dsimp only at h
  split at h
  · cases h
  next hdiffer =>
  split at h
  · cases h
  next oidc _ =>
  split at h
  · cases h
  next hflag =>
  split at h
  · cases h
  next hprivate =>
  obtain rfl := Except.ok.inj h
  simp only [Bool.and_eq_true, decide_eq_true_eq, Bool.not_eq_true', not_and, Bool.not_eq_false,
    Option.isNone_iff_eq_none] at hdiffer hflag hprivate
  refine ⟨hdiffer, configuredKey_ne_empty _, configuredKey_ne_empty _, fun hkey hreadonly hoidc => ?_⟩
  dsimp only at hkey hreadonly hoidc
  refine ⟨?_, hprivate ⟨⟨hkey, hreadonly⟩, hoidc⟩⟩
  simp [AuthState.openMode, hkey, hreadonly, hoidc, hflag]

end

/-! ### Tokens -/

/-- `u8::is_ascii_whitespace`. -/
def isAsciiWhitespace (c : Char) : Bool := c = ' ' || c = '\t' || c = '\n' || c = '\x0c' || c = '\r'

/-- The bearer token of an `Authorization` header: the scheme in any case, then what follows the whitespace. -/
def bearer (header : Option String) : Option String :=
  header.bind fun header =>
    let scheme := header.toList.takeWhile (!isAsciiWhitespace ·)
    match header.toList.drop scheme.length with
    | [] => none
    | _ :: token =>
      if scheme.map Char.toLower = "bearer".toList then some (String.ofList (token.dropWhile isWhitespace)) else none

def maxTokenLen : ℕ := 8 * 1024

/-- `authenticate`, where `validates` is what the verifier answers of a token. -/
def authenticate (auth : AuthState) (validates : String → Bool) (token : String) : Option AuthPrincipal :=
  if auth.apiKey = some token then some .static
  else if auth.readonlyApiKey = some token then some .staticReadOnly
  else if auth.oidc.isSome && (token.toList.splitOn '.').length = 3 && validates token then some .oidc
  else none

/-! ### Operations of routes -/

/-- `/memories/{content_hash}` with a suffix: one segment between, possibly empty. -/
def isMemoryPath (path suffix : String) : Bool :=
  ((path.toList.dropPrefix? "/memories/".toList).bind fun rest => rest.dropSuffix? suffix.toList).any
    fun hash => !hash.contains '/'

/-- The operations of the routes without a hash. -/
def routeOps : List ((String × String) × String) :=
  [(("POST", "/store"), "store_memory"),
   (("POST", "/search"), "search"),
   (("POST", "/delete"), "delete_memory"),
   (("POST", "/relation"), "relation"),
   (("POST", "/supersede"), "memory_supersede"),
   (("POST", "/unsupersede"), "memory_unsupersede"),
   (("POST", "/contradictions"), "memory_contradictions"),
   (("POST", "/contradictions/resolution"), "resolve_contradiction"),
   (("POST", "/duplicates/find"), "find_duplicates"),
   (("POST", "/duplicates/merge"), "merge_duplicates"),
   (("POST", "/backfill/summaries"), "backfill_summaries"),
   (("POST", "/backfill/contradictions"), "backfill_contradictions"),
   (("POST", "/backfill/keywords"), "backfill_keywords"),
   (("POST", "/consolidation/sweep"), "graph_sweep"),
   (("GET", "/health/detail"), "check_database_health"),
   (("GET", "/stats"), "corpus_stats")]

/-- What no allowlist has. -/
def mutatingOp : String := "__mutating__"

/-- The operation of a request, off its method and raw path. -/
def restRouteOp (method path : String) : String :=
  match routeOps.lookup (method, path) with
  | some op => op
  | none =>
    if method = "GET" && isMemoryPath path "/relations" then "get_relations"
    else if method = "POST" && isMemoryPath path "/confirm" then "memory_confirm"
    else if method = "POST" && isMemoryPath path "/refute" then "memory_refute"
    else if method = "GET" && "/memories/".toList.isPrefixOf path.toList then "get_memory"
    else if method = "PATCH" && "/memories/".toList.isPrefixOf path.toList then "patch_memory"
    else mutatingOp

/-! ### The router -/

/-- The handlers behind `require_auth`. -/
inductive Handler where
  | mcp
  | store
  | search
  | delete
  | relation
  | supersede
  | unsupersede
  | contradictions
  | resolveContradiction
  | findDuplicates
  | mergeDuplicates
  | getMemory
  | patchMemory
  | getRelations
  | confirm
  | refute
  | backfillSummaries
  | backfillContradictions
  | backfillKeywords
  | graphSweep
  | stats
  | healthDetail
  | authConfig
  deriving DecidableEq, Repr

/-- The operation a handler runs: `mcp` asks for its tools itself, and `auth_config` is for the static bearer only. -/
def Handler.op : Handler → String
  | mcp => mutatingOp
  | store => "store_memory"
  | search => "search"
  | delete => "delete_memory"
  | relation => "relation"
  | supersede => "memory_supersede"
  | unsupersede => "memory_unsupersede"
  | contradictions => "memory_contradictions"
  | resolveContradiction => "resolve_contradiction"
  | findDuplicates => "find_duplicates"
  | mergeDuplicates => "merge_duplicates"
  | getMemory => "get_memory"
  | patchMemory => "patch_memory"
  | getRelations => "get_relations"
  | confirm => "memory_confirm"
  | refute => "memory_refute"
  | backfillSummaries => "backfill_summaries"
  | backfillContradictions => "backfill_contradictions"
  | backfillKeywords => "backfill_keywords"
  | graphSweep => "graph_sweep"
  | stats => "corpus_stats"
  | healthDetail => "check_database_health"
  | authConfig => mutatingOp

structure Route where
  method : String
  path : String
  handler : Handler
  deriving DecidableEq

/-- `protected_router`, and what has the same layer: `auth_config_route` and a part of `health_routes`. -/
def protectedRouter : List Route :=
  [⟨"POST", "/mcp", .mcp⟩,
   ⟨"POST", "/store", .store⟩,
   ⟨"POST", "/search", .search⟩,
   ⟨"POST", "/delete", .delete⟩,
   ⟨"POST", "/relation", .relation⟩,
   ⟨"POST", "/supersede", .supersede⟩,
   ⟨"POST", "/unsupersede", .unsupersede⟩,
   ⟨"POST", "/contradictions", .contradictions⟩,
   ⟨"POST", "/contradictions/resolution", .resolveContradiction⟩,
   ⟨"POST", "/duplicates/find", .findDuplicates⟩,
   ⟨"POST", "/duplicates/merge", .mergeDuplicates⟩,
   ⟨"GET", "/memories/{content_hash}", .getMemory⟩,
   ⟨"PATCH", "/memories/{content_hash}", .patchMemory⟩,
   ⟨"GET", "/memories/{content_hash}/relations", .getRelations⟩,
   ⟨"POST", "/memories/{content_hash}/confirm", .confirm⟩,
   ⟨"POST", "/memories/{content_hash}/refute", .refute⟩,
   ⟨"POST", "/backfill/summaries", .backfillSummaries⟩,
   ⟨"POST", "/backfill/contradictions", .backfillContradictions⟩,
   ⟨"POST", "/backfill/keywords", .backfillKeywords⟩,
   ⟨"POST", "/consolidation/sweep", .graphSweep⟩,
   ⟨"GET", "/stats", .stats⟩,
   ⟨"GET", "/health/detail", .healthDetail⟩,
   ⟨"GET", "/auth/config", .authConfig⟩]

namespace Route

/-- A route for GET serves HEAD too. -/
def TakesMethod (r : Route) (method : String) : Prop := method = r.method ∨ (r.method = "GET" ∧ method = "HEAD")

/-- A segment in braces takes any one segment, the empty one included; any other only itself. -/
def TakesSegment (own given : List Char) : Prop := own.head? = some '{' ∨ own = given

def TakesPath (r : Route) (path : String) : Prop :=
  List.Forall₂ TakesSegment (r.path.toList.splitOn '/') (path.toList.splitOn '/')

end Route

/-- The router may dispatch the request to the handler. -/
def Dispatches (method path : String) (h : Handler) : Prop :=
  ∃ r ∈ protectedRouter, r.TakesMethod method ∧ r.TakesPath path ∧ r.handler = h

/-! ### What the router and the gate agree on -/

section

variable {method path : String}

/-- Segments joined: each but the first has a separator before it. -/
theorem intercalate_cons {α : Type} (sep : α) (w : List α) (ws : List (List α)) :
    [sep].intercalate (w :: ws) = w ++ ws.flatMap (sep :: ·) := by
  induction ws generalizing w with
  | nil => simp
  | cons v ws ih => rw [List.intercalate_cons_cons, ih, List.flatMap_cons, List.append_assoc]; rfl

/-- Segments that take only themselves. -/
theorem eq_of_takesSegments {own given : List (List Char)} (hfixed : ∀ s ∈ own, s.head? ≠ some '{')
    (h : List.Forall₂ Route.TakesSegment own given) : own = given := by
  induction h with
  | nil => rfl
  | cons hs _ ih =>
    rw [hs.resolve_left (hfixed _ List.mem_cons_self), ih fun s hs => hfixed s (List.mem_cons_of_mem _ hs)]

/-- A route without a parameter takes its own path only. -/
theorem path_eq_of_takesPath {r : Route} (hfixed : ∀ s ∈ r.path.toList.splitOn '/', s.head? ≠ some '{')
    (h : r.TakesPath path) : path = r.path := by
  have hsplit := eq_of_takesSegments hfixed h
  have hchars : r.path.toList = path.toList := by
    rw [← @List.intercalate_splitOn _ r.path.toList _ _ '/', hsplit, List.intercalate_splitOn]
  exact (String.toList_injective hchars).symm

/-- A route with a hash takes one segment for it. -/
theorem hash_of_takesPath {r : Route} (rest : List (List Char))
    (hroute : r.path.toList.splitOn '/' = [] :: "memories".toList :: "{content_hash}".toList :: rest)
    (hfixed : ∀ s ∈ rest, s.head? ≠ some '{') (h : r.TakesPath path) :
    ∃ hash, '/' ∉ hash ∧ path.toList = "/memories/".toList ++ hash ++ rest.flatMap ('/' :: ·) := by
  rw [Route.TakesPath, hroute] at h
  generalize hsplit : path.toList.splitOn '/' = given at h
  cases h with
  | cons hfirst h => cases h with
    | cons hsecond h => cases h with
      | @cons _ hash _ _ _ hrest =>
        obtain rfl := hfirst.resolve_left (by decide)
        obtain rfl := hsecond.resolve_left (by decide)
        obtain rfl := eq_of_takesSegments hfixed hrest
        have hmem : hash ∈ path.toList.splitOn '/' := by simp [hsplit]
        refine ⟨hash, fun hslash => ?_, ?_⟩
        · have := Words.forall_mem_splitOnP (p := (· == '/')) path.toList hash hmem '/' hslash
          simp at this
        · rw [← @List.intercalate_splitOn _ path.toList _ _ '/', hsplit]
          rw [intercalate_cons, List.nil_append, List.flatMap_cons, List.flatMap_cons]
          rfl

theorem isMemoryPath_iff {suffix : String} :
    isMemoryPath path suffix = true ↔
      ∃ hash, '/' ∉ hash ∧ path.toList = "/memories/".toList ++ hash ++ suffix.toList := by
  unfold isMemoryPath
  rw [Option.any_eq_true]
  simp only [Option.bind_eq_some_iff, List.dropPrefix?_eq_some_iff, List.dropSuffix?_eq_some_iff, beq_iff_eq]
  constructor
  · rintro ⟨hash, ⟨rest, ⟨_, hpath, rfl⟩, _, rfl, rfl⟩, hfree⟩
    exact ⟨hash, by simpa using hfree, by rw [hpath, List.append_assoc]⟩
  · rintro ⟨hash, hfree, hpath⟩
    exact ⟨hash, ⟨_, ⟨_, by rw [hpath, List.append_assoc], rfl⟩, _, rfl, rfl⟩, by simpa using hfree⟩

/-- No route without a hash begins like one with a hash. -/
theorem lookup_memories {rest : List Char} (h : path.toList = "/memories/".toList ++ rest) :
    routeOps.lookup (method, path) = none := by
  have hother : ∀ e ∈ routeOps, "/memories/".toList.isPrefixOf e.1.2.toList = false := by decide +kernel
  refine List.lookup_eq_none_iff.mpr fun e he => bne_iff_ne.mpr fun heq => ?_
  have hbegins : "/memories/".toList.isPrefixOf path.toList = true := by
    rw [h, List.isPrefixOf_iff_prefix]
    exact List.prefix_append _ _
  have := hother e he
  rw [← heq] at this
  rw [hbegins] at this
  cases this

/-- HEAD is no operation on a memory. -/
theorem restRouteOp_head_memories {rest : List Char} (h : path.toList = "/memories/".toList ++ rest) :
    restRouteOp "HEAD" path = mutatingOp := by
  simp [restRouteOp, lookup_memories h]

/-- A path that goes on after `/memories/` in one segment is not one with a suffix. -/
theorem isMemoryPath_of_free {hash : List Char} {suffix : String} (hfree : '/' ∉ hash) (hslash : '/' ∈ suffix.toList)
    (hpath : path.toList = "/memories/".toList ++ hash) : isMemoryPath path suffix = false := by
  refine Bool.eq_false_iff.mpr fun h => ?_
  obtain ⟨other, -, hother⟩ := isMemoryPath_iff.mp h
  rw [hpath, List.append_assoc] at hother
  rw [List.append_cancel_left hother] at hfree
  exact hfree (List.mem_append_right _ hslash)

/-- The op of a read of one memory. -/
theorem restRouteOp_get {hash : List Char} (hfree : '/' ∉ hash) (hpath : path.toList = "/memories/".toList ++ hash) :
    restRouteOp "GET" path = "get_memory" := by
  have hrelations : isMemoryPath path "/relations" = false := isMemoryPath_of_free hfree (by decide) hpath
  simp [restRouteOp, lookup_memories hpath, hrelations, hpath]

theorem restRouteOp_patch {hash : List Char} (hpath : path.toList = "/memories/".toList ++ hash) :
    restRouteOp "PATCH" path = "patch_memory" := by
  simp [restRouteOp, lookup_memories hpath, hpath]

section

variable {hash : List Char} (hfree : '/' ∉ hash)

include hfree

theorem restRouteOp_relations (hpath : path.toList = "/memories/".toList ++ hash ++ "/relations".toList) :
    restRouteOp "GET" path = "get_relations" := by
  have hlookup : routeOps.lookup ("GET", path) = none := lookup_memories (hpath.trans (List.append_assoc _ _ _))
  simp [restRouteOp, hlookup, isMemoryPath_iff.mpr ⟨hash, hfree, hpath⟩]

theorem restRouteOp_confirm (hpath : path.toList = "/memories/".toList ++ hash ++ "/confirm".toList) :
    restRouteOp "POST" path = "memory_confirm" := by
  have hlookup : routeOps.lookup ("POST", path) = none := lookup_memories (hpath.trans (List.append_assoc _ _ _))
  simp [restRouteOp, hlookup, isMemoryPath_iff.mpr ⟨hash, hfree, hpath⟩]

theorem restRouteOp_refute (hpath : path.toList = "/memories/".toList ++ hash ++ "/refute".toList) :
    restRouteOp "POST" path = "memory_refute" := by
  have hlookup : routeOps.lookup ("POST", path) = none := lookup_memories (hpath.trans (List.append_assoc _ _ _))
  have hconfirm : isMemoryPath path "/confirm" = false := by
    refine Bool.eq_false_iff.mpr fun h => ?_
    obtain ⟨other, -, hother⟩ := isMemoryPath_iff.mp h
    have hlast := congrArg List.getLast? (hpath.symm.trans hother)
    have hrefute : "/refute".toList.getLast? = some 'e' := by decide
    have hm : "/confirm".toList.getLast? = some 'm' := by decide
    simp only [List.getLast?_append, hrefute, hm] at hlast
    simp at hlast
  simp [restRouteOp, hlookup, hconfirm, isMemoryPath_iff.mpr ⟨hash, hfree, hpath⟩]

end

/-- Whether no segment of a route is a parameter. -/
def Route.Fixed (r : Route) : Prop := ∀ s ∈ r.path.toList.splitOn '/', s.head? ≠ some '{'

instance (r : Route) : Decidable r.Fixed := inferInstanceAs (Decidable (∀ _ ∈ _, _))

theorem restRouteOp_of_fixed : ∀ r ∈ protectedRouter, r.Fixed →
    restRouteOp r.method r.path = r.handler.op ∧ (r.method = "GET" → restRouteOp "HEAD" r.path = mutatingOp) := by
  decide +kernel

/-- The five routes with a hash. -/
theorem mem_of_not_fixed : ∀ r ∈ protectedRouter, ¬r.Fixed →
    r ∈ [⟨"GET", "/memories/{content_hash}", .getMemory⟩, ⟨"PATCH", "/memories/{content_hash}", .patchMemory⟩,
      ⟨"GET", "/memories/{content_hash}/relations", .getRelations⟩,
      ⟨"POST", "/memories/{content_hash}/confirm", .confirm⟩,
      (⟨"POST", "/memories/{content_hash}/refute", .refute⟩ : Route)] := by
  decide +kernel

theorem restRouteOp_of_hash {r : Route} (hr : r ∈ protectedRouter) (h : r.TakesPath path) (hbrace : ¬r.Fixed) :
    restRouteOp r.method path = r.handler.op ∧ (r.method = "GET" → restRouteOp "HEAD" path = mutatingOp) := by
  have hmem := mem_of_not_fixed r hr hbrace
  simp only [List.mem_cons, List.not_mem_nil, or_false] at hmem
  rcases hmem with rfl | rfl | rfl | rfl | rfl
  -- Each route with the segments after its hash.
  · obtain ⟨hash, hfree, hpath⟩ := hash_of_takesPath [] (by decide +kernel) nofun h
    rw [List.flatMap_nil, List.append_nil] at hpath
    exact ⟨restRouteOp_get hfree hpath, fun _ => restRouteOp_head_memories hpath⟩
  · obtain ⟨hash, hfree, hpath⟩ := hash_of_takesPath [] (by decide +kernel) nofun h
    rw [List.flatMap_nil, List.append_nil] at hpath
    exact ⟨restRouteOp_patch hpath, nofun⟩
  · obtain ⟨hash, hfree, hpath⟩ := hash_of_takesPath ["relations".toList] (by decide +kernel) (by decide) h
    exact ⟨restRouteOp_relations hfree hpath,
      fun _ => restRouteOp_head_memories (hpath.trans (List.append_assoc _ _ _))⟩
  · obtain ⟨hash, hfree, hpath⟩ := hash_of_takesPath ["confirm".toList] (by decide +kernel) (by decide) h
    exact ⟨restRouteOp_confirm hfree hpath, nofun⟩
  · obtain ⟨hash, hfree, hpath⟩ := hash_of_takesPath ["refute".toList] (by decide +kernel) (by decide) h
    exact ⟨restRouteOp_refute hfree hpath, nofun⟩

/-- The operation asked for of a request that a route takes. -/
theorem restRouteOp_of_takes {r : Route} (hr : r ∈ protectedRouter) (hpath : r.TakesPath path) :
    restRouteOp r.method path = r.handler.op ∧ (r.method = "GET" → restRouteOp "HEAD" path = mutatingOp) := by
  by_cases hfixed : r.Fixed
  · rw [path_eq_of_takesPath hfixed hpath]
    exact restRouteOp_of_fixed r hr hfixed
  · exact restRouteOp_of_hash hr hpath hfixed

/-- What is asked for is the operation of the handler, or the one no allowlist has. -/
theorem restRouteOp_of_dispatches {h : Handler} (hd : Dispatches method path h) :
    restRouteOp method path = h.op ∨ restRouteOp method path = mutatingOp := by
  obtain ⟨r, hr, hmethod, hpath, rfl⟩ := hd
  rcases hmethod with rfl | ⟨hget, rfl⟩
  · exact .inl (restRouteOp_of_takes hr hpath).1
  · exact .inr ((restRouteOp_of_takes hr hpath).2 hget)

instance (own given : List Char) : Decidable (Route.TakesSegment own given) := inferInstanceAs (Decidable (_ ∨ _))

instance (r : Route) (path : String) : Decidable (r.TakesPath path) :=
  inferInstanceAs (Decidable (List.Forall₂ Route.TakesSegment _ _))

/-! ### One handler for a request -/

/-- Segments that some one segment meets. -/
def Route.Meet (own other : List Char) : Prop := own.head? = some '{' ∨ other.head? = some '{' ∨ own = other

/-- Two routes that some one request meets. -/
def Route.Overlap (r r' : Route) : Prop :=
  (r.method = r'.method ∨ (r.method = "GET" ∧ r'.method = "HEAD") ∨ (r.method = "HEAD" ∧ r'.method = "GET")) ∧
    List.Forall₂ Route.Meet (r.path.toList.splitOn '/') (r'.path.toList.splitOn '/')

instance (own other : List Char) : Decidable (Route.Meet own other) := inferInstanceAs (Decidable (_ ∨ _))

instance (r r' : Route) : Decidable (r.Overlap r') := inferInstanceAs (Decidable (_ ∧ List.Forall₂ Route.Meet _ _))

theorem handler_of_overlap : ∀ r ∈ protectedRouter, ∀ r' ∈ protectedRouter, r.Overlap r' → r.handler = r'.handler := by
  decide +kernel

theorem meet_of_takes {own other given : List (List Char)} (h : List.Forall₂ Route.TakesSegment own given)
    (h' : List.Forall₂ Route.TakesSegment other given) : List.Forall₂ Route.Meet own other := by
  induction h generalizing other with
  | nil =>
    cases h'
    exact .nil
  | cons hs _ ih =>
    cases h' with
    | cons hs' hrest =>
      refine .cons ?_ (ih hrest)
      rcases hs with hs | rfl
      · exact .inl hs
      · rcases hs' with hs' | rfl
        · exact .inr (.inl hs')
        · exact .inr (.inr rfl)

theorem overlap_of_takes {r r' : Route} (hmethod : r.TakesMethod method) (hmethod' : r'.TakesMethod method)
    (hpath : r.TakesPath path) (hpath' : r'.TakesPath path) : r.Overlap r' := by
  refine ⟨?_, meet_of_takes hpath hpath'⟩
  rcases hmethod with hmethod | ⟨hget, hhead⟩ <;> rcases hmethod' with hmethod' | ⟨hget', hhead'⟩
  · exact .inl (hmethod.symm.trans hmethod')
  · exact .inr (.inr ⟨hmethod.symm.trans hhead', hget'⟩)
  · exact .inr (.inl ⟨hget, hmethod'.symm.trans hhead⟩)
  · exact .inl (hget.trans hget'.symm)

/-- **One request, one handler, and the gate asks for its operation**: the one no allowlist has where the handler gates
its tools itself or is for the static bearer only, and for the HEAD requests that a GET route serves. -/
theorem gated_as_dispatched {h : Handler} (hd : Dispatches method path h) :
    (∀ h', Dispatches method path h' → h' = h) ∧
      (restRouteOp method path = h.op ∨ (restRouteOp method path = mutatingOp ∧ method = "HEAD")) := by
  obtain ⟨r, hr, hmethod, hpath, rfl⟩ := hd
  refine ⟨fun h' ⟨r', hr', hmethod', hpath', hh'⟩ => ?_, ?_⟩
  · exact hh' ▸ (handler_of_overlap r hr r' hr' (overlap_of_takes hmethod hmethod' hpath hpath')).symm
  · rcases hmethod with rfl | ⟨hget, rfl⟩
    · exact .inl (restRouteOp_of_takes hr hpath).1
    · exact .inr ⟨(restRouteOp_of_takes hr hpath).2 hget, rfl⟩

/-- A path with an empty hash. -/
theorem gated_as_dispatched_empty :
    (∀ h', Dispatches "GET" "/memories//relations" h' → h' = .getRelations) ∧
      (restRouteOp "GET" "/memories//relations" = "get_relations" ∨
        (restRouteOp "GET" "/memories//relations" = mutatingOp ∧ "GET" = "HEAD")) :=
  gated_as_dispatched ⟨⟨"GET", "/memories/{content_hash}/relations", .getRelations⟩, by decide +kernel, .inl rfl,
    by decide +kernel, rfl⟩

end

end Alaya
