import Alaya.Core.Contradictions
import Alaya.Core.Deduplication
import Alaya.Core.Refute
import Alaya.Core.Sweep
import Alaya.Search.Modes
import Alaya.Server.Auth

/-!
# What a request makes the service run

The handlers of the routes and the tools of `/mcp` turn a request into one command of the service.  The routes are
gated by `require_auth`, the tools a second time by `mcp_handler`, off the parsed body.  A command that may change a
store takes the full key, or a server that runs open on a host that is not public; a verified OIDC token gets as far
as an additive store (`writes_authorized`).
-/

namespace Alaya

open Json Rows

/-! ### Commands -/

inductive OutputMode where
  | full
  | summary
  | both
  deriving DecidableEq

structure RelationParams where
  action : String
  contentHash : String
  targetHash : Option String
  relationType : Option String
  deriving DecidableEq

/-- A command of the service worker. -/
inductive CmdInner where
  | ping
  | health
  | store (params : StoreParams) (readOnly : Bool)
  | search (params : SearchRequest) (output : OutputMode) (readOnly : Bool) (asOf : Option ℚ)
  | delete (hash : String)
  | getMemory (hash : String) (output : OutputMode)
  | relation (params : RelationParams)
  | supersede (oldHash newHash reason : String)
  | confirm (hash : String)
  | refute (hash : String) (refutation : Refutation)
  | unsupersede (hash reason via : String)
  | contradictions (limit offset : ℕ) (includeResolved : Bool) (verdicts : Option (List String))
  | resolveContradiction (memoryAHash memoryBHash : String) (resolution : Option Resolution) (resolvedVia : String)
  | findDuplicates (threshold : ℚ) (limit : ℕ) (strategy : Deduplication.CanonicalStrategy)
  | mergeDuplicates (canonical : String) (duplicates : List String) (reason : String) (dryRun : Bool)
  | patch (hash : String) (patch : PatchMemoryRequest)
  | backfillSummaries (limit : ℕ)
  | backfillContradictions (limit : ℕ) (rejudge : Bool) (verdicts : Option (List String))
  | backfillKeywords (limit : ℕ)
  | graphSweep (after : String) (limit : ℕ)
  | stats
  | selfCheck (query expectHash : String)

/-- The commands that only read: a search is one under `read_only`, a relation as `get`. -/
def CmdInner.Reads : CmdInner → Prop
  | .ping | .health | .getMemory .. | .contradictions .. | .findDuplicates .. | .stats | .selfCheck .. => True
  | .search _ _ readOnly _ => readOnly = true
  | .relation params => params.action = "get"
  | _ => False

/-! ### The handlers of the routes -/

/-- What the extractors of a handler read off its request. -/
inductive RestInput where
  | store (params : StoreParams)
  | search (params : SearchRequest) (output : OutputMode) (readOnly : Bool) (asOf : Option ℚ)
  | delete (contentHash : String)
  | relation (params : RelationParams)
  | getRelations (contentHash : String) (relationType : Option String)
  | supersede (oldHash newHash reason : String)
  | unsupersede (contentHash reason unsupersededVia : String)
  | confirm (contentHash : String)
  | refute (contentHash : String) (refutation : Refutation)
  | contradictions (limit : ℕ) (includeResolved : Bool) (verdicts : Option (List String)) (offset : ℕ)
  | stats
  | resolveContradiction (memoryAHash memoryBHash : String) (resolution : Option Resolution) (resolvedVia : String)
  | findDuplicates (similarityThreshold : ℚ) (limit : ℕ) (strategy : Deduplication.CanonicalStrategy)
  | mergeDuplicates (canonicalHash : String) (duplicateHashes : List String) (reason : String) (dryRun : Bool)
  | patchMemory (contentHash : String) (patch : PatchMemoryRequest)
  | getMemory (contentHash : String) (output : OutputMode)
  | backfillSummaries (limit : ℕ)
  | backfillContradictions (limit : ℕ) (rejudge : Bool) (verdicts : Option (List String))
  | backfillKeywords (limit : ℕ)
  | graphSweep (after : String) (limit : ℕ)

/-- Relations a caller may name. -/
def parseUserRelation (s : String) : Except String UserRelationType :=
  if s = "RELATES_TO" then .ok .relatesTo
  else if s = "PRECEDES" then .ok .precedes
  else if s = "CONTRADICTS" then .ok .contradicts
  else if s = "SUPERSEDES" then .error "SUPERSEDES is system-only; use memory_supersede"
  else .error ("unknown relation type: " ++ s)

def maxKeywordFillLimit : ℕ := 20000

namespace RestInput

def handler : RestInput → Handler
  | store _ => .store
  | search .. => .search
  | delete _ => .delete
  | relation _ => .relation
  | getRelations .. => .getRelations
  | supersede .. => .supersede
  | unsupersede .. => .unsupersede
  | confirm _ => .confirm
  | refute .. => .refute
  | contradictions .. => .contradictions
  | stats => .stats
  | resolveContradiction .. => .resolveContradiction
  | findDuplicates .. => .findDuplicates
  | mergeDuplicates .. => .mergeDuplicates
  | patchMemory .. => .patchMemory
  | getMemory .. => .getMemory
  | backfillSummaries _ => .backfillSummaries
  | backfillContradictions .. => .backfillContradictions
  | backfillKeywords _ => .backfillKeywords
  | graphSweep .. => .graphSweep

def badHash : String := "invalid content_hash format"

/-- A verdict filter a caller sent. -/
def checkVerdicts : Option (List String) → Except String Unit
  | none => .ok ()
  | some verdicts => validateVerdictFilter verdicts

/-- The command a handler sends, or the text of its 400. -/
def command (p : AuthPrincipal) (now : ℚ) : RestInput → Except String CmdInner
  | store params => do
    params.validate
    return .store params (WritePolicy.readOnlyFor p)
  | search params output readOnly asOf => do
    let readOnly := readOnly || WritePolicy.readOnlyFor p
    validateAsOf asOf params.mode readOnly now
    return .search params output readOnly asOf
  | delete contentHash => .ok (.delete contentHash)
  | relation params => .ok (.relation params)
  | getRelations contentHash relationType =>
    if !validateContentHash contentHash then .error badHash
    else if relationType.any fun r => (parseUserRelation r).toOption.isNone then .error "invalid relation_type"
    else .ok (.relation ⟨"get", contentHash, none, relationType⟩)
  | supersede oldHash newHash reason => .ok (.supersede oldHash newHash reason)
  | unsupersede contentHash reason via => .ok (.unsupersede contentHash reason via)
  | confirm contentHash => if !validateContentHash contentHash then .error badHash else .ok (.confirm contentHash)
  | refute contentHash refutation => do
    if !validateContentHash contentHash then throw badHash
    refutation.validate
    return .refute contentHash refutation
  | contradictions limit includeResolved verdicts offset => do
    checkVerdicts verdicts
    return .contradictions limit offset includeResolved verdicts
  | stats => .ok .stats
  | resolveContradiction a b resolution via => .ok (.resolveContradiction a b resolution via)
  | findDuplicates threshold limit strategy => .ok (.findDuplicates threshold limit strategy)
  | mergeDuplicates canonical duplicates reason dryRun => .ok (.mergeDuplicates canonical duplicates reason dryRun)
  | patchMemory contentHash patch => do
    if patch.isEmpty then throw "at least one field must be provided"
    if !validateContentHash contentHash then throw badHash
    patch.validate
    return .patch contentHash patch
  | getMemory contentHash output =>
    if !validateContentHash contentHash then .error badHash else .ok (.getMemory contentHash output)
  | backfillSummaries limit => .ok (.backfillSummaries limit)
  | backfillContradictions limit rejudge verdicts => do
    checkVerdicts verdicts
    return .backfillContradictions limit rejudge verdicts
  | backfillKeywords limit =>
    if 1 ≤ limit ∧ limit ≤ maxKeywordFillLimit then .ok (.backfillKeywords limit)
    else .error ("limit must be 1..=" ++ toString maxKeywordFillLimit)
  | graphSweep after limit =>
    if 1 ≤ limit ∧ limit ≤ maxGraphSweepLimit then .ok (.graphSweep after limit)
    else .error ("limit must be 1..=" ++ toString maxGraphSweepLimit)

end RestInput

/-! ### The tools of `/mcp` -/

/-- How the arguments of a tool are read; an error is what the deserializer says. -/
structure ToolReaders where
  store : Value → Except String StoreParams
  search : Value → Except String (SearchRequest × OutputMode)
  delete : Value → Except String String
  getMemory : Value → Except String (String × OutputMode)
  relation : Value → Except String RelationParams
  supersede : Value → Except String (String × String × String)
  unsupersede : Value → Except String (String × String)
  confirm : Value → Except String String
  refutation : Value → Except String Refutation
  contradictions : Value → Except String (ℕ × Bool × Option (List String) × ℕ)
  resolveContradiction : Value → Except String (String × String × Option Resolution)
  findDuplicates : Value → Except String (ℚ × ℕ × Deduplication.CanonicalStrategy)
  mergeDuplicates : Value → Except String (String × List String × String × Bool)

/-- A JSON-RPC error: its code and message. -/
abbrev RpcError := ℤ × String

def invalidParams (e : String) : RpcError := (-32602, "Invalid params: " ++ e)

/-- A step of a tool whose error is one of its arguments. -/
def withParams {α : Type} (r : Except String α) : Except RpcError α := r.mapError invalidParams

/-- Who a tool call is recorded as. -/
def operatorMcp : String := "operator:mcp"

/-- A member of a JSON value. -/
def memberOf (k : String) (v : Value) : Option Value := v.asObject.bind (Object.get · k)

/-- The hash of a refute's arguments and the rest of them. -/
def takeContentHash (args : Value) : Except RpcError (String × Value) :=
  match (memberOf "content_hash" args).bind Value.asStr, args.asObject with
  | some hash, some o => .ok (hash, .object (Object.erase "content_hash" o))
  | _, _ => .error (invalidParams "content_hash is required")

/-- The command of a tool, or its error. -/
def dispatchTool (read : ToolReaders) (name : String) (args : Value) (p : AuthPrincipal) : Except RpcError CmdInner :=
  let readOnly := WritePolicy.readOnlyFor p
  if name = "store_memory" then do
    let params ← withParams (read.store args)
    withParams params.validate
    return .store params readOnly
  else if name = "search" then do
    let (params, output) ← withParams (read.search args)
    return .search params output readOnly none
  else if name = "delete_memory" then do
    return .delete (← withParams (read.delete args))
  else if name = "get_memory" then do
    let (hash, output) ← withParams (read.getMemory args)
    return .getMemory hash output
  else if name = "check_database_health" then .ok .health
  else if name = "relation" then do
    return .relation (← withParams (read.relation args))
  else if name = "memory_supersede" then do
    let (oldId, newId, reason) ← withParams (read.supersede args)
    return .supersede oldId newId reason
  else if name = "memory_unsupersede" then do
    let (hash, reason) ← withParams (read.unsupersede args)
    return .unsupersede hash reason operatorMcp
  else if name = "memory_confirm" then do
    let hash ← withParams (read.confirm args)
    if !validateContentHash hash then throw (invalidParams RestInput.badHash)
    return .confirm hash
  else if name = "memory_refute" then do
    let (hash, args) ← takeContentHash args
    if !validateContentHash hash then throw (invalidParams RestInput.badHash)
    let refutation ← withParams (read.refutation args)
    withParams refutation.validate
    return .refute hash refutation
  else if name = "memory_contradictions" then do
    let (limit, includeResolved, verdicts, offset) ← withParams (read.contradictions args)
    return .contradictions limit offset includeResolved verdicts
  else if name = "resolve_contradiction" then do
    let (a, b, resolution) ← withParams (read.resolveContradiction args)
    return .resolveContradiction a b resolution operatorMcp
  else if name = "find_duplicates" then do
    let (threshold, limit, strategy) ← withParams (read.findDuplicates args)
    return .findDuplicates threshold limit strategy
  else if name = "merge_duplicates" then do
    let (canonical, duplicates, reason, dryRun) ← withParams (read.mergeDuplicates args)
    return .mergeDuplicates canonical duplicates reason dryRun
  else .error (-32601, "Unknown tool: " ++ name)

structure JsonRpcRequest where
  jsonrpc : String
  id : Option Value
  method : String
  params : Option Value

/-- What `/mcp` does with a request. -/
inductive McpReply where
  | unsupportedMediaType
  | payloadTooLarge
  | accepted
  | error (id : Value) (e : RpcError)
  | handleInitialize (id : Value)
  | toolsList (id : Value)
  | pong (id : Value)
  /-- The command goes to the worker, whose reply is the answer. -/
  | call (id : Value) (cmd : CmdInner)

def maxBodySize : ℕ := 1048576

def knownMethods : List String :=
  ["initialize", "initialized", "notifications/initialized", "notifications/cancelled", "tools/list", "tools/call",
   "ping"]

/-- A name of the table, or `unknown`. -/
def known (table : List String) (s : String) : String := (table.find? (· = s)).getD "unknown"

def isAcceptedNotification (id : Value) (method : String) : Bool :=
  id = .null && ["initialized", "notifications/initialized", "notifications/cancelled"].contains method

/-- The tool of a call, as the gate and the dispatch both read it. -/
def JsonRpcRequest.toolName (req : JsonRpcRequest) : Option String :=
  req.params.bind fun params => (memberOf "name" params).bind Value.asStr

def handleToolsCall (read : ToolReaders) (id : Value) (req : JsonRpcRequest) (p : AuthPrincipal) : McpReply :=
  match req.params with
  | none => .error id (-32602, "Missing params for tools/call")
  | some params =>
    match (memberOf "name" params).bind Value.asStr with
    | none => .error id (-32602, "Missing 'name' in tools/call params")
    | some name =>
      match dispatchTool read name ((memberOf "arguments" params).getD (.object [])) p with
      | .error e => .error id e
      | .ok cmd => .call id cmd

/-- `mcp_handler`, on a body of so many bytes as it is parsed. -/
def mcpHandler (read : ToolReaders) (p : AuthPrincipal) (json : Bool) (size : ℕ)
    (body : Except String JsonRpcRequest) : McpReply :=
  if !json then .unsupportedMediaType
  else if maxBodySize < size then .payloadTooLarge
  else
    match body with
    | .error e => .error .null (-32700, "Parse error: " ++ e)
    | .ok req =>
      let method := known knownMethods req.method
      let id := req.id.getD .null
      if req.jsonrpc ≠ "2.0" then .error id (-32600, "Invalid Request: jsonrpc must be \"2.0\"")
      else if isAcceptedNotification id method then .accepted
      else if method = "tools/call" && !p.allows (req.toolName.getD "") then
        .error id (-32001, "forbidden for this principal")
      else if method = "initialize" then .handleInitialize id
      else if method = "tools/list" then .toolsList id
      else if method = "tools/call" then handleToolsCall read id req p
      else if method = "ping" then .pong id
      else .error id (-32601, "Method not found: " ++ req.method)

/-! ### The server -/

/-- A request, as the layers read it. -/
structure HttpRequest where
  method : String
  path : String
  authorization : Option String

/-- What `require_auth` does with a request. -/
inductive AuthReply where
  | challenge
  | forbidden (op : String)
  | next (p : AuthPrincipal)
  deriving DecidableEq

def requireAuth (auth : AuthState) (validates : String → Bool) (req : HttpRequest) : AuthReply :=
  if auth.openMode then .next .anonymous
  else
    match (bearer req.authorization).filter (·.utf8ByteSize ≤ maxTokenLen) with
    | none => .challenge
    | some token =>
      match authenticate auth validates token with
      | none => .challenge
      | some p =>
        if req.path ≠ "/mcp" && !p.allows (restRouteOp req.method req.path) then
          .forbidden (restRouteOp req.method req.path)
        else .next p

/-- A request makes the service run a command, on behalf of a principal. -/
inductive Serves (auth : AuthState) (validates : String → Bool) (req : HttpRequest) (p : AuthPrincipal) :
    CmdInner → Prop where
  | rest {input : RestInput} {now : ℚ} {cmd : CmdInner} (admitted : requireAuth auth validates req = .next p)
      (dispatched : Dispatches req.method req.path input.handler) (sent : input.command p now = .ok cmd) :
      Serves auth validates req p cmd
  | mcp {read : ToolReaders} {json : Bool} {size : ℕ} {body : Except String JsonRpcRequest} {id : Value}
      {cmd : CmdInner} (admitted : requireAuth auth validates req = .next p)
      (dispatched : Dispatches req.method req.path .mcp) (sent : mcpHandler read p json size body = .call id cmd) :
      Serves auth validates req p cmd

section

variable {auth : AuthState} {validates : String → Bool} {req : HttpRequest} {p : AuthPrincipal} {cmd : CmdInner}

theorem authenticate_eq_some {token : String} (h : authenticate auth validates token = some p) :
    (p = .static ∧ auth.apiKey = some token) ∨
    (p = .staticReadOnly ∧ auth.readonlyApiKey = some token ∧ auth.apiKey ≠ some token) ∨
      (p = .oidc ∧ auth.oidc.isSome = true ∧ validates token = true) := by
  unfold authenticate at h
  split_ifs at h with hfull hreadonly hoidc
  · exact .inl ⟨(Option.some.inj h).symm, hfull⟩
  · exact .inr (.inl ⟨(Option.some.inj h).symm, hreadonly, hfull⟩)
  · rw [Bool.and_eq_true, Bool.and_eq_true] at hoidc
    exact .inr (.inr ⟨(Option.some.inj h).symm, hoidc.1.1, hoidc.2⟩)

/-- What a request has shown that `require_auth` lets on. -/
theorem requireAuth_next (h : requireAuth auth validates req = .next p) :
    (p = .anonymous ∧ auth.openMode = true) ∨
      (∃ token, bearer req.authorization = some token ∧ authenticate auth validates token = some p) ∧
        (req.path ≠ "/mcp" → p.allows (restRouteOp req.method req.path) = true) := by
  unfold requireAuth at h
  split at h
  · next hopen => exact .inl ⟨(AuthReply.next.inj h).symm, hopen⟩
  split at h
  · cases h
  next token htoken =>
  split at h
  · cases h
  next q hq =>
  split at h
  · cases h
  next hallowed =>
  obtain rfl := AuthReply.next.inj h
  refine .inr ⟨⟨token, (Option.filter_eq_some_iff.mp htoken).1, hq⟩, fun hpath => ?_⟩
  rw [Bool.and_eq_true, Bool.not_eq_true', decide_eq_true_eq, not_and, Bool.not_eq_false] at hallowed
  exact hallowed hpath

theorem handler_of_mcp : ∀ r ∈ protectedRouter, r.TakesPath "/mcp" → r.handler = .mcp := by
  decide +kernel

/-- What a restricted principal may send. -/
def AuthPrincipal.MaySend (p : AuthPrincipal) (cmd : CmdInner) : Prop :=
  cmd.Reads ∨ (p = .oidc ∧ ∃ params, cmd = .store params true)

/-- What no allowlist has, no restricted principal may run. -/
theorem listed_of_allows {op : String} (hp : p.Restricted) (h : p.allows op = true) :
    op ∈ oidcAllowlist ∨ op ∈ readonlyAllowlist := by
  rcases hp with rfl | rfl
  · exact .inl (List.contains_iff_mem.mp h)
  · exact .inr (List.contains_iff_mem.mp h)

/-- A handler of an allowed operation sends what its principal may. -/
theorem maySend_of_command {input : RestInput} {now : ℚ} (hp : p.Restricted)
    (hallowed : p.allows input.handler.op = true) (h : input.command p now = .ok cmd) : p.MaySend cmd := by
  have hreadOnly : WritePolicy.readOnlyFor p = true := WritePolicy.readOnlyFor_iff.mpr hp
  have hlisted := listed_of_allows hp hallowed
  cases input
  -- The handlers of the allowed operations first.
  case store params =>
    obtain ⟨_, -, hcmd⟩ := bind_eq_ok.mp h
    rcases hp with rfl | rfl
    · exact .inr ⟨rfl, params, by rw [← Except.ok.inj hcmd, hreadOnly]⟩
    · simp [AuthPrincipal.allows, readonlyAllowlist, RestInput.handler, Handler.op] at hallowed
  case search params output readOnly asOf =>
    obtain ⟨_, -, hcmd⟩ := bind_eq_ok.mp h
    obtain rfl := Except.ok.inj hcmd
    exact .inl (by simp [CmdInner.Reads, hreadOnly])
  case getRelations contentHash relationType =>
    simp only [RestInput.command] at h
    split_ifs at h
    obtain rfl := Except.ok.inj h
    exact .inl rfl
  case getMemory contentHash output =>
    simp only [RestInput.command] at h
    split_ifs at h
    obtain rfl := Except.ok.inj h
    exact .inl trivial
  case contradictions limit includeResolved verdicts offset =>
    obtain ⟨_, -, hcmd⟩ := bind_eq_ok.mp h
    obtain rfl := Except.ok.inj hcmd
    exact .inl trivial
  case findDuplicates threshold limit strategy =>
    obtain rfl := Except.ok.inj h
    exact .inl trivial
  all_goals simp [oidcAllowlist, readonlyAllowlist, RestInput.handler, Handler.op] at hlisted

/-- A tool of an allowed operation sends what its principal may. -/
theorem maySend_of_dispatchTool {read : ToolReaders} {name : String} {args : Value} (hp : p.Restricted)
    (hallowed : p.allows name = true) (h : dispatchTool read name args p = .ok cmd) : p.MaySend cmd := by
  have hreadOnly : WritePolicy.readOnlyFor p = true := WritePolicy.readOnlyFor_iff.mpr hp
  have hlisted : name = "store_memory" ∨ name = "search" ∨ name = "get_memory" ∨ name = "check_database_health" ∨
      name = "memory_contradictions" ∨ name = "find_duplicates" ∨ name = "get_relations" := by
    have := listed_of_allows hp hallowed
    simp only [oidcAllowlist, readonlyAllowlist, List.mem_cons, List.not_mem_nil, or_false] at this
    tauto
  rcases hlisted with rfl | rfl | rfl | rfl | rfl | rfl | rfl <;>
    simp only [dispatchTool, String.reduceEq, reduceIte] at h
  case inl =>
    obtain ⟨params, -, h⟩ := bind_eq_ok.mp h
    obtain ⟨_, -, h⟩ := bind_eq_ok.mp h
    obtain rfl := Except.ok.inj h
    rcases hp with rfl | rfl
    · exact .inr ⟨rfl, params, by rw [hreadOnly]⟩
    · exact absurd hallowed (by decide)
  case inr.inl =>
    obtain ⟨_, -, h⟩ := bind_eq_ok.mp h
    obtain rfl := Except.ok.inj h
    exact .inl hreadOnly
  case inr.inr.inl =>
    obtain ⟨_, -, h⟩ := bind_eq_ok.mp h
    obtain rfl := Except.ok.inj h
    exact .inl trivial
  case inr.inr.inr.inl =>
    obtain rfl := Except.ok.inj h
    exact .inl trivial
  case inr.inr.inr.inr.inl =>
    obtain ⟨_, -, h⟩ := bind_eq_ok.mp h
    obtain rfl := Except.ok.inj h
    exact .inl trivial
  case inr.inr.inr.inr.inr.inl =>
    obtain ⟨_, -, h⟩ := bind_eq_ok.mp h
    obtain rfl := Except.ok.inj h
    exact .inl trivial
  -- The service has no tool of the name `get_relations`.
  case inr.inr.inr.inr.inr.inr => cases h

/-- **The tool the gate judged is the tool that runs.** -/
theorem tool_of_call {read : ToolReaders} {json : Bool} {size : ℕ} {body : Except String JsonRpcRequest} {id : Value}
    (h : mcpHandler read p json size body = .call id cmd) :
    ∃ name args, p.allows name = true ∧ dispatchTool read name args p = .ok cmd ∧
      ∃ rpc, body = .ok rpc ∧ rpc.toolName = some name ∧ id = rpc.id.getD .null := by
  unfold mcpHandler at h
  split_ifs at h
  split at h
  · cases h
  next rpc =>
  dsimp only at h
  split_ifs at h with hversion hnotification hgate hinitialize hlist hcall
  rw [Bool.and_eq_true, Bool.not_eq_true', decide_eq_true_eq, not_and, Bool.not_eq_false] at hgate
  have hallowed := hgate hcall
  unfold handleToolsCall at h
  split at h
  · cases h
  next params hparams =>
  split at h
  · cases h
  next name hname =>
  have htool : rpc.toolName = some name := by rw [JsonRpcRequest.toolName, hparams, Option.bind_some, hname]
  rw [htool, Option.getD_some] at hallowed
  split at h
  · cases h
  next hdispatch =>
  obtain ⟨rfl, rfl⟩ := McpReply.call.inj h
  exact ⟨name, _, hallowed, hdispatch, rpc, rfl, htool, rfl⟩

theorem Serves.admitted (h : Serves auth validates req p cmd) : requireAuth auth validates req = .next p := by
  cases h with
  | rest admitted => exact admitted
  | mcp admitted => exact admitted

/-- **A restricted principal runs reads only, and an OIDC principal a store that only adds.** -/
theorem maySend_of_serves (hp : p.Restricted) (h : Serves auth validates req p cmd) : p.MaySend cmd := by
  cases h with
  | @rest input now _ admitted dispatched sent =>
    obtain ⟨rfl, -⟩ | ⟨-, hallowed⟩ := requireAuth_next admitted
    · rcases hp with hp | hp <;> cases hp
    have hpath : req.path ≠ "/mcp" := by
      intro hpath
      obtain ⟨r, hr, -, htakes, hhandler⟩ := dispatched
      rw [hpath] at htakes
      rw [handler_of_mcp r hr htakes] at hhandler
      cases input <;> cases hhandler
    have hop := hallowed hpath
    rcases restRouteOp_of_dispatches dispatched with heq | heq
    · rw [heq] at hop
      exact maySend_of_command hp hop sent
    · rw [heq] at hop
      exact absurd (listed_of_allows hp hop) (by decide)
  | mcp admitted dispatched sent =>
    obtain ⟨name, args, hallowed, hdispatch, -⟩ := tool_of_call sent
    exact maySend_of_dispatchTool hp hallowed hdispatch

/-- **What stands behind a write.**  A command that may change a store came with the full key, which is not the
read-only one, or to a server that runs without a credential on a host that is not public; or it is the store of a
verified OIDC token, which only adds. -/
theorem writes_authorized {parse : String → Option Oidc.Url} {config : AuthConfig}
    (hboot : buildAuthState parse config = .ok auth) (h : Serves auth validates req p cmd) (hwrites : ¬cmd.Reads) :
    (∃ key, bearer req.authorization = some key ∧ auth.apiKey = some key ∧ auth.readonlyApiKey ≠ some key ∧
        key ≠ "") ∨
      (auth.apiKey = none ∧ auth.readonlyApiKey = none ∧ auth.oidc = none ∧ auth.allowUnauthenticated = true ∧
        isPrivateHost parse auth.publicBaseUrl = true) ∨
      ∃ token params, bearer req.authorization = some token ∧ auth.oidc.isSome = true ∧ validates token = true ∧
        cmd = .store params true := by
  obtain ⟨hdiffer, hempty, -, hopen⟩ := buildAuthState_ok hboot
  obtain ⟨rfl, hmode⟩ | ⟨⟨token, htoken, hauth⟩, -⟩ := requireAuth_next h.admitted
  · simp only [AuthState.openMode, Bool.and_eq_true, Option.isNone_iff_eq_none] at hmode
    obtain ⟨⟨⟨hkey, hreadonly⟩, hoidc⟩, hflag⟩ := hmode
    exact .inr (.inl ⟨hkey, hreadonly, hoidc, hflag, (hopen hkey hreadonly hoidc).2⟩)
  rcases authenticate_eq_some hauth with ⟨rfl, hkey⟩ | ⟨rfl, -, -⟩ | ⟨rfl, hoidc, hvalid⟩
  · refine .inl ⟨token, htoken, hkey, fun hreadonly => ?_, fun hnone => hempty (hnone ▸ hkey)⟩
    exact hdiffer (by rw [hkey]; rfl) (hkey.trans hreadonly.symm)
  · rcases maySend_of_serves (.inr rfl) h with hreads | ⟨hp, -⟩
    · exact absurd hreads hwrites
    · cases hp
  · rcases maySend_of_serves (.inl rfl) h with hreads | ⟨-, params, rfl⟩
    · exact absurd hreads hwrites
    · exact .inr (.inr ⟨token, params, htoken, hoidc, hvalid, rfl⟩)

/-- A delete with the full key of a server that has a read-only key too. -/
theorem writes_authorized_delete :
    (∃ key, bearer (some "Bearer k") = some key ∧ some "k" = some key ∧ some "r" ≠ some key ∧ key ≠ "") ∨
      (some "k" = none ∧ some "r" = none ∧ (none : Option OidcVerifier) = none ∧ false = true ∧
        isPrivateHost (fun _ => none) "https://alaya.test" = true) ∨
      ∃ token params, bearer (some "Bearer k") = some token ∧ (none : Option OidcVerifier).isSome = true ∧
        (fun _ : String => false) token = true ∧ CmdInner.delete "h" = .store params true :=
  let auth : AuthState := ⟨some "k", some "r", false, none, "https://alaya.test"⟩
  have hboot : buildAuthState (fun _ => none) ⟨"k", "r", none, "https://alaya.test", false⟩ = .ok auth := by decide
  have hserves : Serves auth (fun _ => false) ⟨"POST", "/delete", some "Bearer k"⟩ .static (.delete "h") :=
    @Serves.rest _ _ _ _ (.delete "h") 0 _ (by decide +kernel)
      ⟨⟨"POST", "/delete", .delete⟩, by decide +kernel, .inl rfl, by decide +kernel, rfl⟩ rfl
  writes_authorized hboot hserves id

end

end Alaya
