import Alaya.Console.Committed
import Alaya.Console.Confirm
import Alaya.Console.Flash

/-!
# A console write and what follows it

A write is sent once and leaves three traces: a line in the write log, the labels that say what the store committed, and
the page the operator sees.  All three are read from the store's answer, which no one but the store vouches for.
-/

namespace Alaya.Console

open Json
open Std (TreeSet)

/-! ### What is sent -/

def RestrictionOp.toJson : RestrictionOp → Value
  | .disable name actor reason =>
    .object [("actor", .string actor), ("name", .string name), ("op", .string "disable"), ("reason", .string reason)]
  | .enable name expectedVersion actor reason =>
    .object [("actor", .string actor), ("expected_version", .ofU64 (.ofNat expectedVersion)), ("name", .string name),
      ("op", .string "enable"), ("reason", .string reason)]

/-- The members of a create or an update, the policy's among them. -/
def Policy.toJson (op name : String) (p : Policy) : Value :=
  .object [("daily_budget", p.dailyBudget.elim .null fun n => .ofU64 (.ofNat n)), ("models", .ofStrings p.models),
    ("name", .string name), ("op", .string op), ("preferred_endpoints", .ofStrings p.preferredEndpoints),
    ("utilization_limit", p.utilizationLimit.elim .null .ofF64)]

def DocOp.toJson : DocOp → Value
  | .create name policy => policy.toJson "create" name
  | .update name policy => policy.toJson "update" name
  | .delete name => .object [("name", .string name), ("op", .string "delete")]
  | .addKey name label => .object [("label", .string label), ("name", .string name), ("op", .string "add_key")]
  | .revokeKey digest => .object [("digest", .string digest), ("op", .string "revoke_key")]
  | .restore version expectedDigest =>
    .object ((expectedDigest.toList.map fun d => ("expected_digest", .string d)) ++
      [("op", .string "restore"), ("version", .ofU64 (.ofNat version))])

def DocRequest.toJson (r : DocRequest) : Value :=
  .object [("actor", .string r.actor), ("dry_run", .bool r.dryRun),
    ("expected_version", .ofU64 (.ofNat r.expectedVersion)), ("ops", .array (r.ops.map DocOp.toJson)),
    ("reason", .string r.reason)]

/-! ### What is asked of the libraries -/

structure Libraries where
  /-- SHA-256 of a text, in hex. -/
  sha256 : String → String
  /-- A JSON value as text. -/
  print : Value → String
  /-- A status with its reason phrase. -/
  showStatus : ℕ → String
  url : FormUrlencoded
  /-- A text escaped for a query. -/
  byteSerialize : String → String

/-- An answer the store can have written: a JSON object. -/
def posted (lib : Libraries) (a : Answer) : Except String Answer :=
  if a.body.asObject.isSome then .ok a
  else .error ("client store " ++ lib.showStatus a.status ++ ": the answer was not the store's JSON")

/-! ### The write log -/

def isClientError (status : ℕ) : Bool := 400 ≤ status && status < 500

def isSuccess (status : ℕ) : Bool := 200 ≤ status && status < 300

/-- Whether a request may or may not have applied: anything but a 200 or a 4xx. -/
def outcomeUnknown (a : Answer) : Bool := !(a.status = 200 || isClientError a.status)

/-- A text member, empty where there is none. -/
def textOf (v : Value) (k : String) : String := ((member v k).bind Value.asStr).getD ""

/-- The store's refusal, one line for each error. -/
def refusalLines (answer : Value) : List String :=
  let maxLines := 8
  let maxChars := 200
  let errors := ((member answer "errors").bind Value.asArray).getD []
  let lines := (errors.take maxLines).map fun e =>
    clip (((member e "code").bind Value.asStr).getD "error" ++ ": " ++ textOf e "message") maxChars
  let lines := if maxLines < errors.length then lines ++ ["…and " ++ toString (errors.length - maxLines) ++ " more"] else lines
  -- a gateway refusal carries `error` in place of `errors`
  if lines.isEmpty then [clip (((member answer "error").bind Value.asStr).getD "no detail") maxChars] else lines

/-- The members of a store answer the write log keeps. -/
def loggedMembers : List String :=
  ["status", "errors", "error", "dry_run", "version", "digest", "diff", "merged_after_commit", "results",
    "records_version", "message"]

/-- A minted key as the write log may hold it. -/
def loggableKey (k : Value) : Value :=
  .object [("client", (member k "client").getD .null), ("digest", (member k "digest").getD .null),
    ("id", (member k "id").getD .null)]

/-- The members of `loggedMembers` that an answer has. -/
def keptMembers (answer : Value) : Object :=
  loggedMembers.foldl (fun out k =>
    match member answer k with
    | some v => Object.insert k v out
    | none => out) []

/-- The answer as the write log may hold it. -/
def loggable (answer : Value) : Value :=
  match (member answer "keys").bind Value.asArray with
  | some keys => .object (Object.insert "keys" (.array (keys.map loggableKey)) (keptMembers answer))
  | none => .object (keptMembers answer)

def maxLoggedChars : ℕ := 16 * 1024

inductive Level where
  | info
  | warn
  deriving DecidableEq

/-- One line of the write log. -/
structure LogLine where
  level : Level
  sub : String
  kind : String
  request : String
  status : Option ℕ
  answer : Option String
  error : Option String
  message : String
  deriving DecidableEq

def writeLog (lib : Libraries) (sub kind : String) (request : Value) (outcome : Except String Answer) : LogLine :=
  let request := clip (lib.print request) maxLoggedChars
  let answered (level : Level) (a : Answer) (message : String) : LogLine :=
    ⟨level, sub, kind, request, some a.status, some (clip (lib.print (loggable a.body)) maxLoggedChars), none, message⟩
  match outcome with
  | .ok a =>
    if outcomeUnknown a then answered .warn a "client-store write outcome unknown"
    else if isSuccess a.status then answered .info a "client-store write committed"
    else answered .warn a "client-store write refused"
  | .error e => ⟨.warn, sub, kind, request, none, none, some e, "client-store write outcome unknown"⟩

/-- A write sent and recorded: its line, the labels after it, and the answer. -/
structure Recorded where
  line : LogLine
  committed : Committed
  answer : Except String Answer

/-- The labels after an answer: only a 200's body is exported. -/
def exportedAfter (exported : Value → Committed → Committed) (c : Committed) : Except String Answer → Committed
  | .ok a => if a.status = 200 then exported a.body c else c
  | .error _ => c

/-- Send a write and record it. -/
def sendRecorded (lib : Libraries) (sub kind : String) (body : Value) (exported : Value → Committed → Committed)
    (reply : Except String Answer) (c : Committed) : Recorded :=
  let answer := reply.bind (posted lib)
  ⟨writeLog lib sub kind body answer, exportedAfter exported c answer, answer⟩

/-! ### How an answer reads -/

inductive Outcome where
  | unknown (why : String)
  | refused (status : ℕ) (body : Value)
  | committed (body : Value)

def outcome : Except String Answer → Outcome
  | .error e => .unknown ("the store's answer was lost (" ++ e ++ ")")
  | .ok a =>
    if outcomeUnknown a then
      .unknown ("the store answered " ++ toString a.status ++ ": " ++ "; ".intercalate (refusalLines a.body))
    else if a.status = 200 then .committed a.body
    else .refused a.status a.body

def refusedText (what : String) (status : ℕ) (body : Value) : String :=
  what ++ " (" ++ toString status ++ "): " ++ "; ".intercalate (refusalLines body) ++ "."

/-- Whether the store refused with this error code, anywhere in its errors. -/
def hasCode (answer : Value) (code : String) : Bool :=
  (((member answer "errors").bind Value.asArray).getD []).any fun e => (member e "code").bind Value.asStr = some code

/-- What the operator sees: the page a redirect leads to, with its flash, or the minted keys. -/
inductive Page where
  | redirect (kind msg target : String)
  | keys (commit : Commit) (effect : String)

def flashRedirect (kind msg target : String) : Page := .redirect kind (flashText msg) target

/-! ### Restrictions -/

structure TableRecord where
  name : String
  state : Option RecordState
  version : Option UInt64
  actor : String
  reason : String

/-- The records the store holds: the disabled ones first, then by name. -/
def tableRecords (store : Value) : List TableRecord :=
  let rows := (((pointer store ["restrictions", "records"]).bind Value.asArray).getD []).map fun r =>
    (⟨textOf r "name", ((member r "state").bind Value.asStr).bind RecordState.parse,
      (member r "version").bind Value.asU64, textOf r "actor", textOf r "reason"⟩ : TableRecord)
  let late (r : TableRecord) : Bool := r.state ≠ some .disabled
  rows.mergeSort fun a b => if late a = late b then a.name ≤ b.name else late b

/-- What the store holds now for each name the request named. -/
def nowHolds (reread : Except String Value) (ops : List RestrictionOp) : String :=
  match reread with
  | .error e => " Re-reading the store failed too: " ++ e ++ "."
  | .ok store =>
    let rows := tableRecords store
    let names := (TreeSet.ofList (ops.map RestrictionOp.name)).toList
    let now := names.map fun n =>
      match rows.find? (·.name = n) with
      | some r =>
        n ++ " is " ++ r.state.elim "unreadable" RecordState.asStr ++ " at " ++
          r.version.elim "?" (fun v => toString v.toNat) ++ " by " ++ clip r.actor 64 ++ " (" ++ clip r.reason 80 ++ ")"
      | none => n ++ " has no record"
    " Re-read the store: " ++ "; ".intercalate now ++ "."

def unknownOutcome (reread : Except String Value) (ops : List RestrictionOp) (why : String) : String :=
  "Whether the request applied is unknown: " ++ why ++ ". Check the restrictions before sending it again." ++
    nowHolds reread ops

def backTo (lib : Libraries) (name : String) : String :=
  "/lb/clients?disable=" ++ lib.byteSerialize name ++ "#disable"

/-- What the page says after a restrict request, and where it goes. -/
def restrictOutcome (lib : Libraries) (reread : Except String Value) (now : Int64) (ops : List RestrictionOp)
    (answer : Except String Answer) : Page :=
  let back := "/lb/clients"
  match outcome answer with
  | .unknown why => flashRedirect "error" (unknownOutcome reread ops why) back
  | .committed body =>
    match writtenOps body ops with
    | .error e =>
      flashRedirect "error" ("The store committed the request, but its answer could not be read (" ++ e ++
        "), so nothing is confirmed or exported as committed." ++ nowHolds reread ops) back
    | .ok done =>
      let summary := ", ".intercalate (done.map fun op => op.state.asStr ++ " " ++ op.name)
      let msg :=
        if summary.isEmpty then "Nothing changed: every name was already in that state."
        else "Committed: " ++ summary ++ ". Confirming on every stack…"
      flashRedirect "ok" msg (effectHref lib.url done none now)
  | .refused status body =>
    -- a 409 means the console's picture was stale
    let msg := refusedText "The store refused the request" status body ++
      if status = 409 then nowHolds reread ops else ""
    let target := match ops.getLast? with
      | some last => if hasCode body "disabled.cap" then backTo lib last.name else back
      | none => back
    flashRedirect "error" msg target

/-- The labels of the records written, each with the clock's reading as it is exported. -/
def recordAll (clock : ℕ → Int64) (done : List Op) (c : Committed) : Committed :=
  done.zipIdx.foldl (fun c (op, i) => c.record op.name op.version (clock i).toInt) c

def exportRestrictions (clock : ℕ → Int64) (ops : List RestrictionOp) (body : Value) (c : Committed) : Committed :=
  match writtenOps body ops with
  | .ok done => recordAll clock done c
  | .error _ => c

/-- A write's traces. -/
structure Traces where
  line : LogLine
  committed : Committed
  page : Page

/-- A restrict request sent, from the store's reply on. -/
def restrict (lib : Libraries) (sub : String) (ops : List RestrictionOp) (reply : Except String Answer)
    (reread : Except String Value) (clock : ℕ → Int64) (now : Int64) (c : Committed) : Traces :=
  let body := .object [("restrictions", .array (ops.map RestrictionOp.toJson))]
  let sent := sendRecorded lib sub "restrictions" body (exportRestrictions clock ops) reply c
  ⟨sent.line, sent.committed, restrictOutcome lib reread now ops sent.answer⟩

/-! ### The document -/

/-- What the store's document side holds now. -/
def docNow (reread : Except String Value) : String :=
  match reread with
  | .error e => " Re-reading the store failed too: " ++ e ++ "."
  | .ok store =>
    match (member store "document").filter fun d => (member d "status").bind Value.asStr = some "ok" with
    | none => " Re-read the store: its document side did not answer."
    | some doc =>
      let version := ((member doc "version").bind Value.asU64).elim "unreadable" fun v => toString v.toNat
      let frozen := ((((member doc "frozen").bind Value.asArray).getD []).filterMap Value.asStr).map fun f => clip f 160
      " Re-read the store: it is at document version " ++ version ++
        (if frozen.isEmpty then "" else ", and refuses document writes: " ++ "; ".intercalate frozen) ++
        (if member store "pitr_window" = some (.bool true) then ", with a point-in-time recovery window open" else "") ++
        "."

def isAddKey : DocOp → Bool
  | .addKey .. => true
  | _ => false

def unknownWrite (reread : Except String Value) (op : DocOp) (why : String) : String :=
  "Whether the write applied is unknown: " ++ why ++ ". Check the history before sending it again." ++
    (if isAddKey op then " If it committed, its key was never shown: revoke the new key, whose id the history shows, " ++
      "and add another." else "") ++
    docNow reread

def opTitle : DocOp → String
  | .create name _ => "create " ++ name
  | .update name _ => "update " ++ name ++ "'s policy"
  | .delete name => "delete " ++ name
  | .addKey name _ => "add a key to " ++ name
  | .revokeKey digest => "revoke key " ++ shortDigest digest
  | .restore version _ => "restore version " ++ toString version

/-- What the page says of a commit whose answer could not be read. -/
def unreadable (reread : Except String Value) (op : DocOp) (e : String) : Page :=
  flashRedirect "error" ("The store committed the write, but its answer could not be read (" ++ e ++
    "), so nothing is confirmed or exported as committed." ++
    (if isAddKey op then " Its key cannot be shown: revoke the new key and add another." else "") ++
    docNow reread) "/lb/clients"

/-- What the page says after a document write. -/
def commitPage (lib : Libraries) (reread : Except String Value) (now : Int64) (op : DocOp)
    (answer : Except String Answer) : Page :=
  let back (msg : String) : Page := flashRedirect "error" msg "/lb/clients"
  match outcome answer with
  | .unknown why => back (unknownWrite reread op why)
  | .refused status body =>
    let stale :=
      (if isAddKey op then " If the form was sent twice, the first send may have minted a key that was never shown: " ++
        "compare the client's keys with the ones you hold, and revoke any other." else "") ++ docNow reread
    back (refusedText "The store refused the write" status body ++ if status = 409 then stale else "")
  | .committed body =>
    match commitOf lib.sha256 body [op] with
    | .error e => unreadable reread op e
    | .ok c =>
      let target := effectHref lib.url [] (some ⟨c.version, c.digest⟩) now
      if c.keys.isEmpty then
        flashRedirect "ok" ("Committed document version " ++ toString c.version ++ ": " ++ opTitle op ++
          ". Confirming on every stack…") target
      else .keys c target

def exportDocument (lib : Libraries) (now : Int64) (ops : List DocOp) (body : Value) (c : Committed) : Committed :=
  match commitOf lib.sha256 body ops with
  | .ok commit => c.document commit.version commit.digest now.toInt
  | .error _ => c

/-- The request of a document write, recorded. -/
def sendDocument (lib : Libraries) (sub : String) (request : DocRequest) (reply : Except String Answer) (seenAt : Int64)
    (c : Committed) : Recorded :=
  sendRecorded lib sub "document" (.object [("document", request.toJson)]) (exportDocument lib seenAt request.ops) reply c

/-- A document op sent, from the store's reply on. -/
def commitOp (lib : Libraries) (sub : String) (expected : ℕ) (actor reason : String) (op : DocOp)
    (reply : Except String Answer) (reread : Except String Value) (seenAt now : Int64) (c : Committed) : Traces :=
  let sent := sendDocument lib sub ⟨expected, actor, reason, false, [op]⟩ reply seenAt c
  ⟨sent.line, sent.committed, commitPage lib reread now op sent.answer⟩

end Alaya.Console
