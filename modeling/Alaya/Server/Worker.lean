import Alaya.Lib.Run
import Alaya.Server.Gate

/-!
# The service worker

One loop receives the commands of every caller from a bounded channel.  It runs the single-memory operations itself, one
at a time, and spawns the rest: searches wait for a gate, four passes are single-flight, the others just run.  A handler
is cut at its deadline, a spawned one that panics ends alone, and a caller may leave at any time.
-/

namespace Alaya

open Json Labelled

/-! ### Commands as the worker takes them -/

namespace Worker

/-- The passes that run one at a time. -/
inductive Flight where
  | keywordFill
  | graphSweep
  | stats
  | backfill
  deriving DecidableEq

/-- The arm of the loop's match that takes a command. -/
inductive Arm where
  | ping
  /-- Awaited by the loop. -/
  | inline
  | search
  | spawned
  | flight (f : Flight)
  deriving DecidableEq

end Worker

open Worker

namespace CmdInner

def arm : CmdInner → Arm
  | .ping => .ping
  | .search .. => .search
  | .findDuplicates .. | .mergeDuplicates .. | .backfillSummaries _ | .selfCheck .. => .spawned
  | .backfillKeywords _ => .flight .keywordFill
  | .graphSweep .. => .flight .graphSweep
  | .stats => .flight .stats
  | .backfillContradictions .. => .flight .backfill
  | _ => .inline

def opName : CmdInner → String
  | .ping => "ping"
  | .health => "health"
  | .store .. => "store"
  | .search .. => "search"
  | .delete _ => "delete"
  | .getMemory .. => "get_memory"
  | .relation _ => "relation"
  | .supersede .. => "supersede"
  | .unsupersede .. => "unsupersede"
  | .confirm _ => "confirm"
  | .refute .. => "refute"
  | .contradictions .. => "contradictions"
  | .resolveContradiction .. => "resolve_contradiction"
  | .findDuplicates .. => "find_duplicates"
  | .mergeDuplicates .. => "merge_duplicates"
  | .patch .. => "patch"
  | .backfillSummaries _ => "backfill_summaries"
  | .backfillContradictions .. => "backfill_contradictions"
  | .backfillKeywords _ => "backfill_keywords"
  | .graphSweep .. => "graph_sweep"
  | .stats => "stats"
  | .selfCheck .. => "selfcheck"

end CmdInner

namespace Worker

/-! ### Limits

Times are in milliseconds. -/

def cmdChannelCap : ℕ := 256

def searchConcurrency : ℕ := 1

def searchBacklogMax : ℕ := cmdChannelCap

def cmdDeadline : ℕ := 120000

def longCmdDeadline : ℕ := 600000

end Worker

/-- After how long the worker drops the handler.  The self-check bounds itself, two backfills are not bounded. -/
def CmdInner.cutAfter : CmdInner → Option ℕ
  | .ping | .selfCheck .. | .backfillSummaries _ | .backfillContradictions .. => none
  | .findDuplicates .. | .mergeDuplicates .. | .backfillKeywords _ | .graphSweep .. => some longCmdDeadline
  | _ => some cmdDeadline

namespace Worker

/-! ### Replies -/

def pong : Value := .object [("ok", .bool true)]

def searchBacklogFull : Value :=
  .object [("success", .bool false), ("error_kind", .string "overloaded"),
    ("error", .string "search backlog full, try again later")]

def alreadyRunning : Flight → Value
  | .keywordFill => .object [("success", .bool false), ("error", .string "keyword backfill already running")]
  | .graphSweep => .object [("success", .bool false), ("status", .string "busy"),
      ("error", .string "graph sweep already running")]
  | .stats => .object [("success", .bool false), ("error", .string "stats already running")]
  | .backfill => .object [("success", .bool false), ("error", .string "backfill already running")]

def deadlineExceeded (op : String) (deadline : ℕ) : Object :=
  [("success", .bool false), ("error", .string (op ++ " timed out after " ++ toString (deadline / 1000) ++ "s")),
    ("error_kind", .string "timeout")]

/-- The reply of a handler that was cut: a refute names the hash its correction has, stats carry the counters. -/
def timedOut (hash : String → String) (pod : Value) (cmd : CmdInner) (deadline : ℕ) : Value :=
  let v := deadlineExceeded cmd.opName deadline
  match cmd with
  | .refute _ refutation => .object (Object.insert "correction_hash" (.string (hash refutation.content)) v)
  | .stats => .object (Object.insert "pod" pod v)
  | _ => .object v

/-- A reply, by what it tells of the command. -/
inductive Reply where
  /-- It was not run. -/
  | refused (v : Value)
  | made (v : Value)
  | cut (v : Value)

def Reply.refuses : Reply → Bool
  | .refused _ => true
  | _ => false

/-! ### State -/

/-- A command, by its ticket, and since when it is where it is. -/
structure Job where
  ticket : ℕ
  cmd : CmdInner
  since : ℕ

/-- A spawned command that runs; a summary backfill replies before it is done. -/
structure Task where
  job : Job
  told : Bool

inductive Phase where
  /-- The backends are set up first. -/
  | booting
  | idle
  | busy (job : Job)
  /-- Every sender is gone and the channel is empty.  What was spawned and has not ended goes down with the loop: it
  stays where it is and does not end. -/
  | drained
  /-- A handler in the loop panicked: the process goes down. -/
  | crashed

def Phase.serves : Phase → Bool
  | .idle | .busy _ => true
  | _ => false

def Phase.over : Phase → Bool
  | .drained | .crashed => true
  | _ => false

def Phase.hand : Phase → List Job
  | .busy job => [job]
  | _ => []

/-- How a command came to its end. -/
inductive End where
  | refused
  /-- A search whose caller had gone. -/
  | skipped
  | ran (answered : Bool)
  deriving DecidableEq

structure World where
  now : ℕ
  phase : Phase
  /-- Every sender is gone. -/
  closed : Bool
  channel : List Job
  /-- Searches spawned, but not at the gate yet. -/
  fresh : List Job
  /-- Searches waiting at the gate. -/
  gate : List Job
  permits : ℕ
  running : List Job
  slots : ℕ
  tasks : List Task
  flights : Flight → Bool
  /-- `monotonic_secs` of the last command the loop is done with; 0 before the first. -/
  progress : ℕ
  /-- When the pinger last ticked. -/
  ticked : ℕ
  /-- Callers that no longer wait. -/
  gone : List ℕ
  /-- The next ticket. -/
  next : ℕ
  /-- What follows is read by no step: the commands received, the searches spawned and those that had their turn at the
  gate, the handlers begun, the replies sent, the commands at their end, and when `progress` was written. -/
  received : List ℕ
  searches : List ℕ
  turns : List ℕ
  began : List ℕ
  answers : List (ℕ × Reply)
  ended : List (ℕ × End)
  stamped : ℕ

/-- The server at its start. -/
def World.start (now : ℕ) : World where
  now
  phase := .booting
  closed := false
  channel := []
  fresh := []
  gate := []
  permits := searchConcurrency
  running := []
  slots := searchBacklogMax
  tasks := []
  flights _ := false
  progress := 0
  ticked := now
  gone := []
  next := 0
  received := []
  searches := []
  turns := []
  began := []
  answers := []
  ended := []
  stamped := now

/-! ### What the parties do -/

/-- How a handler comes to its end. -/
inductive Outcome where
  | made (v : Value)
  /-- Its deadline is over; the counters are read for the reply of stats. -/
  | cut (pod : Value)
  | panicked

/-- What a handler that ends now replies: `none` where it cannot end so, `some none` where its reply is dropped. -/
def Outcome.reply (hash : String → String) (now : ℕ) (job : Job) : Outcome → Option (Option Reply)
  | .made v => some (some (.made v))
  | .cut pod =>
    match job.cmd.cutAfter with
    | some d => if job.since + d ≤ now then some (some (.cut (timedOut hash pod job.cmd d))) else none
    | none => none
  | .panicked => some none

namespace World

variable (w : World)

/-- The heartbeat of the watchdog. -/
def stamp : World := { w with progress := w.now / 1000 + 1, stamped := w.now }

def answer (n : ℕ) (r : Reply) : World := { w with answers := (n, r) :: w.answers }

def finish (n : ℕ) (e : End) : World := { w with ended := (n, e) :: w.ended }

/-- A handler has ended, with a reply or without. -/
def settle (n : ℕ) : Option Reply → World
  | some r => (w.answer n r).finish n (.ran true)
  | none => w.finish n (.ran false)

def refuse (n : ℕ) (v : Value) : World := (w.answer n (.refused v)).finish n .refused

def begin (n : ℕ) : World := { w with began := n :: w.began }

def spawn (job : Job) : World := { w.begin job.ticket with tasks := w.tasks ++ [⟨job, false⟩] }

/-- Non-blocking send into the channel. -/
def tryDispatch (cmd : CmdInner) : Except RpcError World :=
  if w.phase.over then .error (-32000, "Service unavailable")
  else if w.channel.length = cmdChannelCap then .error (-32000, "Service overloaded, try again later")
  else .ok { w with channel := w.channel ++ [⟨w.next, cmd, w.now⟩], next := w.next + 1 }

/-- What the loop does with a command it received. -/
def pickUp (job : Job) : World :=
  match job.cmd.arm with
  | .ping => (((w.begin job.ticket).answer job.ticket (.made pong)).finish job.ticket (.ran true)).stamp
  | .inline => { w.begin job.ticket with phase := .busy job }
  | .search =>
    if w.slots = 0 then (w.refuse job.ticket searchBacklogFull).stamp
    else { w with
      slots := w.slots - 1, fresh := w.fresh ++ [job], searches := w.searches ++ [job.ticket] }.stamp
  | .spawned => (w.spawn job).stamp
  | .flight f =>
    if w.flights f then (w.refuse job.ticket (alreadyRunning f)).stamp
    else { w.spawn job with flights := Function.update w.flights f true }.stamp

def receive : Option World :=
  match w.phase, w.channel with
  | .idle, job :: rest =>
    some ({ w with channel := rest, received := w.received ++ [job.ticket] }.pickUp { job with since := w.now })
  | _, _ => none

/-- The handler that the loop awaits comes to its end. -/
def complete (hash : String → String) (o : Outcome) : Option World :=
  match w.phase, o with
  | .busy job, .panicked => some { w.settle job.ticket none with phase := .crashed }
  | .busy job, o => (o.reply hash w.now job).map fun r => { w.settle job.ticket r with phase := .idle }.stamp
  | _, _ => none

/-- A spawned search is polled for the first time. -/
def reach (i : ℕ) : Option World :=
  match w.fresh[i]? with
  | some job => if w.phase.serves then some { w with fresh := w.fresh.eraseIdx i, gate := w.gate ++ [job] } else none
  | none => none

/-- The first search at the gate gets in; one whose caller has gone gives its permit and its slot back at once. -/
def enter : Option World :=
  match w.gate with
  | job :: rest =>
    if w.phase.serves = false ∨ w.permits = 0 then none
    else
      let turned := { w with gate := rest, turns := w.turns ++ [job.ticket] }
      if job.ticket ∈ w.gone then some ({ turned with slots := w.slots + 1 }.finish job.ticket .skipped)
      else some ({ turned with
        permits := w.permits - 1, running := { job with since := w.now } :: w.running }.begin job.ticket)
  | [] => none

/-- A search comes to its end: however it does, its permit and its slot are given back. -/
def leaveGate (hash : String → String) (i : ℕ) (o : Outcome) : Option World :=
  match w.running[i]? with
  | some job =>
    if w.phase.serves then
      (o.reply hash w.now job).map fun r =>
        { w with running := w.running.eraseIdx i, permits := w.permits + 1, slots := w.slots + 1 }.settle job.ticket r
    else none
  | none => none

/-- A summary backfill replies how many memories it queued, and goes on. -/
def tell (i : ℕ) (v : Value) : Option World :=
  match w.tasks[i]? with
  | some ⟨⟨n, .backfillSummaries limit, since⟩, false⟩ =>
    if w.phase.serves then
      some ({ w with tasks := w.tasks.set i ⟨⟨n, .backfillSummaries limit, since⟩, true⟩ }.answer n (.made v))
    else none
  | _ => none

/-- A flag is cleared by the guard that the task of its pass holds. -/
def clear : Arm → World
  | .flight f => { w with flights := Function.update w.flights f false }
  | _ => w

/-- A spawned command other than a search comes to its end. -/
def quit (hash : String → String) (i : ℕ) (o : Outcome) : Option World :=
  match w.tasks[i]? with
  | some task =>
    if w.phase.serves then
      let rest := { w with tasks := w.tasks.eraseIdx i }.clear task.job.cmd.arm
      if task.told then some (rest.finish task.job.ticket (.ran true))
      else
        match o, task.job.cmd with
        | .made _, .backfillSummaries _ => none
        | o, _ => (o.reply hash w.now task.job).map (rest.settle task.job.ticket)
    else none
  | none => none

end World

/-- What can happen to a server. -/
inductive Event where
  | pass (d : ℕ)
  | boot
  | send (cmd : CmdInner)
  /-- The pinger ticks. -/
  | tick
  | leave (n : ℕ)
  | close
  | receive
  | complete (o : Outcome)
  | reach (i : ℕ)
  | enter
  | leaveGate (i : ℕ) (o : Outcome)
  | tell (i : ℕ) (v : Value)
  | quit (i : ℕ) (o : Outcome)
  | drain

namespace World

/-- A command that finds the channel full or closed is not sent. -/
def send (w : World) (cmd : CmdInner) : World := (w.tryDispatch cmd).toOption.getD w

def boot (w : World) : Option World :=
  match w.phase with
  | .booting => some { w with phase := .idle }.stamp
  | _ => none

/-- The loop ends once it finds the channel closed and empty. -/
def drain (w : World) : Option World :=
  match w.phase, w.closed, w.channel with
  | .idle, true, [] => some { w with phase := .drained }
  | _, _, _ => none

def apply (hash : String → String) (w : World) : Event → Option World
  | .pass d => some { w with now := w.now + d }
  | .boot => w.boot
  | .send cmd => if w.closed then none else some (w.send cmd)
  | .tick => if w.closed then none else some { w.send .ping with ticked := w.now }
  | .leave n => if n < w.next then some { w with gone := n :: w.gone } else none
  | .close => some { w with closed := true }
  | .receive => w.receive
  | .complete o => w.complete hash o
  | .reach i => w.reach i
  | .enter => w.enter
  | .leaveGate i o => w.leaveGate hash i o
  | .tell i v => w.tell i v
  | .quit i o => w.quit hash i o
  | .drain => w.drain

end World

/-- One event of a server. -/
def Step (hash : String → String) (w : World) (e : Event) (w' : World) : Prop := w.apply hash e = some w'

end Worker

end Alaya
