import Alaya.Cluster.Op
import Alaya.Lib.Run
import Mathlib.Logic.Function.Basic

/-!
# Processes that share the collection

Any number of clients run any number of `updatePoints` calls against one collection, next to deletes.
One `step` is one answer of the collection or one event outside it: a point read, a write evaluated,
a point read back, a request that failed on its way or on its way back, a call dropped by its caller
(a write it sent may still arrive), a delete.  The in-process locks are left out: without them every
interleaving they allow is there, and more.

Each step emits an `Event`; a run's trace is the list of its events.
-/

namespace Alaya

open Json Labelled

abbrev TaskId := ℕ

/-- A call and who makes it. -/
structure Caller where
  client : Client
  op : Op
  call : UpdateCall
  wf : op.call = .ok call

/-- A call in progress. -/
structure Task extends Caller where
  progress : Progress

/-- A write that was sent and never answered: it may still arrive. -/
structure InFlight extends Caller where
  task : TaskId
  write : Write

structure World where
  points : PointId → Option Payload
  /-- The number of writes each client has stamped. -/
  writes : Client → ℕ
  tasks : TaskId → Option Task
  inFlight : List InFlight

inductive Event where
  /-- A call read a point, in the round given. -/
  | read (task : TaskId) (round : ℕ) (id : PointId) (found : Option Payload)
  /-- A write applied to a point that held `before`. -/
  | wrote (task : TaskId) (op : Op) (w : Write) (before : Option Payload) (after : Payload)
  /-- A write was evaluated and did not apply. -/
  | rejected (task : TaskId) (op : Op) (w : Write)
  /-- A call read a point back after its write. -/
  | readBack (task : TaskId) (op : Op) (w : Write) (found : Option Payload)
  /-- A delete removed a point. -/
  | erased (id : PointId)
  | quiet
  deriving DecidableEq

inductive Action where
  | spawn (task : TaskId) (client : Client) (op : Op)
  | read (task : TaskId)
  | send (task : TaskId)
  /-- The send failed; when `reached`, the request may still arrive. -/
  | sendFails (task : TaskId) (reached : Bool) (e : AlayaError)
  | readBack (task : TaskId)
  /-- A read or a read-back failed. -/
  | readFails (task : TaskId) (e : AlayaError)
  /-- The caller drops the call; when `sent`, its current write may still arrive. -/
  | drop (task : TaskId) (sent : Bool)
  /-- The `i`-th write in flight arrives. -/
  | arrive (i : ℕ)
  | delete (contentHash : String)

namespace World

def setTask (w : World) (task : TaskId) (t : Task) : World :=
  { w with tasks := Function.update w.tasks task (some t) }

def setPoint (w : World) (id : PointId) (p : Option Payload) : World :=
  { w with points := Function.update w.points id p }

@[simp] theorem tasks_setTask_self (w : World) (task : TaskId) (t : Task) :
    (w.setTask task t).tasks task = some t := by
  simp [setTask]

theorem tasks_setTask_of_ne {task task' : TaskId} (h : task' ≠ task) (w : World) (t : Task) :
    (w.setTask task t).tasks task' = w.tasks task' := by
  simp [setTask, h]

@[simp] theorem points_setTask (w : World) (task : TaskId) (t : Task) :
    (w.setTask task t).points = w.points := rfl

@[simp] theorem tasks_setPoint (w : World) (id : PointId) (p : Option Payload) :
    (w.setPoint id p).tasks = w.tasks := rfl

@[simp] theorem points_setPoint_self (w : World) (id : PointId) (p : Option Payload) :
    (w.setPoint id p).points id = p := by
  simp [setPoint]

theorem points_setPoint_of_ne {id id' : PointId} (h : id' ≠ id) (w : World) (p : Option Payload) :
    (w.setPoint id p).points id' = w.points id' := by
  simp [setPoint, h]

/-- The collection evaluates a write. -/
def evaluate (w : World) (task : TaskId) (caller : Caller) (write : Write) : Event × World :=
  match (caller.call.request write).evaluate (w.points write.id) with
  | some p =>
    (.wrote task caller.op write (w.points write.id) p, w.setPoint write.id (some p))
  | none => (.rejected task caller.op write, w)

end World

namespace Task

def withPhase (t : Task) (phase : Phase) : Task :=
  { t with progress := { t.progress with phase } }

def withProgress (t : Task) (progress : Progress) : Task := { t with progress }

/-- A call that starts its first round. -/
def start (caller : Caller) : Task :=
  { caller with progress := UpdateCall.startRound 0 caller.call.pending [] }

/-- The first write still to be sent, and the others. -/
def current (t : Task) : Option (Write × List Write × List Write) :=
  match t.progress.phase with
  | .writing written (w :: left) => some (w, written, left)
  | _ => none

end Task

def InFlight.of (task : TaskId) (t : Task) (write : Write) : InFlight :=
  { t.toCaller with task, write }

namespace World

def stepRead (w : World) (task : TaskId) : Option (Event × World) := do
  let t ← w.tasks task
  match t.progress.phase with
  | .reading got (id :: left) =>
    let found := (w.points id).map (restrict t.call.readKeys)
    let got := got ++ [(id, found)]
    let event := Event.read task t.progress.round id found
    match left with
    | _ :: _ => return (event, w.setTask task (t.withPhase (.reading got left)))
    | [] =>
      let (n, progress) := t.call.afterReads t.client (w.writes t.client) t.progress.round
        t.progress.outcome got
      return (event, { w.setTask task (t.withProgress progress) with
        writes := Function.update w.writes t.client n })
  | _ => none

def stepSend (w : World) (task : TaskId) : Option (Event × World) := do
  let t ← w.tasks task
  let (write, written, left) ← t.current
  let (event, w') := w.evaluate task t.toCaller write
  return (event, w'.setTask task (t.withProgress
    (UpdateCall.afterSend t.progress.round t.progress.outcome (written ++ [write]) left)))

def stepSendFails (w : World) (task : TaskId) (reached : Bool) (e : AlayaError) :
    Option (Event × World) := do
  let t ← w.tasks task
  let (write, written, left) ← t.current
  let outcome := t.progress.outcome ++ [(write.id, .unconfirmed (.sendFailed e))]
  let w' := w.setTask task
    (t.withProgress (UpdateCall.afterSend t.progress.round outcome written left))
  return (.quiet, if reached then { w' with inFlight := .of task t write :: w'.inFlight } else w')

def stepReadBack (w : World) (task : TaskId) : Option (Event × World) := do
  let t ← w.tasks task
  match t.progress.phase with
  | .readingBack (write :: left) lost =>
    let back := (w.points write.id).map (restrict t.call.backKeys)
    return (.readBack task t.op write back, w.setTask task (t.withProgress
      (UpdateCall.afterReadBack t.progress.round t.progress.outcome write left lost back)))
  | _ => none

def stepReadFails (w : World) (task : TaskId) (e : AlayaError) : Option (Event × World) := do
  let t ← w.tasks task
  match t.progress.phase with
  | .reading .. | .readingBack .. =>
    return (.quiet, w.setTask task (t.withPhase (.returned (.error e))))
  | _ => none

def stepDrop (w : World) (task : TaskId) (sent : Bool) : Option (Event × World) := do
  let t ← w.tasks task
  let w' := w.setTask task (t.withPhase .dropped)
  match t.progress.phase, sent with
  | .returned _, _ | .dropped, _ => none
  | .writing _ (write :: _), true =>
    return (.quiet, { w' with inFlight := .of task t write :: w'.inFlight })
  | _, _ => return (.quiet, w')

def stepArrive (w : World) (i : ℕ) : Option (Event × World) := do
  let s ← w.inFlight[i]?
  let (event, w') := w.evaluate s.task s.toCaller s.write
  return (event, { w' with inFlight := w'.inFlight.eraseIdx i })

def stepDelete (w : World) (contentHash : String) : Option (Event × World) :=
  match Alaya.delete contentHash with
  | .error _ => none
  | .ok id =>
    match w.points id with
    | some _ => some (.erased id, w.setPoint id none)
    | none => some (.quiet, w)

def stepSpawn (w : World) (task : TaskId) (client : Client) (op : Op) : Option (Event × World) :=
  match w.tasks task with
  | some _ => none
  | none =>
    match h : op.call with
    | .error _ => none
    | .ok call => some (.quiet, w.setTask task (.start ⟨client, op, call, h⟩))

def step (w : World) : Action → Option (Event × World)
  | .spawn task client op => w.stepSpawn task client op
  | .read task => w.stepRead task
  | .send task => w.stepSend task
  | .sendFails task reached e => w.stepSendFails task reached e
  | .readBack task => w.stepReadBack task
  | .readFails task e => w.stepReadFails task e
  | .drop task sent => w.stepDrop task sent
  | .arrive i => w.stepArrive i
  | .delete contentHash => w.stepDelete contentHash

end World

end Alaya
