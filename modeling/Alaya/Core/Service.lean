import Alaya.Backends.Readers
import Alaya.Bridge.Graph
import Alaya.Cluster.Op
import Alaya.Lib.Program

/-!
# The two stores as the service calls them

A `Call` is one request to the vector store or to the graph, answered in one step; the operations of
the service are programs of calls.  An update of one point is one call: `updatePoints` may take
several rounds, and what it leaves on the point is what `Op.land` makes of the copy it committed over.
The bridge sends the edges of a batch one after another, so each edge is a call of its own.
-/

namespace Alaya

open Json Interleave

/-! ### The vector store -/

/-- What an update found on its point, restricted to the keys it reads, and what it did. -/
structure Updated where
  found : Option Payload
  update : Update

/-- What a write of the call answers when nothing comes between its read and its commit. -/
def UpdateCall.answer (call : UpdateCall) (mine : String) :
    Option Payload → Except AlayaError Updated
  | none =>
    match call.commit with
    | .upsert insert => .ok ⟨none, .landed (stamp mine insert none) true⟩
    | .payload .. => .ok ⟨none, .absent⟩
  | some p =>
    let prev := restrict call.readKeys p
    match call.modify prev with
    | .error e => .error e
    | .ok none => .ok ⟨some prev, .skipped⟩
    | .ok (some write) =>
      .ok ⟨some prev, .landed (call.commitOver p (stamp mine write (some prev))) false⟩

inductive VectorCall where
  | getByHash (contentHash : String)
  | getBatch (hashes : List String)
  | existingHashes (hashes : List String)
  /-- The payloads of some points, `none` where there is none. -/
  | retrieve (ids : List PointId)
  | update (op : Op) (id : PointId)
  | delete (contentHash : String)

def VectorCall.Answer : VectorCall → Type
  | getByHash _ => Option Memory
  | getBatch _ => List Memory
  | existingHashes _ => List String
  | retrieve _ => List (Option Payload)
  | update .. => Updated
  | delete _ => Bool

/-- The hashes whose point exists, whether or not its payload parses. -/
def existingHashes (points : Points) (hashes : List String) : Except AlayaError (List String) := do
  let ids ← hashes.mapM hashToUuid
  return ((hashes.zip ids).filter fun hi => (points hi.2).isSome).map Prod.fst

/-! ### The graph -/

inductive GraphCall where
  | ensureNode (hash : String)
  | deleteNode (hash : String)
  | createSystemEdge (src dst : String)
  | deleteIncomingSystemEdges (dst : String)
  | createTypedEdge (src dst : String) (rel : UserRelationType) (ts : ℚ) (confidence : Option ℚ)
  | deleteTypedEdge (src dst : String) (rel : UserRelationType)
  | countAuditedContradiction (src dst : String)
  | linkRefutation (src dst : String) (ts : ℚ) (reason : String)
  | setContradictionVerdict (src dst : String) (v : EdgeVerdict)
  | setContradictionResolution (src dst : String) (resolution : Option Resolution)
      (resolvedVia : String) (resolvedAt : ℚ)
  | settleContradiction (src dst resolvedVia : String) (resolvedAt : ℚ)
  | unsettleContradiction (src dst resolvedVia : String) (resolvedAt : ℚ)
  | listMemoryNodes (after : String) (limit : ℕ)
  | sweepMarkMemoryNodes (hashes : List String) (token : String)
  | sweepDeleteMarkedNodes (hashes : List String) (token : String)

namespace GraphCall

def Answer : GraphCall → Type
  | ensureNode _ | deleteNode _ | sweepMarkMemoryNodes .. => Unit
  | deleteIncomingSystemEdges _ => Finset String
  | linkRefutation .. => Option String
  | listMemoryNodes .. => List String
  | createSystemEdge .. | createTypedEdge .. | deleteTypedEdge .. | countAuditedContradiction ..
  | setContradictionVerdict .. | setContradictionResolution .. | settleContradiction ..
  | unsettleContradiction .. | sweepDeleteMarkedNodes .. => ℕ

/-- Run one statement. -/
def exec : (c : GraphCall) → Graph → c.Answer × Graph
  | ensureNode hash, g => ((), g.ensureNode hash)
  | deleteNode hash, g => ((), g.deleteNode hash)
  | createSystemEdge src dst, g => g.createSystemEdge src dst
  | deleteIncomingSystemEdges dst, g => g.deleteIncomingSystemEdges dst
  | createTypedEdge src dst rel ts confidence, g => g.createTypedEdge src dst rel ts confidence
  | deleteTypedEdge src dst rel, g => g.deleteTypedEdge src dst rel
  | countAuditedContradiction src dst, g => (g.countAuditedContradiction src dst, g)
  | linkRefutation src dst ts reason, g => g.linkRefutation src dst ts reason
  | setContradictionVerdict src dst v, g => g.setContradictionVerdict src dst v
  | setContradictionResolution src dst resolution via ts, g =>
    g.setContradictionResolution src dst resolution via ts
  | settleContradiction src dst via ts, g => g.settleContradiction src dst via ts
  | unsettleContradiction src dst via ts, g => g.unsettleContradiction src dst via ts
  | listMemoryNodes after limit, g => (g.listMemoryNodes after limit, g)
  | sweepMarkMemoryNodes hashes token, g => ((), g.sweepMarkMemoryNodes hashes token)
  | sweepDeleteMarkedNodes hashes token, g => g.sweepDeleteMarkedNodes hashes token

end GraphCall

/-! ### Queries -/

structure ScoredMemory where
  memory : Memory
  score : ℚ
  deriving DecidableEq

/-- What a search asks the vector store to filter by. -/
structure PayloadFilter where
  memoryType : Option String := none
  minTrustScore : Option ℚ := none
  maxCreatedAt : Option ℚ := none

/-- A page of a scroll and where the next one starts. -/
structure ScrollPage where
  memories : List Memory
  nextOffset : Option String

/-- A request that only asks: an embedding, a search or a scroll of the vector store, a ranking read
of the graph, a rerank. -/
inductive Query where
  | embed (text : String)
  | searchByVector (embedding : List ℚ) (limit : ℕ) (filter : PayloadFilter)
  | searchByText (query : String) (limit : ℕ) (filter : PayloadFilter)
  | searchByTags (tags : List String) (matchAll : Bool) (limit : ℕ)
  | getAll (limit : ℕ) (offset : Option String)
  | getRecent (limit : ℕ) (cursor : Option ℚ) (memoryType : Option String)
  | count
  | spreadingActivation (seeds : List String)
  | hebbianBoostsWithin (hashes : List String)
  | contradictionsForHashes (hashes : List String)
  | rerank (query : String) (contents : List String)

def Query.Answer : Query → Type
  | embed _ => Option (List ℚ)
  | searchByVector .. | searchByText .. | searchByTags .. => List ScoredMemory
  | getAll .. => ScrollPage
  | getRecent .. => List Memory
  | count => ℕ
  | spreadingActivation _ | hebbianBoostsWithin _ => List (String × ℚ)
  | contradictionsForHashes _ => List (String × String × Link)
  | rerank .. => List ℚ

/-- A pair of neighbours on a search page. -/
structure CoAccessPair where
  src : String
  dst : String
  timestamp : ℚ
  deriving DecidableEq

/-! ### The calls together -/

inductive Call where
  | vectors (c : VectorCall)
  | graph (c : GraphCall)
  | query (q : Query)
  /-- Queue the pairs of a search page to be strengthened. -/
  | enqueueStrengthen (pairs : List CoAccessPair)

def Call.Answer : Call → Type
  | vectors c => c.Answer
  | graph c => c.Answer
  | query q => q.Answer
  | enqueueStrengthen _ => Unit

/-- A call is answered, or it fails. -/
abbrev Reply (c : Call) : Type := Except AlayaError c.Answer

/-- The vectors of a point: its embedding, and the text its keyword vector is made from. -/
structure PointVectors where
  embedding : List ℚ
  content : String
  deriving DecidableEq

/-- The vectors an operation writes with its payload. -/
def Op.vectors : Op → Option PointVectors
  | .store params ctx _ => some ⟨ctx.embedding, params.content⟩
  | _ => none

/-- The state of both stores and of the queue, the client and the number of the next write's token,
and what the queries are answered. -/
structure Service where
  points : Points
  vectors : PointId → Option PointVectors
  graph : Graph
  coAccess : List CoAccessPair
  client : Client
  writes : ℕ
  answer : (q : Query) → Points → Graph → Except AlayaError q.Answer

namespace Service

/-- The token of the next write. -/
def mine (s : Service) : String := token s.client s.writes

/-- The state after an update left `p` on a point. -/
def write (s : Service) (op : Op) (id : PointId) (p : Payload) : Service :=
  { s with
    points := Function.update s.points id (some p)
    vectors := Function.update s.vectors id (op.vectors.or (s.vectors id))
    writes := s.writes + 1 }

/-- The state after a delete of a point. -/
def erase (s : Service) (id : PointId) : Service :=
  { s with
    points := Function.update s.points id none
    vectors := Function.update s.vectors id none }

/-- One update of one point. -/
def update (op : Op) (id : PointId) (s : Service) : Except AlayaError Updated × Service :=
  match op.call with
  | .error e => (.error e, s)
  | .ok call =>
    (call.answer s.mine (s.points id),
      match call.land s.mine (s.points id) with
      | some p => s.write op id p
      | none => s)

def delete (contentHash : String) (s : Service) : Except AlayaError Bool × Service :=
  match Alaya.delete contentHash with
  | .error e => (.error e, s)
  | .ok id => (.ok true, s.erase id)

def serveVectors : (c : VectorCall) → Service → Except AlayaError c.Answer × Service
  | .getByHash contentHash, s => (Alaya.getByHash s.points contentHash, s)
  | .getBatch hashes, s => (Alaya.getBatch s.points hashes, s)
  | .existingHashes hashes, s => (Alaya.existingHashes s.points hashes, s)
  | .retrieve ids, s => (.ok (ids.map s.points), s)
  | .update op id, s => s.update op id
  | .delete contentHash, s => s.delete contentHash

/-- The stores answer without a failure of their own. -/
def serve : (c : Call) → Service → Reply c × Service
  | .vectors c, s => s.serveVectors c
  | .graph c, s => (.ok (c.exec s.graph).1, { s with graph := (c.exec s.graph).2 })
  | .query q, s => (s.answer q s.points s.graph, s)
  | .enqueueStrengthen pairs, s => (.ok (), { s with coAccess := s.coAccess ++ pairs })

end Service

/-- A program of calls that may end in an error. -/
abbrev Flow (α : Type) : Type := ExceptT AlayaError (Program Reply) α

namespace Flow

variable {α β : Type}

/-- Make one call; an error ends the program. -/
def ask (c : Call) : Flow c.Answer := ExceptT.mk (Program.ask c)

def vectors (c : VectorCall) : Flow c.Answer := ask (.vectors c)

def graph (c : GraphCall) : Flow c.Answer := ask (.graph c)

def query (q : Query) : Flow q.Answer := ask (.query q)

/-- What a part of a program ends in, its error included. -/
def attempt (p : Flow α) : Flow (Except AlayaError α) := ExceptT.mk (Except.ok <$> p.run)

/-- A program of a pool, whose result nobody reads. -/
def detach (p : Flow α) : Program Reply Unit := p.run >>= fun _ => .done ()

variable {P : Call → Prop}

theorem makes_ask {c : Call} (h : P c) : (ask c).run.Makes P := ⟨h, fun _ => trivial⟩

theorem makes_attempt {p : Flow α} (h : p.run.Makes P) : (attempt p).run.Makes P :=
  Program.Makes.bind h fun _ => trivial

section

variable {serve : Server Reply Service} {s : Service}

theorem wp_ask {c : Call} {Q : Reply c → Service → Prop} :
    Program.wp serve (ask c).run Q s ↔ Q (serve c s).1 (serve c s).2 := .rfl

/-- A part whose error is caught. -/
theorem wp_attempt {p : Flow α} {Q : Except AlayaError (Except AlayaError α) → Service → Prop} :
    Program.wp serve (attempt p).run Q s ↔ Program.wp serve p.run (fun r => Q (.ok r)) s :=
  Program.wp_bind

end

theorem makes_detach {p : Flow α} (h : p.run.Makes P) : p.detach.Makes P :=
  Program.Makes.bind h fun _ => trivial

end Flow

end Alaya
