import Alaya.Core.Service

/-!
# The bridge's handlers

The handlers of the bridge that run more than one statement, as programs of calls: the two batches,
which check every edge before they send the first, and the delete of one edge; and the two that choose
the statement they run, for a verdict and for a resolution.
-/

namespace Alaya

namespace Bridge

open Alaya.Flow

/-- A refused request, as its client reports it. -/
def unprocessable : AlayaError := .validation "Bridge: 422 Unprocessable Entity "

/-- A refused delete, as its client reports it. -/
def lockedEdge (source target : String) : AlayaError :=
  .conflict ("CONTRADICTS " ++ String.ofList (source.toList.take 8) ++ ".. -> " ++
    String.ofList (target.toList.take 8) ++
    ".. carries a verdict, a resolution or a refute's reason")

/-- Send the edges one after another; how many were bound. -/
def createSystemEach : List (String × String) → Flow ℕ
  | [] => pure 0
  | e :: edges => do
    let bound ← graph (.createSystemEdge e.1 e.2)
    let created ← createSystemEach edges
    return if 0 < (show ℕ from bound) then created + 1 else created

/-- `POST /edges/create-system-batch`. -/
def createSystemBatch (edges : List (String × String)) : Flow ℕ :=
  if edges.any fun e => !validateContentHash e.1 || !validateContentHash e.2 then
    throw unprocessable
  else createSystemEach edges

/-- An edge of `POST /edges/create-batch`. -/
structure TypedEdge where
  source : String
  target : String
  relationType : UserRelationType
  createdAt : ℚ
  confidence : Option ℚ
  deriving DecidableEq

def createTypedEach : List TypedEdge → Flow ℕ
  | [] => pure 0
  | e :: edges => do
    let bound ← graph (.createTypedEdge e.source e.target e.relationType e.createdAt e.confidence)
    let created ← createTypedEach edges
    return if 0 < (show ℕ from bound) then created + 1 else created

/-- `POST /edges/create-batch`. -/
def createTypedBatch (edges : List TypedEdge) : Flow ℕ :=
  if edges.any fun e => !validateContentHash e.source || !validateContentHash e.target then
    throw unprocessable
  else createTypedEach edges

/-- The guard of a delete: an edge that carries a verdict, a resolution or a refute's reason is
refused. -/
def refuseAudited (source target : String) : Flow Unit := do
  let guarded ← graph (.countAuditedContradiction source target)
  if 0 < (show ℕ from guarded) then throw (lockedEdge source target) else return ()

/-- `POST /edges/delete`.  The guard and the delete are two statements. -/
def deleteEdge (source target : String) (rel : UserRelationType) : Flow Bool :=
  if !validateContentHash source || !validateContentHash target then throw unprocessable
  else do
    if rel = .contradicts then refuseAudited source target
    let deleted ← graph (.deleteTypedEdge source target rel)
    return decide (0 < (show ℕ from deleted))

/-- `POST /contradictions/verdict`; whether there is such an edge. -/
def setVerdict (source target : String) (v : EdgeVerdict) : Flow Bool :=
  if !validateContentHash source || !validateContentHash target then throw unprocessable
  else if v.verdictSurvivor.any fun s => !validateContentHash s then throw unprocessable
  else if ¬(0 ≤ v.verdictConfidence ∧ v.verdictConfidence ≤ 1) then throw unprocessable
  else do
    let matched ← graph (.setContradictionVerdict source target v)
    return decide (0 < (show ℕ from matched))

/-- The statement of `POST /contradictions/resolution`: set or clear, set only where there is none, or
clear only this very stamp. -/
def resolutionStatement (source target : String) (resolution : Option Resolution)
    (resolvedVia : String) (resolvedAt : ℚ) (ifUnresolved ifStamped : Bool) : Flow ℕ :=
  match ifUnresolved, ifStamped, resolution with
  | false, false, resolution =>
    graph (.setContradictionResolution source target resolution resolvedVia resolvedAt)
  | true, false, some .keepBoth => graph (.settleContradiction source target resolvedVia resolvedAt)
  | false, true, none =>
    if resolvedVia.isEmpty then throw unprocessable
    else graph (.unsettleContradiction source target resolvedVia resolvedAt)
  | true, false, none | false, true, some _ | true, true, _ => throw unprocessable

/-- `POST /contradictions/resolution`; whether a statement matched. -/
def setResolution (source target : String) (resolution : Option Resolution) (resolvedVia : String)
    (resolvedAt : ℚ) (ifUnresolved ifStamped : Bool) : Flow Bool :=
  if !validateContentHash source || !validateContentHash target then throw unprocessable
  else if resolution.isSome && (trim resolvedVia).isEmpty then throw unprocessable
  else do
    let matched ← resolutionStatement source target resolution (trim resolvedVia) resolvedAt
      ifUnresolved ifStamped
    return decide (0 < matched)

end Bridge

end Alaya
