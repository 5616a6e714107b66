import Alaya.Core.Supersede

/-!
# Storing and deleting memories

`storeMemoryMode` is the store of every caller: embed, look for a duplicate and for neighbours, write
the point, then the graph node and the edges of the neighbours that contradict or relate.  A
read-only store writes the point alone, and only a new one.
-/

namespace Alaya

open Json Interleave

/-- A sign that a stored memory contradicts the new one. -/
structure ContradictionSignal where
  existingHash : String
  confidence : ℚ
  signalType : String
  detail : String
  deriving DecidableEq

/-- What the service computes without a call: hashes, scores and signals. -/
structure Components where
  generateContentHash : String → String
  computeSalience : Option Object → ℚ
  captureEncodingContext : List String → ℚ → Object
  buildProvenance : Option String → ℚ → Object
  detectContradictionSignals : String → Memory → ℚ → List ContradictionSignal

/-- Hits of the store-path neighbour search. -/
def neighbourSearchK : ℕ := 20

/-- Nearest other memories interference detection weighs. -/
def detectionWindow : ℕ := 9

/-- Live neighbours a store reports. -/
def maxStoreNeighbours : ℕ := 5

/-- The double nearest 0.7: from here on a neighbour may contradict. -/
def contradictsFrom : ℚ := 3152519739159347 / 4503599627370496

/-- The double nearest 0.4: from here on a neighbour is related. -/
def relatesFrom : ℚ := 3602879701896397 / 9007199254740992

/-- What a store reports. -/
inductive StoreReport where
  | duplicate (contentHash existingHash : String) (similarity : ℚ)
  | stored (contentHash memoryType : String) (created : Bool) (tags : List String)
      (neighbours : Option (List ScoredMemory)) (contradictions : List ContradictionSignal)

namespace Vectors

open Alaya.Flow

/-- Store a memory's point. -/
def store (params : StoreParams) (ctx : StoreContext) (mode : StoreMode) : Flow (Bool × String) := do
  let pointId ← ofExcept (hashToUuid ctx.contentHash)
  let updated ← vectors (.update (.store params ctx mode) pointId)
  ofExcept (storeResult ctx.contentHash (some updated.update))

end Vectors

namespace MemoryService

open Alaya.Flow

/-- The edges a new memory gets from the hits of its window. -/
def interferenceEdges (signals : ScoredMemory → List ContradictionSignal) (contentHash : String)
    (now : ℚ) (window : List ScoredMemory) : List Bridge.TypedEdge :=
  ((window.filter fun s => !s.memory.isSuperseded && contradictsFrom ≤ s.score).flatMap fun s =>
    (signals s).map fun signal =>
      ⟨contentHash, signal.existingHash, .contradicts, now, some signal.confidence⟩) ++
  (window.filter fun s => relatesFrom ≤ s.score && s.score < contradictsFrom).map fun s =>
    ⟨contentHash, s.memory.contentHash, .relatesTo, now, none⟩

/-- The near-duplicate a store is skipped for. -/
def nearDuplicate (embedding : List ℚ) : Option ℚ → Flow (Option ScoredMemory)
  | none => pure none
  | some threshold => do
    let similar ← attempt (query (.searchByVector embedding 5 {}))
    let top := (similar.toOption.getD []).find? fun s : ScoredMemory => !s.memory.isSuperseded
    return top.filter fun s => threshold ≤ s.score

/-- The neighbour search of a store; `none` when it is not made, or fails. -/
def neighbourSearch (embedding : List ℚ) (readOnly : Bool) : Flow (Option (List ScoredMemory)) := do
  if readOnly then return none
  let similar ← attempt (query (.searchByVector embedding neighbourSearchK {}))
  return similar.toOption

/-- The graph node of a stored memory, then its edges; each non-fatal. -/
def linkStored (contentHash : String) (edges : List Bridge.TypedEdge) : Flow Unit := do
  let _ ← attempt (graph (.ensureNode contentHash))
  if edges = [] then return ()
  let _ ← attempt (Bridge.createTypedBatch edges)
  return ()

def alreadyExists (contentHash : String) : AlayaError :=
  .validation ("memory " ++ contentHash ++
    " already exists; read-only principals may only add new memories")

/-- The record a store writes. -/
def storeContext (lib : Components) (params : StoreParams) (now : ℚ) (embedding : List ℚ)
    (live : List ScoredMemory) : StoreContext where
  now := now
  contentHash := lib.generateContentHash params.content
  embedding := embedding
  salienceScore := lib.computeSalience params.metadataWithCitations
  encodingContext := lib.captureEncodingContext (params.tags.getD []) now
  provenance := lib.buildProvenance params.clientHostname now
  nearestSimilarity := live.head?.map ScoredMemory.score

/-- What a store does once its embedding and its neighbours are known. -/
def storePoint (lib : Components) (params : StoreParams) (readOnly insertOnly : Bool) (now : ℚ)
    (embedding : List ℚ) (similar : Option (List ScoredMemory)) : Flow (Option StoreReport) := do
  let contentHash := lib.generateContentHash params.content
  let others := (similar.getD []).filter fun s => s.memory.contentHash ≠ contentHash
  let live := others.filter fun s => !s.memory.isSuperseded
  let signals := fun s : ScoredMemory =>
    lib.detectContradictionSignals params.content s.memory s.score
  let mode : StoreMode := if insertOnly || readOnly then .insertOnly else .upsert
  let (created, _) ← Vectors.store params (storeContext lib params now embedding live) mode
  if readOnly && !created then throw (alreadyExists contentHash)
  if insertOnly && !created then return none
  let window := others.take detectionWindow
  if !readOnly then
    linkStored contentHash (if similar.isSome then
      interferenceEdges signals contentHash now window else [])
  let contradictions :=
    (window.filter fun s => !s.memory.isSuperseded && contradictsFrom ≤ s.score).flatMap signals
  return some (.stored contentHash (params.memoryType.getD "note") created (params.tags.getD [])
    (similar.map fun _ => live.take maxStoreNeighbours) contradictions)

def storeMemoryMode (lib : Components) (params : StoreParams) (readOnly insertOnly : Bool)
    (now : ℚ) : Flow (Option StoreReport) := do
  if params.content.isEmpty then throw (.validation "content cannot be empty")
  let _ ← ofExcept (checked params.validate)
  let some embedding ← query (.embed params.content)
    | throw (.embedding "embedding service returned empty result")
  match ← nearDuplicate embedding params.dedupThreshold with
  | some top =>
    return some (.duplicate (lib.generateContentHash params.content) top.memory.contentHash top.score)
  | none =>
    let similar ← neighbourSearch embedding readOnly
    storePoint lib params readOnly insertOnly now embedding similar

/-- The store of a caller; under `readOnly` it only adds. -/
def storeMemoryWith (lib : Components) (params : StoreParams) (readOnly : Bool) (now : ℚ) :
    Flow StoreReport := do
  let some report ← storeMemoryMode lib params readOnly readOnly now
    | throw (.storage "insert-only store created nothing")
  return report

/-- Delete a memory's point, then its node; whether the point's delete was taken. -/
def deleteMemory (contentHash : String) : Flow Bool :=
  if !validateContentHash contentHash then throw (.validation "invalid content_hash format")
  else do
    let deleted ← Vectors.delete contentHash
    let _ ← attempt (graph (.deleteNode contentHash))
    return deleted

end MemoryService

end Alaya
