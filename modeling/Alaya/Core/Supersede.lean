import Alaya.Backends.Vectors
import Alaya.Bridge.Handlers

/-!
# Superseding memories and reversing it

`markSuperseded` writes the markers, then the SUPERSEDES edges; `memorySupersede` and
`mergeDuplicates` are its callers.  `memoryUnsupersede` settles the CONTRADICTS pair, deletes the
edges into the memory, reverses the marker, and sweeps the edges again.  The clock a call reads comes
in as an argument.
-/

namespace Alaya

open Json Interleave

/-! ### Markers -/

/-- The supersession marker of a memory, in whatever shape it was stored. -/
def Memory.supersessionMarker (m : Memory) : Option Value :=
  m.metadata.bind fun md => md.get supersededByKey

def Memory.isSuperseded (m : Memory) : Bool := m.supersessionMarker.isSome

/-- The memory a marker on `hash` names, when it names another valid one. -/
def survivorOf (marker : Value) (hash : String) : Option String :=
  marker.asStr.filter fun s => validateContentHash s && s ≠ hash

/-! ### Caller input -/

def maxViaLen : ℕ := 128

/-- Cap on the reason of a reversal: it is stored on the memory for good. -/
def maxUnsupersedeReasonLen : ℕ := 2000

/-- The `resolved_via` of the pairs a reversal settles. -/
def unsupersedeResolvedVia : String := "unsupersede"

def requireVia (field raw : String) : Except AlayaError String :=
  let via := trim raw
  if via.isEmpty ∨ maxViaLen < via.utf8ByteSize then
    .error (.validation (field ++ " is required (1..=" ++ toString maxViaLen ++
      " chars, e.g. operator:console)"))
  else .ok via

/-- The trimmed reason of a reversal or a refute: counted in characters. -/
def requireReason (raw : String) : Except String String :=
  let reason := trim raw
  if reason.isEmpty ∨ maxUnsupersedeReasonLen < reason.length then
    .error ("reason is required (1..=" ++ toString maxUnsupersedeReasonLen ++
      " chars): it is the audit record")
  else .ok reason

def invalidContentHash : AlayaError :=
  .validation "invalid content_hash: expected 64-char lowercase SHA-256 hex"

/-! ### Superseding -/

/-- A supersession that failed part-way. -/
structure SupersedeFailure where
  /-- Memories that carry the marker anyway. -/
  marked : List String
  /-- Memories whose outcome could not be read back. -/
  inDoubt : List String
  error : AlayaError

def supersedeOutcomeUnknown : String :=
  "Outcome unknown: this memory may already be superseded without its audit edge. " ++
    "Retry the same call; it is idempotent and converges."

/-- What a supersede reports. -/
structure SupersedeReport where
  superseded : String
  supersededBy : String
  reason : String
  deriving DecidableEq

/-- What a merge reports. -/
structure MergeReport where
  canonicalHash : String
  superseded : List String
  /-- The duplicates that were not superseded, and why. -/
  errors : List (String × String)
  dryRun : Bool

/-- What a reversal reports. -/
inductive UnsupersedeReport where
  | notSuperseded
  | unsuperseded (supersededBy : Value) (supersessionReason : Option Value) (reason via : String)
      (atTime : ℚ) (edgesRemoved : List String) (contradictionsStamped : List (String × String))
      (nowSupersededBy : Option Value)
  /-- Superseded again while being restored; nothing reversed. -/
  | supersededByChanged (supersededBy : Value)
  deriving DecidableEq

namespace MemoryService

open Alaya.Flow

/-- One batched write of `newHash -> old` SUPERSEDES edges; non-fatal. -/
def writeSupersedesEdges (oldHashes : List String) (newHash : String) : Flow Unit := do
  if oldHashes = [] then return ()
  let _ ← attempt (Bridge.createSystemBatch (oldHashes.map fun old => (newHash, old)))
  return ()

/-- Mark every memory in `oldHashes` as superseded by `newHash`.  After a failure the marked set is
read again, so a memory that carries the marker anyway gets its edge. -/
def markSuperseded (oldHashes : List String) (newHash reason : String) :
    Flow (Except SupersedeFailure Unit) := do
  match ← attempt (Vectors.updateMetadataBatch oldHashes newHash reason) with
  | .ok () =>
    writeSupersedesEdges oldHashes newHash
    return .ok ()
  | .error error =>
    match ← attempt (Vectors.getBatch oldHashes) with
    | .error _ => return .error ⟨[], oldHashes, error⟩
    | .ok memories =>
      let marked := (memories.filter fun m =>
        m.supersessionMarker.bind Value.asStr = some newHash).map Memory.contentHash
      writeSupersedesEdges marked newHash
      return .error ⟨marked, [], error⟩

/-- A supersede's checks of its input. -/
def supersedeChecked (oldHash newHash : String) : Except AlayaError Unit :=
  if !validateContentHash oldHash || !validateContentHash newHash then .error invalidContentHash
  else if oldHash = newHash then .error (.validation "old_hash and new_hash must differ")
  else .ok ()

/-- A supersede's check that both memories are there. -/
def bothFound (oldHash newHash : String) (batch : List Memory) : Except AlayaError Unit :=
  if !batch.any fun m => m.contentHash = oldHash then
    .error (.validation ("old memory not found: " ++ oldHash))
  else if !batch.any fun m => m.contentHash = newHash then
    .error (.validation ("new memory not found: " ++ newHash))
  else .ok ()

def memorySupersede (oldHash newHash reason : String) : Flow SupersedeReport := do
  let _ ← ofExcept (supersedeChecked oldHash newHash)
  let batch ← Vectors.getBatch [oldHash, newHash]
  let _ ← ofExcept (bothFound oldHash newHash batch)
  match ← markSuperseded [oldHash] newHash reason with
  | .ok () => return ⟨oldHash, newHash, reason⟩
  | .error f => throw f.error

/-- Why a duplicate is refused before the store is asked for it. -/
def duplicateRefusal (canonicalHash dup : String) : Option AlayaError :=
  if dup = canonicalHash then some (.validation "old_hash and new_hash must differ")
  else if !validateContentHash dup then some (.validation "invalid content_hash")
  else none

/-- The duplicates a merge asks the store for. -/
def mergeCandidates (canonicalHash : String) (duplicateHashes : List String) : List String :=
  duplicateHashes.filter fun dup => (duplicateRefusal canonicalHash dup).isNone

/-- The duplicates a merge refuses, and why. -/
def mergeRefused (canonicalHash : String) (duplicateHashes : List String) : List (String × String) :=
  duplicateHashes.filterMap fun dup =>
    (duplicateRefusal canonicalHash dup).map fun e => (dup, e.safeMessage)

/-- One batched supersession of the duplicates that are there. -/
def mergeFound (canonicalHash : String) (toSupersede : List String) (reason : String)
    (errors : List (String × String)) : Flow MergeReport := do
  match ← markSuperseded toSupersede canonicalHash reason with
  | .ok () => return ⟨canonicalHash, toSupersede, errors, false⟩
  | .error f =>
    let failed := (toSupersede.filter (· ∉ f.marked)).map fun dup =>
      (dup, if dup ∈ f.inDoubt then supersedeOutcomeUnknown else f.error.safeMessage)
    return ⟨canonicalHash, toSupersede.filter (· ∈ f.marked), errors ++ failed, false⟩

/-- A merge whose canonical memory is there. -/
def mergeInto (canonicalHash : String) (duplicateHashes : List String) (reason : String) :
    Flow MergeReport := do
  let candidates := mergeCandidates canonicalHash duplicateHashes
  let found ← Vectors.getBatch candidates
  let existing := found.map Memory.contentHash
  let toSupersede := candidates.filter (· ∈ existing)
  let missing := (candidates.filter (· ∉ existing)).map fun dup =>
    (dup, (AlayaError.validation ("old memory not found: " ++ dup)).safeMessage)
  let errors := mergeRefused canonicalHash duplicateHashes ++ missing
  if toSupersede = [] then return ⟨canonicalHash, [], errors, false⟩
  else mergeFound canonicalHash toSupersede reason errors

def mergeDuplicates (canonicalHash : String) (duplicateHashes : List String) (reason : String)
    (dryRun : Bool) : Flow MergeReport :=
  if !validateContentHash canonicalHash then throw (.validation "invalid canonical_hash")
  else do
    match ← Vectors.getByHash canonicalHash with
    | none => throw (.validation ("canonical memory not found: " ++ canonicalHash))
    | some _ =>
      if dryRun then return ⟨canonicalHash, duplicateHashes, [], true⟩
      else mergeInto canonicalHash duplicateHashes reason

/-! ### Reversing -/

/-- Stamp the pair a reversed supersession leaves, in both directions; the edges it stamped. -/
def settleBoth (contentHash survivor : String) (now : ℚ) : Flow (List (String × String)) := do
  let there ← graph (.settleContradiction contentHash survivor unsupersedeResolvedVia now)
  let back ← graph (.settleContradiction survivor contentHash unsupersedeResolvedVia now)
  return (if 0 < (show ℕ from there) then [(contentHash, survivor)] else []) ++
    if 0 < (show ℕ from back) then [(survivor, contentHash)] else []

/-- Settle the pair a marker names. -/
def settlePair (contentHash : String) (marker : Value) (now : ℚ) : Flow (List (String × String)) :=
  match survivorOf marker contentHash with
  | some survivor => settleBoth contentHash survivor now
  | none => pure []

/-- Take back this call's stamps, each only while it is still its own. -/
def unsettleEach (now : ℚ) : List (String × String) → Flow Unit
  | [] => pure ()
  | e :: stamped => do
    let _ ← attempt (graph (.unsettleContradiction e.1 e.2 unsupersedeResolvedVia now))
    unsettleEach now stamped

def deleteIncoming (contentHash : String) : Flow (List String) := do
  let sources ← graph (.deleteIncomingSystemEdges contentHash)
  return Finset.sort (show Finset String from sources) (· ≤ ·)

/-- Write the edge a marker stands for, when it names a survivor. -/
def restoreEdge (contentHash : String) (marker : Value) : Flow Unit :=
  match survivorOf marker contentHash with
  | some survivor => writeSupersedesEdges [contentHash] survivor
  | none => pure ()

/-- The reversal landed: sweep the edges again, and put back the one of a supersession that landed
since. -/
def afterCleared (contentHash : String) (edgesRemoved : List String) :
    Flow (List String × Option Value) := do
  let late ← attempt (deleteIncoming contentHash)
  let again ← attempt (Vectors.getByHash contentHash)
  let nowSupersededBy := (again.toOption.bind id).bind Memory.supersessionMarker
  restoreEdge contentHash (nowSupersededBy.getD .null)
  return (edgesRemoved ++ late.toOption.getD [], nowSupersededBy)

/-- The marker moved meanwhile: undo this call's graph writes. -/
def afterChanged (contentHash : String) (stamped : List (String × String)) (current : Value)
    (now : ℚ) : Flow Unit := do
  unsettleEach now stamped
  restoreEdge contentHash current

/-- What follows the write of a reversal. -/
def afterReversal (contentHash : String) (marker : Value) (reason via : String) (now : ℚ)
    (edgesRemoved : List String) (stamped : List (String × String)) :
    ReversalOutcome → Flow UnsupersedeReport
  | .cleared supersessionReason => do
    let (edgesRemoved, nowSupersededBy) ← afterCleared contentHash edgesRemoved
    return .unsuperseded marker supersessionReason reason via now edgesRemoved stamped
      nowSupersededBy
  | .notSuperseded => return .notSuperseded
  | .supersededByOther current => do
    afterChanged contentHash stamped current now
    return .supersededByChanged current

/-- A reversal's checks of its input: the trimmed reason and who reverses. -/
def unsupersedeChecked (contentHash reason via : String) : Except AlayaError (String × String) :=
  if !validateContentHash contentHash then .error invalidContentHash
  else do
    let reason ← (requireReason reason).mapError .validation
    let via ← requireVia "unsuperseded_via" via
    return (reason, via)

/-- The reversal of a memory that carries `marker`. -/
def reverseMarked (contentHash : String) (marker : Value) (reason via : String) (now : ℚ) :
    Flow UnsupersedeReport := do
  let stamped ← settlePair contentHash marker now
  let edgesRemoved ← deleteIncoming contentHash
  let outcome ← Vectors.reverseSupersession contentHash marker ⟨now, via, reason⟩
  afterReversal contentHash marker reason via now edgesRemoved stamped outcome

def memoryUnsupersede (contentHash reason via : String) (now : ℚ) : Flow UnsupersedeReport := do
  let (reason, via) ← ofExcept (unsupersedeChecked contentHash reason via)
  match ← Vectors.getByHash contentHash with
  | none => throw (notFound contentHash)
  | some memory =>
    match memory.supersessionMarker with
    | none => return .notSuperseded
    | some marker => reverseMarked contentHash marker reason via now

end MemoryService

end Alaya
