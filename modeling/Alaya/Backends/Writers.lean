import Alaya.Backends.UpdatePoints

/-!
# The writers of the collection

Each operation of the vector store that changes a point, as the `UpdateCall` it hands to
`updatePoints`: which points, which keys it reads, how it commits and what it makes of the copy it
read.  `delete` is the one unconditional write.
-/

namespace Alaya

open Json

/-- Whether `store` may replace an existing record. -/
inductive StoreMode where
  | upsert
  | insertOnly
  deriving DecidableEq, Repr

/-! ### Stores and deletes -/

/-- Store a memory: insert a fresh payload, or rewrite the caller's fields of the stored one. -/
def store (memory : Memory) (mode : StoreMode) : Except AlayaError UpdateCall := do
  let pointId ← hashToUuid memory.contentHash
  match memory.embedding with
  | none => .error (.validation "memory has no embedding")
  | some _ =>
    let fresh := memoryToPayload memory
    return {
      ids := [pointId]
      keys := none
      commit := .upsert fresh
      modify := fun prev =>
        .ok (if mode = .insertOnly then none else some (carryOver fresh prev)) }

/-- What a store reports: whether it created the point, and the hash. -/
def storeResult (hash : String) : Option Update → Except AlayaError (Bool × String)
  | some (.landed _ created) => .ok (created, hash)
  | some .skipped => .ok (false, hash)
  | some .deleted => .error (.deletedWhileStoring ("memory " ++ hash ++
      " was deleted while it was being stored; store it again to keep it"))
  | some (.unconfirmed why) => .error (.storage ("store of " ++ hash ++ ": " ++ why.text))
  | some .absent | none => .error (.storage ("store of " ++ hash ++
      " returned no outcome; not stored"))

/-- What a store of the point `pointId` returns once its `updatePoints` has: an error passes through. -/
def storeReport (hash : String) (pointId : PointId) (result : Except AlayaError Outcome) :
    Except AlayaError (Bool × String) := do
  let outcome ← result
  storeResult hash (outcome.lookup pointId)

/-- The point a delete removes. -/
def delete (contentHash : String) : Except AlayaError PointId := hashToUuid contentHash

/-! ### Access increments -/

/-- Record one access on each point: count + 1 and a capped timestamp history. -/
def bumpAccess (pointIds : List PointId) (now : ℚ) : UpdateCall where
  ids := pointIds
  keys := some ["access_count", "access_timestamps"]
  commit := .payload .merge .bestEffort
  modify := fun prev =>
    let count := prev.accessCount
    let timestamps := capTimestamps (prev.accessTimestamps ++ [now]) maxAccessTimestamps
    .ok (some [("access_count", .ofU64 (count + 1)), ("access_timestamps", .ofF64s timestamps)])

def incrementAccessCount (contentHash : String) (now : ℚ) : Except AlayaError UpdateCall := do
  let pointId ← hashToUuid contentHash
  return bumpAccess [pointId] now

/-- A hash that names no point is left out. -/
def incrementAccessCountBatch (contentHashes : List String) (now : ℚ) : UpdateCall :=
  bumpAccess (contentHashes.filterMap fun h => (hashToUuid h).toOption) now

/-! ### Metadata updates -/

/-- The metadata object to rewrite; a stored value of another kind is refused. -/
def storedMetadata (prev : Payload) : Except AlayaError Object :=
  match prev.get "metadata" with
  | none | some .null => .ok []
  | some (.object md) => .ok md
  | some _ => .error (.storage "stored metadata is not an object; refusing to replace it")

/-- Apply one metadata update to many memories: each one's top-level fields and its marker land in
one write. -/
def updateMetadataBatch (contentHashes : List String) (updates : MetadataUpdate) :
    Except AlayaError UpdateCall := do
  let pointIds ← contentHashes.mapM hashToUuid
  let top := topLevelPayload updates
  return {
    ids := pointIds
    keys := some ["metadata"]
    commit := .payload .merge .strict
    modify := fun prev => do
      match updates.supersededBy with
      | none => return if top = [] then none else some top
      | some sb =>
        let metadata ← storedMetadata prev
        return some (top.insert "metadata"
          (.object (Object.insert supersededByKey (.string sb) metadata))) }

/-- One conditional merge into a live memory: `build` edits the metadata read and returns the
top-level keys to write beside it.  A marker on the copy read stops the write. -/
def mergeWhileLive (contentHash : String) (readKeys : List String)
    (build : Object → Object × Payload) : Except AlayaError UpdateCall := do
  let pointId ← hashToUuid contentHash
  return {
    ids := [pointId]
    keys := some ("metadata" :: readKeys)
    commit := .payload .merge .strict
    modify := fun prev => do
      let metadata ← storedMetadata prev
      if (metadata.get supersededByKey).isSome then return none
      let (metadata, write) := build metadata
      return some (write.insert "metadata" (.object metadata)) }

def supersedeIfLive (contentHash newHash reason : String) : Except AlayaError UpdateCall :=
  mergeWhileLive contentHash [supersessionReasonKey] fun metadata =>
    (metadata.insert supersededByKey (.string newHash), [(supersessionReasonKey, .string reason)])

def confirmMemory (contentHash : String) (atTime : ℚ) : Except AlayaError UpdateCall :=
  mergeWhileLive contentHash [] fun metadata =>
    (metadata.insert lastConfirmedAtKey (.ofF64 atTime), [])

/-- Reverse a supersession while the marker is still `expected`. -/
def reverseSupersession (contentHash : String) (expected : Value) (reversal : ReversalRecord) :
    Except AlayaError UpdateCall := do
  let pointId ← hashToUuid contentHash
  return {
    ids := [pointId]
    keys := none
    commit := .payload .replace .strict
    modify := fun prev =>
      .ok (if prev.marker = some expected then some (unsupersedePayload prev reversal).1 else none) }

/-! ### Patches and generated summaries -/

def notFound (contentHash : String) : AlayaError :=
  .notFound ("memory " ++ contentHash ++ " not found")

def patchMemory (contentHash : String) (patch : PatchMemoryRequest) (now : ℚ) :
    Except AlayaError UpdateCall :=
  if patch.isEmpty then .error (.validation "patch is empty")
  else do
    let pointId ← hashToUuid contentHash
    return {
      ids := [pointId]
      keys := none
      commit := .payload .replace .strict
      modify := fun prev =>
        match parsePayload prev with
        | none => .error (notFound contentHash)
        | some _ => .ok (some (applyPatch prev patch now)) }

/-- Commit a server-generated summary only if the record still has none. -/
def setGeneratedSummary (contentHash summary : String) (summaryEmbedding : Option (List ℚ))
    (now : ℚ) : Except AlayaError UpdateCall := do
  let pointId ← hashToUuid contentHash
  let patch : PatchMemoryRequest := { summary := some summary, summaryEmbedding }
  return {
    ids := [pointId]
    keys := none
    commit := .payload .replace .strict
    modify := fun prev =>
      match parsePayload prev with
      | none => .error (notFound contentHash)
      | some existing =>
        .ok (if existing.summary.isSome then none else some (applyPatch prev patch now)) }

/-! ### One write, in one step

`UpdateCall.land` is what a write of a call does to a point when nothing comes between its read and
its commit: the abstract, atomic reading of `updatePoints`, to which `Atomicity` relates the rounds.
-/

/-- Commit the payload a call made of the copy `prev` of `p`. -/
def UpdateCall.commitOver (call : UpdateCall) (p write : Payload) : Payload :=
  match call.commit with
  | .payload .merge _ => p.merge write
  | .payload .replace _ | .upsert _ => write

/-- What a write stamped `mine` leaves on a point that holds `cell`; `none` when it writes nothing. -/
def UpdateCall.land (call : UpdateCall) (mine : String) : Option Payload → Option Payload
  | none =>
    match call.commit with
    | .upsert insert => some (stamp mine insert none)
    | .payload .. => none
  | some p =>
    let prev := restrict call.readKeys p
    match call.modify prev with
    | .ok (some write) => some (call.commitOver p (stamp mine write (some prev)))
    | .ok none | .error _ => none

theorem revLog_restrict (call : UpdateCall) (p : Payload) :
    (restrict call.readKeys p).revLog = p.revLog := by
  unfold restrict UpdateCall.readKeys
  cases call.keys with
  | none => rfl
  | some keys =>
    simp only [Option.map_some, Payload.revLog]
    rw [Object.get_only_of_mem (by simp)]

theorem revOf_restrict (call : UpdateCall) (p : Payload) :
    revOf (restrict call.readKeys p) = revOf p := by
  unfold restrict UpdateCall.readKeys
  cases call.keys with
  | none => rfl
  | some keys =>
    simp only [Option.map_some, revOf]
    rw [Object.get_only_of_mem (by simp)]

/-- What a call wrote under a key, over what the point held. -/
theorem UpdateCall.get_commitOver (call : UpdateCall) (p write : Payload) (k : String)
    (hk : (write.get k).isSome) : (call.commitOver p write).get k = write.get k := by
  obtain ⟨v, hv⟩ := Option.isSome_iff_exists.mp hk
  unfold commitOver
  split
  · rw [Object.get_merge, hv, Option.some_or]
  · rfl
  · rfl

/-- Every write leaves its token as the revision. -/
theorem UpdateCall.rev_land {call : UpdateCall} {mine : String} {cell : Option Payload}
    {p' : Payload} (h : call.land mine cell = some p') : p'.get revKey = some (.string mine) := by
  cases cell with
  | none =>
    simp only [land] at h
    split at h
    · obtain rfl := Option.some.inj h
      exact get_rev_stamp ..
    · cases h
  | some p =>
    simp only [land] at h
    split at h
    · obtain rfl := Option.some.inj h
      rw [get_commitOver _ _ _ _ (by simp)]
      exact get_rev_stamp ..
    · cases h
    · cases h

/-- Every write appends its token to the log the point held, keeping the last `revLogLen`. -/
theorem UpdateCall.revLog_land {call : UpdateCall} {mine : String} {cell : Option Payload}
    {p' : Payload} (h : call.land mine cell = some p') :
    p'.revLog =
      Recent.keepLast revLogLen ((cell.map Payload.revLog).getD [] ++ [.string mine]) := by
  cases cell with
  | none =>
    simp only [land] at h
    split at h
    · obtain rfl := Option.some.inj h
      simpa using revLog_stamp mine _ none
    · cases h
  | some p =>
    simp only [land] at h
    split at h
    · next write _ =>
      obtain rfl := Option.some.inj h
      have hstamp := revLog_stamp mine write (some (restrict call.readKeys p))
      rw [Option.map_some, Option.getD_some, revLog_restrict] at hstamp
      rw [Option.map_some, Option.getD_some, ← hstamp]
      unfold Payload.revLog
      rw [get_commitOver _ _ _ _ (by simp [stamp])]
    · cases h
    · cases h

end Alaya
