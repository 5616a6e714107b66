import Alaya.Backends.Points
import Alaya.Types.Memory

/-!
# Payloads: how a memory is stored

The functions that build and read the payload of a point, as the Qdrant backend computes them:
`memoryToPayload` and `parsePayload`, `carryOver` (a re-store keeps the server-maintained fields),
`applyPatch`, `unsupersedePayload`, and `hashToUuid`, which names the point.
-/

namespace Alaya

open Json

/-- Why a supersession was reversed, when, and by whom. -/
structure ReversalRecord where
  atTime : ℚ
  via : String
  reason : String
  deriving DecidableEq

/-- Payload key: why a memory was superseded. -/
def supersessionReasonKey : String := "supersession_reason"

/-- Payload key: the reversed supersessions of a memory, oldest first. -/
def supersessionLogKey : String := "supersession_log"

def nearestSimilarityKey : String := "nearest_similarity"

/-- Set a key when there is a value for it. -/
def Payload.insertSome (key : String) (v : Option Value) (p : Payload) : Payload :=
  match v with
  | some v => p.insert key v
  | none => p

/-! ### Access timestamps -/

def maxAccessTimestamps : ℕ := 100

/-- Keep only the most recent `max` entries. -/
def capTimestamps (timestamps : List ℚ) (max : ℕ) : List ℚ :=
  if max < timestamps.length then timestamps.drop (timestamps.length - max) else timestamps

/-! ### The point id -/

/-- 32 hex digits as a UUID prints: lower case, hyphenated 8-4-4-4-12. -/
def uuidToString (hex : List Char) : String :=
  let digits := hex.map Char.toLower
  String.ofList (digits.take 8 ++ '-' :: ((digits.drop 8).take 4) ++ '-' :: ((digits.drop 12).take 4)
    ++ '-' :: ((digits.drop 16).take 4) ++ '-' :: digits.drop 20)

/-- The point of a content hash: the UUID of its first 32 hex digits. -/
def hashToUuid (contentHash : String) : Except AlayaError PointId :=
  if contentHash.utf8ByteSize ≠ 64 ∨ !contentHash.toList.all isAsciiHexdigit then
    .error (.validation ("content_hash must be 64-char SHA-256 hex, got " ++
      toString contentHash.utf8ByteSize ++ " chars. " ++
      "Pass the full content_hash from search/store_memory results, " ++
      "not a truncated display or log prefix."))
  else .ok (uuidToString (contentHash.toList.take 32))

/-! ### Reading a payload -/

/-- The metadata of a payload, when it is an object. -/
def Payload.metadata (p : Payload) : Option Object := (p.get "metadata").bind Value.asObject

/-- The value at `/metadata/key`. -/
def Payload.metadataGet (p : Payload) (key : String) : Option Value :=
  p.metadata.bind fun md => md.get key

/-- The supersession marker, in whatever shape it was stored. -/
def Payload.marker (p : Payload) : Option Value := p.metadataGet supersededByKey

/-- The entries of a stored log: a value that is not an array is one entry. -/
def logEntries : Value → List Value
  | .array entries => entries
  | other => [other]

/-- The entries of the supersession log of a payload, none when there is no log. -/
def Payload.supersessionLog (p : Payload) : List Value :=
  ((p.get supersessionLogKey).map logEntries).getD []

def Payload.accessCount (p : Payload) : UInt64 := ((p.get "access_count").bind Value.asU64).getD 0

def Payload.accessTimestamps (p : Payload) : List ℚ :=
  (((p.get "access_timestamps").bind Value.asArray).map (·.filterMap Value.asF64)).getD []

def Payload.strings (p : Payload) (key : String) : List String :=
  (((p.get key).bind Value.asArray).map (·.filterMap Value.asStr)).getD []

/-- A payload as a memory; `none` when it does not hold one.  The summary embedding is returned in
the doubles it is stored in. -/
def parsePayload (p : Payload) : Option Memory := do
  let content ← (← p.get "content").asStr
  let contentHash ← (← p.get "content_hash").asStr
  return {
    content, contentHash
    tags := p.strings "tags"
    memoryType := ((p.get "memory_type").bind Value.asStr).getD "note"
    metadata := p.metadata
    createdAt := ((p.get "created_at").bind Value.asF64).getD 0
    updatedAt := ((p.get "updated_at").bind Value.asF64).getD 0
    embedding := none
    summary := (p.get "summary").bind Value.asStr
    salienceScore := ((p.get "salience_score").bind Value.asF64).getD 0
    accessCount := p.accessCount
    accessTimestamps := p.accessTimestamps
    emotionalValence := (p.get "emotional_valence").bind Value.asObject
    encodingContext := (p.get "encoding_context").bind Value.asObject
    provenance := (p.get "provenance").bind Value.asObject
    summaryEmbedding :=
      ((p.get "summary_embedding").bind Value.asArray).map (·.filterMap Value.asF64)
    supersessionLog := (p.get supersessionLogKey).map logEntries
    supersessionReason := p.get supersessionReasonKey
    nearestSimilarity := none }

/-! ### Building a payload -/

/-- The payload of a fresh point.  Never holds a supersession reason or log. -/
def memoryToPayload (m : Memory) : Payload :=
  let payload : Payload :=
    [("access_count", .ofU64 m.accessCount),
     ("access_timestamps", .ofF64s m.accessTimestamps),
     ("content", .string m.content),
     ("content_hash", .string m.contentHash),
     ("created_at", .ofF64 m.createdAt),
     ("memory_type", .string m.memoryType),
     ("salience_score", .ofF64 m.salienceScore),
     ("tags", .ofStrings m.tags),
     ("updated_at", .ofF64 m.updatedAt)]
  payload
    |>.insertSome "metadata" (m.metadata.map .object)
    |>.insertSome "summary" (m.summary.map .string)
    |>.insertSome "emotional_valence" (m.emotionalValence.map .object)
    |>.insertSome "encoding_context" (m.encodingContext.map .object)
    |>.insertSome "provenance" (m.provenance.map .object)
    |>.insertSome "summary_embedding" (m.summaryEmbedding.map .ofF64s)
    |>.insertSome nearestSimilarityKey (m.nearestSimilarity.map .ofF64)

/-- Set `/metadata/key`; a missing or null `metadata` becomes an object.  Any other value that is
not an object is a panic in the source, and `memoryToPayload` builds none. -/
def Payload.setMetadata (p : Payload) (key : String) (v : Value) : Payload :=
  match p.get "metadata" with
  | some (.object md) => p.insert "metadata" (.object (Object.insert key v md))
  | none | some .null => p.insert "metadata" (.object [(key, v)])
  | some _ => p

/-- Remove `/metadata/key` when `metadata` is an object. -/
def Payload.removeMetadata (p : Payload) (key : String) : Payload :=
  match p.metadata with
  | some md => p.insert "metadata" (.object (md.erase key))
  | none => p

/-- The top-level keys a re-store keeps from the stored payload. -/
def carriedKeys : List String :=
  ["created_at", "access_count", "access_timestamps", supersessionReasonKey, supersessionLogKey]

/-- Set a metadata key to what it is in `prev`, present or absent. -/
def carryMetadata (key : String) (prev payload : Payload) : Payload :=
  match prev.metadataGet key with
  | some v => payload.setMetadata key v
  | none => payload.removeMetadata key

/-- Keep the stored embedding while the summary it was made from is unchanged. -/
def carryEmbedding (prev payload : Payload) : Payload :=
  if (payload.get "summary_embedding").isNone ∧ (prev.get "summary").isSome ∧
      prev.get "summary" = payload.get "summary" then
    payload.insertSome "summary_embedding" (prev.get "summary_embedding")
  else payload

/-- Carry the server-maintained fields of `prev` over the caller's payload on a re-store. -/
def carryOver (payload prev : Payload) : Payload :=
  carriedKeys.foldl (fun p key => p.insertSome key (prev.get key)) payload
    |> carryMetadata supersededByKey prev
    |> carryMetadata lastConfirmedAtKey prev
    |> carryEmbedding prev

/-- Apply incoming metadata keys; a null deletes its key. -/
def mergeMetadata (merged incoming : Object) : Object :=
  incoming.foldl (fun md kv => if kv.2.isNull then md.erase kv.1 else md.insert kv.1 kv.2) merged

/-- A patch that changes the summary without a vector for it removes the old one. -/
def dropStaleEmbedding (prev : Payload) (patch : PatchMemoryRequest) : Payload :=
  match patch.summary with
  | some summary =>
    if patch.summaryEmbedding.isNone ∧ (prev.get "summary").bind Value.asStr ≠ some summary then
      prev.erase "summary_embedding"
    else prev
  | none => prev

/-- The whole payload `patch` leaves behind on a point that held `prev`. -/
def applyPatch (prev : Payload) (patch : PatchMemoryRequest) (now : ℚ) : Payload :=
  dropStaleEmbedding prev patch
    |>.insertSome "tags" (patch.tags.map .ofStrings)
    |>.insertSome "summary" (patch.summary.map .string)
    |>.insertSome "memory_type" (patch.memoryType.map .string)
    |>.insertSome "summary_embedding" (patch.summaryEmbedding.map .ofF64s)
    |>.insertSome "metadata"
      (patch.metadata.map fun incoming => .object (mergeMetadata (prev.metadata.getD []) incoming))
    |>.insert "updated_at" (.ofF64 now)

/-- Top-level fields of a metadata update. -/
def topLevelPayload (updates : MetadataUpdate) : Payload :=
  let payload : Payload := Payload.insertSome "access_count" (updates.accessCount.map .ofU64) []
  (updates.extra.getD []).foldl (fun p kv => p.insert kv.1 kv.2) payload

/-- The log entry that records a reversal: what it removed, and who removed it. -/
def reversalEntry (marker reason : Option Value) (reversal : ReversalRecord) : Value :=
  .object
    [("reason", .string reversal.reason),
     ("superseded_by", marker.getD .null),
     (supersessionReasonKey, reason.getD .null),
     ("unsuperseded_at", .ofF64 reversal.atTime),
     ("unsuperseded_via", .string reversal.via)]

/-- The payload that reversing a supersession leaves, and the reason it removed. -/
def unsupersedePayload (prev : Payload) (reversal : ReversalRecord) : Payload × Option Value :=
  let marker := prev.marker
  let reason := prev.get supersessionReasonKey
  let log := prev.supersessionLog ++ [reversalEntry marker reason reversal]
  let next := prev.removeMetadata supersededByKey
    |>.erase supersessionReasonKey
    |>.erase supersessionLogKey
    |>.insert supersessionLogKey (.array log)
  (next, reason)

/-! ### What each builder leaves under a key -/

namespace Payload

theorem get_insertSome (p : Payload) (key k : String) (v : Option Value) :
    (p.insertSome key v).get k = if k = key then v.or (p.get k) else p.get k := by
  cases v with
  | none => simp [insertSome]
  | some v => simp [insertSome, Object.get_insert]

theorem get_insertSome_of_ne {key k : String} (h : k ≠ key) (p : Payload) (v : Option Value) :
    (p.insertSome key v).get k = p.get k := by
  simp [get_insertSome, h]

/-- `metadata` is missing or an object: the shapes a payload built from a memory has. -/
def MetadataShape (p : Payload) : Prop :=
  ∀ v, p.get "metadata" = some v → ∃ md, v = .object md

theorem metadata_eq_some {p : Payload} {md : Object} :
    p.metadata = some md ↔ p.get "metadata" = some (.object md) := by
  simp [metadata, Option.bind_eq_some_iff, Value.asObject_eq_some]

theorem metadataGet_congr {p q : Payload} (h : p.get "metadata" = q.get "metadata")
    (key : String) : p.metadataGet key = q.metadataGet key := by
  simp [metadataGet, metadata, h]

theorem metadataGet_of_object {p : Payload} {md : Object}
    (h : p.get "metadata" = some (.object md)) (key : String) :
    p.metadataGet key = md.get key := by
  simp [metadataGet, metadata, h]

theorem metadataGet_of_none {p : Payload} (h : p.metadata = none) (key : String) :
    p.metadataGet key = none := by
  simp [metadataGet, h]

theorem get_setMetadata_of_ne {k : String} (h : k ≠ "metadata") (p : Payload) (key : String)
    (v : Value) : (p.setMetadata key v).get k = p.get k := by
  unfold setMetadata
  split <;> simp [Object.get_insert_of_ne h]

theorem get_removeMetadata_of_ne {k : String} (h : k ≠ "metadata") (p : Payload) (key : String) :
    (p.removeMetadata key).get k = p.get k := by
  unfold removeMetadata
  split <;> simp [Object.get_insert_of_ne h]

theorem metadataGet_setMetadata {p : Payload} (hp : p.MetadataShape) (key k : String) (v : Value) :
    (p.setMetadata key v).metadataGet k = if k = key then some v else p.metadataGet k := by
  cases hmd : p.get "metadata" with
  | none =>
    rw [metadataGet_of_none (p := p) (by simp [metadata, hmd])]
    simp [setMetadata, hmd, metadataGet, metadata, Object.get_cons]
  | some w =>
    obtain ⟨md, rfl⟩ := hp w hmd
    rw [metadataGet_of_object hmd]
    simp [setMetadata, hmd, metadataGet, metadata, Object.get_insert]

theorem metadataGet_removeMetadata (p : Payload) (key k : String) :
    (p.removeMetadata key).metadataGet k = if k = key then none else p.metadataGet k := by
  cases hmd : p.metadata with
  | none => simp [removeMetadata, hmd, metadataGet]
  | some md =>
    have hmeta : (p.removeMetadata key).get "metadata" = some (.object (Object.erase key md)) := by
      simp only [removeMetadata, hmd, Object.get_insert_self]
    rw [metadataGet_of_object (metadata_eq_some.mp hmd), metadataGet_of_object hmeta,
      Object.get_erase]

theorem MetadataShape.setMetadata {p : Payload} (hp : p.MetadataShape) (key : String) (v : Value) :
    (p.setMetadata key v).MetadataShape := by
  intro w hw
  cases hmd : p.get "metadata" with
  | none =>
    simp only [Payload.setMetadata, hmd, Object.get_insert_self] at hw
    exact ⟨_, (Option.some.inj hw).symm⟩
  | some u =>
    obtain ⟨md, rfl⟩ := hp u hmd
    simp only [Payload.setMetadata, hmd, Object.get_insert_self] at hw
    exact ⟨_, (Option.some.inj hw).symm⟩

theorem MetadataShape.removeMetadata {p : Payload} (hp : p.MetadataShape) (key : String) :
    (p.removeMetadata key).MetadataShape := by
  unfold Payload.removeMetadata
  split
  · intro w hw
    rw [Object.get_insert_self] at hw
    exact ⟨_, (Option.some.inj hw).symm⟩
  · exact hp

end Payload

open Payload

theorem get_carryMetadata_of_ne {k : String} (h : k ≠ "metadata") (key : String)
    (prev p : Payload) : (carryMetadata key prev p).get k = p.get k := by
  unfold carryMetadata
  split
  · exact get_setMetadata_of_ne h ..
  · exact get_removeMetadata_of_ne h ..

theorem metadataGet_carryMetadata {p : Payload} (hp : p.MetadataShape) (prev : Payload)
    (key k : String) : (carryMetadata key prev p).metadataGet k =
      if k = key then prev.metadataGet key else p.metadataGet k := by
  unfold carryMetadata
  cases hprev : prev.metadataGet key with
  | none => exact metadataGet_removeMetadata p key k
  | some v => exact metadataGet_setMetadata hp key k v

theorem Payload.MetadataShape.carryMetadata {p : Payload} (hp : p.MetadataShape) (prev : Payload)
    (key : String) : (carryMetadata key prev p).MetadataShape := by
  unfold Alaya.carryMetadata
  split
  · exact hp.setMetadata _ _
  · exact hp.removeMetadata _

theorem get_carryEmbedding_of_ne {k : String} (h : k ≠ "summary_embedding") (prev p : Payload) :
    (carryEmbedding prev p).get k = p.get k := by
  unfold carryEmbedding
  split
  · exact get_insertSome_of_ne h ..
  · rfl

theorem get_carried (payload prev : Payload) (k : String) (keys : List String) :
    (keys.foldl (fun p key => p.insertSome key (prev.get key)) payload).get k =
      if k ∈ keys then (prev.get k).or (payload.get k) else payload.get k := by
  induction keys generalizing payload with
  | nil => simp
  | cons key keys ih =>
    rw [List.foldl_cons, ih, get_insertSome]
    by_cases hk : k = key
    · subst hk
      by_cases hmem : k ∈ keys
      · cases prev.get k <;> simp [hmem]
      · simp [hmem]
    · simp [hk]

/-- Away from the metadata and the summary embedding a re-store writes the caller's value, except
that a carried key keeps the stored one. -/
theorem get_carryOver {k : String} (hm : k ≠ "metadata") (hs : k ≠ "summary_embedding")
    (payload prev : Payload) : (carryOver payload prev).get k =
      if k ∈ carriedKeys then (prev.get k).or (payload.get k) else payload.get k := by
  unfold carryOver
  rw [get_carryEmbedding_of_ne hs, get_carryMetadata_of_ne hm, get_carryMetadata_of_ne hm,
    get_carried]

/-- The metadata keys only the server writes are the stored ones, present or absent. -/
theorem metadataGet_carryOver {payload : Payload} (hp : payload.MetadataShape) (prev : Payload)
    {k : String} (hk : k = supersededByKey ∨ k = lastConfirmedAtKey) :
    (carryOver payload prev).metadataGet k = prev.metadataGet k := by
  have hshape : MetadataShape
      (carriedKeys.foldl (fun p key => p.insertSome key (prev.get key)) payload) := by
    intro v hv
    rw [get_carried] at hv
    exact hp v (by simpa [carriedKeys, supersessionReasonKey, supersessionLogKey] using hv)
  unfold carryOver
  rw [metadataGet_congr (get_carryEmbedding_of_ne (by decide) prev _),
    metadataGet_carryMetadata (hshape.carryMetadata _ _), metadataGet_carryMetadata hshape]
  rcases hk with rfl | rfl
  · rw [if_neg (by decide), if_pos rfl]
  · rw [if_pos rfl]

theorem metadataShape_memoryToPayload (m : Memory) : (memoryToPayload m).MetadataShape := by
  intro v hv
  simp only [memoryToPayload, get_insertSome, nearestSimilarityKey] at hv
  cases hm : m.metadata with
  | none => simp [hm, Object.get_cons] at hv
  | some md =>
    refine ⟨md, ?_⟩
    simpa [hm] using hv.symm

/-- A fresh payload holds neither a supersession reason nor a log. -/
theorem get_memoryToPayload_supersession (m : Memory) :
    (memoryToPayload m).get supersessionReasonKey = none ∧
      (memoryToPayload m).get supersessionLogKey = none := by
  constructor <;>
    simp [memoryToPayload, get_insertSome, nearestSimilarityKey, supersessionReasonKey,
      supersessionLogKey, Object.get_cons]

end Alaya
