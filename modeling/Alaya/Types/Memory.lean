import Alaya.Types.Citation
import Alaya.Types.Error

/-!
# Memories and the requests that change them

`Memory` is a stored memory, `PatchMemoryRequest` a PATCH of one and `MetadataUpdate` a server-side
change of its metadata.  Caller metadata is checked against `reservedMetadataKeys`: the keys only
the server writes.  An `f32` or `f64` is the rational it denotes.
-/

namespace Alaya

open Json

structure Memory where
  content : String
  contentHash : String
  tags : List String
  memoryType : String
  metadata : Option Object
  createdAt : ℚ
  updatedAt : ℚ
  embedding : Option (List ℚ)
  summary : Option String
  salienceScore : ℚ
  accessCount : UInt64
  accessTimestamps : List ℚ
  emotionalValence : Option Object
  encodingContext : Option Object
  provenance : Option Object
  summaryEmbedding : Option (List ℚ)
  supersessionLog : Option (List Value)
  supersessionReason : Option Value
  nearestSimilarity : Option ℚ
  deriving DecidableEq

/-- Metadata fields that can be updated on a memory. -/
structure MetadataUpdate where
  supersededBy : Option String
  accessCount : Option UInt64
  extra : Option Object
  deriving DecidableEq

/-- Mutable fields of an existing memory; only those given change. -/
structure PatchMemoryRequest where
  tags : Option (List String) := none
  metadata : Option Object := none
  summary : Option String := none
  memoryType : Option String := none
  summaryEmbedding : Option (List ℚ) := none
  deriving DecidableEq

def validMemoryTypes : List String := ["note", "decision", "task", "reference"]

def maxTags : ℕ := 100

def maxTagLen : ℕ := 200

def maxMetadataKeys : ℕ := 50

def maxSummaryLen : ℕ := 2000

/-- A chain of fallible steps succeeds when each of them does. -/
theorem bind_eq_ok {ε α β : Type} {x : Except ε α} {f : α → Except ε β} {b : β} :
    (x >>= f) = .ok b ↔ ∃ a, x = .ok a ∧ f a = .ok b := by
  cases x <;> simp [bind, Except.bind]

theorem toOption_eq_some {ε α : Type} {x : Except ε α} {a : α} : x.toOption = some a ↔ x = .ok a := by
  cases x <;> simp [Except.toOption]

/-! ### Reserved metadata keys -/

/-- The metadata key of the supersession marker. -/
def supersededByKey : String := "superseded_by"

/-- The metadata key confirm writes: when a caller last re-checked the memory. -/
def lastConfirmedAtKey : String := "last_confirmed_at"

/-- Metadata keys only the server writes, each with why. -/
def reservedMetadataKeys : List (String × String) :=
  [(supersededByKey, "supersession changes only through supersede or unsupersede"),
   ("nearest_similarity", "the server records novelty in its own field on every store"),
   (lastConfirmedAtKey, "the server sets it when a memory is confirmed")]

/-- Refuse caller metadata carrying a reserved key, whatever its value. -/
def rejectReservedMetadata (metadata : Object) : Except String Unit :=
  match reservedMetadataKeys.find? fun kw => (metadata.get kw.1).isSome with
  | some (k, why) => .error ("metadata." ++ k ++ " is reserved: " ++ why)
  | none => .ok ()

theorem get_eq_none_of_rejectReserved {metadata : Object} {k why : String}
    (h : rejectReservedMetadata metadata = .ok ()) (hk : (k, why) ∈ reservedMetadataKeys) :
    metadata.get k = none := by
  unfold rejectReservedMetadata at h
  split at h
  · cases h
  · next hnone =>
    have := List.find?_eq_none.mp hnone _ hk
    simpa using this

/-- Store-side metadata check: reserved keys, then `metadata.citations`. -/
def validateStoreMetadata (metadata : Object) : Except String Unit := do
  rejectReservedMetadata metadata
  validateMetadataCitations metadata false

/-! ### Patches -/

namespace PatchMemoryRequest

/-- Nothing to patch. -/
def isEmpty (p : PatchMemoryRequest) : Bool :=
  p.tags.isNone && p.metadata.isNone && p.summary.isNone && p.memoryType.isNone &&
    p.summaryEmbedding.isNone

def validateTag (tag : String) : Except String Unit :=
  if tag.isEmpty then .error "tag must not be empty"
  else if maxTagLen < tag.utf8ByteSize then
    .error ("tag too long: max " ++ toString maxTagLen ++ " chars")
  else .ok ()

def validateTags (tags : List String) : Except String Unit :=
  if maxTags < tags.length then
    .error ("tags: max " ++ toString maxTags ++ " tags, got " ++ toString tags.length)
  else tags.forM validateTag

def validateMetadata (metadata : Object) : Except String Unit :=
  if maxMetadataKeys < metadata.length then
    .error ("metadata: max " ++ toString maxMetadataKeys ++ " keys, got " ++
      toString metadata.length)
  else do
    rejectReservedMetadata metadata
    validateMetadataCitations metadata true

def validateSummary (summary : String) : Except String Unit :=
  if maxSummaryLen < summary.utf8ByteSize then
    .error ("summary: max " ++ toString maxSummaryLen ++ " chars, got " ++
      toString summary.utf8ByteSize)
  else .ok ()

/-- The text quotes the type given without escaping it further. -/
def validateMemoryType (mt : String) : Except String Unit :=
  if mt ∈ validMemoryTypes then .ok ()
  else .error ("memory_type: must be one of [\"note\", \"decision\", \"task\", \"reference\"], " ++
    "got \"" ++ mt ++ "\"")

/-- Run a check on a field that was given. -/
def given {α : Type} (check : α → Except String Unit) : Option α → Except String Unit
  | none => .ok ()
  | some a => check a

/-- Validate field sizes and values. -/
def validate (p : PatchMemoryRequest) : Except String Unit := do
  given validateTags p.tags
  given validateMetadata p.metadata
  given validateSummary p.summary
  given validateMemoryType p.memoryType

theorem rejectReserved_of_validate {p : PatchMemoryRequest} {metadata : Object}
    (h : p.validate = .ok ()) (hm : p.metadata = some metadata) :
    rejectReservedMetadata metadata = .ok () := by
  unfold validate at h
  obtain ⟨_, -, h⟩ := bind_eq_ok.mp h
  obtain ⟨_, hmeta, -⟩ := bind_eq_ok.mp h
  rw [hm] at hmeta
  simp only [given, validateMetadata] at hmeta
  split at hmeta
  · cases hmeta
  · obtain ⟨_, hrej, -⟩ := bind_eq_ok.mp hmeta
    exact hrej

end PatchMemoryRequest

/-- Content hash validation: 64 lowercase hex characters. -/
def validateContentHash (hash : String) : Bool :=
  hash.utf8ByteSize = 64 && hash.toList.all fun c => isAsciiHexdigit c && !isAsciiUppercase c

end Alaya
