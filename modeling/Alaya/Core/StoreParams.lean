import Alaya.Types.Memory

/-!
# The input of a store

`StoreParams` is what a caller sends and `StoreParams.memory` the record the service hands to the
vector store: a fresh memory, never accessed, with no summary embedding and no supersession record
of its own.  What other components compute for that record (the clock, the hash, the embedding and
the fields derived from them) comes in as a `StoreContext`.
-/

namespace Alaya

open Json

structure StoreParams where
  content : String
  tags : Option (List String) := none
  memoryType : Option String := none
  metadata : Option Object := none
  clientHostname : Option String := none
  summary : Option String := none
  dedupThreshold : Option ℚ := none
  citations : Option (List String) := none
  deriving DecidableEq

/-- What the store path computes before it writes. -/
structure StoreContext where
  now : ℚ
  contentHash : String
  embedding : List ℚ
  salienceScore : ℚ
  encodingContext : Object
  provenance : Object
  nearestSimilarity : Option ℚ
  deriving DecidableEq

namespace StoreParams

/-- Caller-input checks. -/
def validate (p : StoreParams) : Except String Unit := do
  match p.metadata with
  | some md => validateStoreMetadata md
  | none => .ok ()
  match p.citations with
  | none => .ok ()
  | some citations =>
    if (p.metadata.getD []).get citationsKey |>.isSome then
      .error "citations: set citations or metadata.citations, not both"
    else validateCitations (.ofStrings citations)

/-- The caller's metadata with `citations` folded in at its key. -/
def metadataWithCitations (p : StoreParams) : Option Object :=
  match p.citations with
  | none => p.metadata
  | some citations => some ((p.metadata.getD []).insert citationsKey (.ofStrings citations))

/-- The record a store hands to the vector store. -/
def memory (p : StoreParams) (ctx : StoreContext) : Memory where
  content := p.content
  contentHash := ctx.contentHash
  tags := p.tags.getD []
  memoryType := p.memoryType.getD "note"
  metadata := p.metadataWithCitations
  createdAt := ctx.now
  updatedAt := ctx.now
  embedding := some ctx.embedding
  summary := p.summary
  salienceScore := ctx.salienceScore
  accessCount := 0
  accessTimestamps := []
  emotionalValence := none
  encodingContext := some ctx.encodingContext
  provenance := some ctx.provenance
  summaryEmbedding := none
  supersessionLog := none
  supersessionReason := none
  nearestSimilarity := ctx.nearestSimilarity

/-- A store that passed its checks carries no reserved metadata key. -/
theorem get_metadata_of_validate {p : StoreParams} {md : Object} {k why : String}
    (h : p.validate = .ok ()) (hmd : p.metadataWithCitations = some md)
    (hk : (k, why) ∈ reservedMetadataKeys) (hc : k ≠ citationsKey) : md.get k = none := by
  have hcaller : ∀ m, p.metadata = some m → m.get k = none := by
    intro m hm
    unfold validate at h
    rw [hm] at h
    obtain ⟨_, hmeta, -⟩ := bind_eq_ok.mp h
    obtain ⟨_, hrej, -⟩ := bind_eq_ok.mp hmeta
    exact get_eq_none_of_rejectReserved hrej hk
  unfold metadataWithCitations at hmd
  cases hcit : p.citations with
  | none =>
    rw [hcit] at hmd
    exact hcaller md hmd
  | some citations =>
    rw [hcit] at hmd
    obtain rfl := Option.some.inj hmd
    rw [Object.get_insert_of_ne hc]
    cases hm : p.metadata with
    | none => rfl
    | some m => exact hcaller m hm

end StoreParams

end Alaya
