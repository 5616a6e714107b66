import Alaya.Backends.Writers
import Alaya.Core.StoreParams

/-!
# The operations that write a memory

`Op` is a call one of the service's writers makes, with what its caller sent; `Op.call` checks that
input as the service does and gives the `updatePoints` call it becomes.  A supersession is marked
through `markSuperseded`, the only caller of `updateMetadataBatch`, and a store's record is the one
`StoreParams.memory` builds, the only one the service hands to `store`.
-/

namespace Alaya

open Json

inductive Op where
  | store (params : StoreParams) (ctx : StoreContext) (mode : StoreMode)
  | patch (contentHash : String) (request : PatchMemoryRequest) (now : ℚ)
  | generatedSummary (contentHash summary : String) (embedding : Option (List ℚ)) (now : ℚ)
  | markSuperseded (oldHashes : List String) (newHash reason : String)
  | supersedeIfLive (contentHash newHash reason : String)
  | reverse (contentHash : String) (expected : Value) (reversal : ReversalRecord)
  | confirm (contentHash : String) (atTime : ℚ)
  | incrementAccess (contentHash : String) (now : ℚ)
  | incrementAccessBatch (contentHashes : List String) (now : ℚ)
  deriving DecidableEq

/-- A refused input is a validation error. -/
def checked (check : Except String Unit) : Except AlayaError Unit :=
  check.mapError .validation

/-- The update that marks memories superseded: marker and reason together. -/
def supersededUpdate (newHash reason : String) : MetadataUpdate where
  supersededBy := some newHash
  accessCount := none
  extra := some [(supersessionReasonKey, .string reason)]

namespace Op

def call : Op → Except AlayaError UpdateCall
  | store params ctx mode => do
    if params.content.isEmpty then throw (.validation "content cannot be empty")
    checked params.validate
    Alaya.store (params.memory ctx) mode
  | patch contentHash request now => do
    if !validateContentHash contentHash then throw (.validation "invalid content_hash format")
    checked request.validate
    patchMemory contentHash request now
  | generatedSummary contentHash summary embedding now =>
    setGeneratedSummary contentHash summary embedding now
  | markSuperseded oldHashes newHash reason =>
    updateMetadataBatch oldHashes (supersededUpdate newHash reason)
  | supersedeIfLive contentHash newHash reason => Alaya.supersedeIfLive contentHash newHash reason
  | reverse contentHash expected reversal => reverseSupersession contentHash expected reversal
  | confirm contentHash atTime => confirmMemory contentHash atTime
  | incrementAccess contentHash now => incrementAccessCount contentHash now
  | incrementAccessBatch contentHashes now => .ok (incrementAccessCountBatch contentHashes now)

/-- What a write of the operation leaves on a point that holds `cell`, in one step. -/
def land (op : Op) (mine : String) (cell : Option Payload) : Option Payload :=
  match op.call with
  | .ok call => call.land mine cell
  | .error _ => none

end Op

/-- What happens to one point: a write stamped with its token, or a delete. -/
inductive CellEvent where
  | write (op : Op) (mine : String)
  | erase
  deriving DecidableEq

/-- One point as the operations see it: each write is applied to what the point holds now. -/
inductive CellStep : Option Payload → CellEvent → Option Payload → Prop
  | write {op : Op} {mine : String} {cell : Option Payload} {p : Payload} :
      op.land mine cell = some p → CellStep cell (.write op mine) (some p)
  | erase {p : Payload} : CellStep (some p) .erase none

end Alaya
