import Alaya.Core.Service

/-!
# The vector store's operations

The methods of `VectorStorage` that write, as programs of calls: what each hands to `updatePoints`
and what it makes of the outcome.
-/

namespace Alaya

open Json Interleave

/-- Result of a conditional reversal. -/
inductive ReversalOutcome where
  | cleared (supersessionReason : Option Value)
  | notSuperseded
  | supersededByOther (marker : Value)
  deriving DecidableEq

/-- Result of a conditional supersession. -/
inductive ConditionalSupersede where
  | superseded
  | alreadySuperseded (reason : Option Value)
  | conflict (marker : Value)
  deriving DecidableEq

namespace Vectors

open Alaya.Flow

def getByHash (contentHash : String) : Flow (Option Memory) := vectors (.getByHash contentHash)

def getBatch : List String → Flow (List Memory)
  | [] => pure []
  | h :: hashes => vectors (.getBatch (h :: hashes))

def existingHashes : List String → Flow (List String)
  | [] => pure []
  | h :: hashes => vectors (.existingHashes (h :: hashes))

def delete (contentHash : String) : Flow Bool := vectors (.delete contentHash)

/-- Whether the point of `contentHash` was there for its update. -/
def checkUpdated (contentHash : String) (what : String) : Update → Except AlayaError Unit
  | .landed .. | .skipped | .deleted => .ok ()
  | .absent => .error (notFound contentHash)
  | .unconfirmed why => .error (.storage (what ++ " of " ++ contentHash ++ ": " ++ why.text))

/-- Update the distinct points of a batch one after another.  One that went meanwhile is deleted. -/
def updateEach (op : Op) : List PointId → Flow Outcome
  | [] => pure []
  | id :: ids => do
    let updated ← vectors (.update op id)
    let update := if updated.update = .absent then .deleted else updated.update
    let rest ← updateEach op ids
    return (id, update) :: rest

/-- One strict batch: nothing is written unless every point is there and can take its marker. -/
def updateStrictly (op : Op) (ids : List PointId) : Flow Outcome := do
  let found ← vectors (.retrieve ids)
  if found.any Option.isNone then
    return (ids.zip found).map fun r => (r.1, if r.2.isNone then .absent else .skipped)
  let _ ← ofExcept ((found.filterMap id).mapM storedMetadata)
  updateEach op ids

/-- The batched metadata update that marks memories superseded. -/
def updateMetadataBatch (contentHashes : List String) (newHash reason : String) : Flow Unit := do
  if contentHashes = [] then return ()
  let ids ← ofExcept (contentHashes.mapM hashToUuid)
  let outcome ← updateStrictly (.markSuperseded contentHashes newHash reason) ids.eraseDups
  let _ ← ofExcept ((contentHashes.zip ids).mapM fun hi =>
    checkUpdated hi.1 "metadata update" ((outcome.lookup hi.2).getD .absent))
  return ()

/-- What the update of a reversal comes to. -/
def reversalOutcome (contentHash : String) (updated : Updated) :
    Except AlayaError ReversalOutcome :=
  match updated.update with
  | .landed .. => .ok (.cleared (updated.found.bind fun p => p.get supersessionReasonKey))
  | .skipped =>
    match updated.found.bind Payload.marker with
    | none => .ok .notSuperseded
    | some other => .ok (.supersededByOther other)
  | .unconfirmed why => .error (.storage ("unsupersede of " ++ contentHash ++ ": " ++ why.text))
  | .absent | .deleted => .error (notFound contentHash)

def reverseSupersession (contentHash : String) (expected : Value) (reversal : ReversalRecord) :
    Flow ReversalOutcome := do
  let pointId ← ofExcept (hashToUuid contentHash)
  let updated ← vectors (.update (.reverse contentHash expected reversal) pointId)
  ofExcept (reversalOutcome contentHash updated)

/-- What a conditional merge comes to: `none` when it landed, or the payload whose marker stopped
it. -/
def mergeOutcome (what contentHash : String) (updated : Updated) :
    Except AlayaError (Option Payload) :=
  match updated.update with
  | .landed .. => .ok none
  | .skipped => .ok (some (updated.found.getD []))
  | .unconfirmed why => .error (.storage (what ++ " of " ++ contentHash ++ ": " ++ why.text))
  | .absent | .deleted => .error (notFound contentHash)

/-- The outcome of a supersession by `newHash`, from what stopped it. -/
def supersedeOutcome (newHash : String) : Option Payload → ConditionalSupersede
  | none => .superseded
  | some prev =>
    if prev.marker.getD .null = .string newHash then
      .alreadySuperseded (prev.get supersessionReasonKey)
    else .conflict (prev.marker.getD .null)

def supersedeIfLive (contentHash newHash reason : String) : Flow ConditionalSupersede := do
  let pointId ← ofExcept (hashToUuid contentHash)
  let updated ← vectors (.update (.supersedeIfLive contentHash newHash reason) pointId)
  let found ← ofExcept (mergeOutcome "conditional supersede" contentHash updated)
  return supersedeOutcome newHash found

end Vectors

end Alaya
