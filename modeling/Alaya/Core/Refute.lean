import Alaya.Core.Store

/-!
# Refuting a memory

`refuteStore` checks the wrong memory and stores the correction, insert-only; `refuteFinish` then
supersedes the wrong memory with it or links the pair CONTRADICTS.  Every end is a typed status; a
marker or a reason that got there first is reported, never overwritten.
-/

namespace Alaya

open Json Interleave

/-- A correction filed against a wrong memory. -/
structure Refutation where
  content : String
  tags : Option (List String) := none
  memoryType : Option String := none
  summary : Option String := none
  citations : Option (List String) := none
  reason : String
  supersede : Bool := false
  deriving DecidableEq

/-- Why a refute is refused before its second phase. -/
inductive Refusal where
  | notFound
  | superseded (marker : Value)
  | correctionSuperseded
  | correctionExists (field : String)
  | correctionUnreadable
  /-- Deleted while it was being stored, or after another caller stored it. -/
  | correctionDeleted (error : String)
  deriving DecidableEq

/-- What the second phase needs of a stored correction. -/
structure RefutePlan where
  contentHash : String
  correctionHash : String
  reason : String
  supersede : Bool
  wrongCreatedAt : ℚ
  correctionCreatedAt : ℚ
  summaryMissing : Bool
  /-- The store's result when this call stored the correction. -/
  stored : Option StoreReport

inductive RefuteStage where
  | refused (refusal : Refusal)
  | stored (plan : RefutePlan)

/-- How the second phase ended. -/
inductive RefuteEnd where
  | superseded
  | contradicts
  | linkReasonConflict (stored : String)
  | conflict (marker : Value)
  | correctionSuperseded (marker : Value)
  | correctionDeleted
  | reasonConflict (stored : Option Value)
  | failed (step : String) (error : AlayaError) (unknown : Bool)

/-- What a refute answers. -/
inductive RefuteAnswer where
  | refused (refusal : Refusal)
  | finished (plan : RefutePlan) (ending : RefuteEnd)

namespace Refusal

def status : Refusal → String
  | notFound => "not_found"
  | superseded _ => "superseded"
  | correctionSuperseded => "correction_superseded"
  | correctionExists _ => "correction_exists"
  | correctionUnreadable => "correction_unreadable"
  | correctionDeleted _ => "correction_deleted"

def error : Refusal → String
  | notFound => "Memory not found"
  | superseded _ => "Memory is already superseded; refute its survivor instead"
  | correctionSuperseded => "The correction's content is stored already as a superseded memory; " ++
      "unsupersede it, or file a correction with different content"
  | correctionExists field => "The correction's text is stored already, with a different " ++ field ++
      "; refute without " ++ field ++ ", or update that memory first"
  | correctionUnreadable =>
    "A point holds the correction's content but its payload does not parse; " ++
      "repair or delete that point, or word the correction differently"
  | correctionDeleted error => error

end Refusal

namespace RefuteEnd

def status : RefuteEnd → String
  | superseded => "superseded"
  | contradicts => "contradicts"
  | linkReasonConflict _ | conflict _ | reasonConflict _ => "conflict"
  | correctionSuperseded _ => "correction_superseded"
  | correctionDeleted => "correction_deleted"
  | failed .. => "partial"

/-- The error text an ending carries; a success carries none. -/
def error (correctionHash : String) : RefuteEnd → Option String
  | superseded | contradicts => none
  | linkReasonConflict _ => some ("The memory is linked to this correction already, " ++
      "with another reason (refute_reason); nothing written")
  | conflict _ => some ("Correction stored as " ++ correctionHash ++
      ", but the memory was superseded meanwhile (superseded_by); " ++
      "refute that survivor instead, or reconcile the two")
  | correctionSuperseded _ => some ("The correction " ++ correctionHash ++
      " was superseded meanwhile (correction_superseded_by); nothing else was written. " ++
      "Refute with its survivor instead")
  | correctionDeleted => some ("The correction " ++ correctionHash ++
      " was deleted meanwhile; nothing else was written. Retry the refute to store it again")
  | reasonConflict _ => some ("The memory is superseded by this correction already, " ++
      "with another reason (supersession_reason); nothing written")
  | failed step error unknown => some ("Correction stored as " ++ correctionHash ++ ", but the " ++
      step ++ " step " ++ (if unknown then "has an unknown outcome" else "failed") ++ " (" ++
      error.safeMessage ++ "). Retry the same refute" ++
      (if step = "supersede" then ", or finish it with memory_supersede"
        else ", which stores the reason on the link") ++ ".")

end RefuteEnd

namespace RefuteAnswer

def status : RefuteAnswer → String
  | refused refusal => refusal.status
  | finished _ ending => ending.status

def success : RefuteAnswer → Bool
  | refused _ => false
  | finished plan ending => (ending.error plan.correctionHash).isNone

def error : RefuteAnswer → Option String
  | refused refusal => some refusal.error
  | finished plan ending => ending.error plan.correctionHash

/-- An answer is a success exactly where it carries no error. -/
theorem success_eq_isNone (answer : RefuteAnswer) : answer.success = answer.error.isNone := by
  cases answer with
  | refused _ => rfl
  | finished _ _ => rfl

end RefuteAnswer

namespace Refutation

/-- The correction as a store. -/
def correction (r : Refutation) : StoreParams where
  content := r.content
  tags := r.tags
  memoryType := r.memoryType
  metadata := none
  clientHostname := none
  summary := r.summary
  dedupThreshold := none
  citations := r.citations

/-- Caller-input checks. -/
def validate (r : Refutation) : Except String Unit := do
  let _ ← requireReason r.reason
  if r.content.isEmpty then throw "content cannot be empty"
  r.correction.validate

/-- The first field the caller sent that a memory with the correction's text does not match. -/
def differsFrom (r : Refutation) (existing : Memory) : Option String :=
  let citations := existing.metadata.bind fun md => md.get citationsKey
  if r.tags.any fun tags => tags.toFinset ≠ existing.tags.toFinset then some "tags"
  else if r.memoryType.any fun t => t ≠ existing.memoryType then some "memory_type"
  else if r.summary.any fun s => existing.summary ≠ some s then some "summary"
  else if r.citations.any fun c => citations ≠ some (.ofStrings c) then some "citations"
  else none

/-- Why a memory that holds the correction's text refuses this refute. -/
def refusal (r : Refutation) (existing : Memory) : Option Refusal :=
  if existing.isSuperseded then some .correctionSuperseded
  else (r.differsFrom existing).map .correctionExists

end Refutation

namespace MemoryService

open Alaya.Flow

/-- Why an insert-only store of the correction created nothing, yet no memory reads back. -/
def correctionUnreadable (correctionHash : String) : Flow Refusal := do
  let unreadable ← Vectors.existingHashes [correctionHash]
  return if unreadable ≠ [] then .correctionUnreadable
    else .correctionDeleted ("The correction's content was stored by another caller and deleted " ++
      "meanwhile; nothing was written. Retry the refute")

/-- A correction that was there already, or that another caller stored first. -/
def useExisting (refutation : Refutation) (correctionHash : String) :
    Flow (Except Refusal Memory) := do
  let some m ← Vectors.getByHash correctionHash
    | return .error (← correctionUnreadable correctionHash)
  match refutation.refusal m with
  | some refused => return .error refused
  | none => return .ok m

/-- The correction of a refute: the memory that holds its text, or this call's own store. -/
def storeCorrection (lib : Components) (refutation : Refutation) (correctionHash : String)
    (existing : Option Memory) (now : ℚ) :
    Flow (Except Refusal (Option Memory × Option StoreReport)) := do
  match existing with
  | some m =>
    match refutation.refusal m with
    | some refused => return .error refused
    | none => return .ok (some m, none)
  | none =>
    match ← attempt (storeMemoryMode lib refutation.correction false true now) with
    | .error (.deletedWhileStoring _) =>
      return .error (.correctionDeleted ("The correction was deleted while it was being stored; " ++
        "nothing was written. Retry the refute"))
    | .error e => throw e
    | .ok (some stored) => return .ok (none, some stored)
    | .ok none =>
      match ← useExisting refutation correctionHash with
      | .error refused => return .error refused
      | .ok m => return .ok (some m, none)

/-- The wrong memory's own refusal. -/
def wrongRefusal (refutation : Refutation) (correctionHash : String) (wrong : Memory) :
    Option Refusal :=
  match wrong.supersessionMarker with
  | none => none
  | some marker =>
    if refutation.supersede ∧ marker.asStr = some correctionHash then none
    else some (.superseded marker)

/-- The first phase's checks of its input: the trimmed reason and the correction's hash. -/
def refuteChecked (lib : Components) (contentHash : String) (refutation : Refutation) :
    Except AlayaError (String × String) := do
  if !validateContentHash contentHash then throw invalidContentHash
  let reason ← (requireReason refutation.reason).mapError .validation
  checked refutation.validate
  let correctionHash := lib.generateContentHash refutation.content
  if correctionHash = contentHash then
    throw (.validation "the correction's content is the refuted memory's own content")
  return (reason, correctionHash)

/-- The first phase's end: the correction's store, and what the second phase needs of it. -/
def planRefute (lib : Components) (contentHash : String) (refutation : Refutation)
    (reason correctionHash : String) (wrong : Memory) (existing : Option Memory) (now : ℚ) :
    Flow RefuteStage := do
  match ← storeCorrection lib refutation correctionHash existing now with
  | .error refused => return .refused refused
  | .ok (existing, stored) =>
    return .stored {
      contentHash, correctionHash, reason
      supersede := refutation.supersede
      wrongCreatedAt := wrong.createdAt
      correctionCreatedAt := (existing.map Memory.createdAt).getD now
      summaryMissing := (existing.map Memory.summary).getD refutation.summary |>.isNone
      stored }

/-- The first phase: the checks, then the correction's store. -/
def refuteStore (lib : Components) (contentHash : String) (refutation : Refutation) (now : ℚ) :
    Flow RefuteStage := do
  let (reason, correctionHash) ← ofExcept (refuteChecked lib contentHash refutation)
  let found ← Vectors.getBatch [contentHash, correctionHash]
  match found.find? fun m => m.contentHash = contentHash with
  | none => return .refused .notFound
  | some wrong =>
    match wrongRefusal refutation correctionHash wrong with
    | some refused => return .refused refused
    | none =>
      planRefute lib contentHash refutation reason correctionHash wrong
        (found.find? fun m => m.contentHash = correctionHash) now

/-- The correction's state before the second step: how the call ends, unless it is live or could
not be read. -/
def correctionGone (plan : RefutePlan) : Flow (Option RefuteEnd) := do
  match ← attempt (Vectors.getByHash plan.correctionHash) with
  | .ok (some m) => return m.supersessionMarker.map .correctionSuperseded
  | .ok none => return some .correctionDeleted
  | .error _ => return none

/-- The wrong memory's state around the link. -/
def wrongGone (plan : RefutePlan) : Flow (Option RefuteEnd) := do
  match ← attempt (Vectors.getByHash plan.contentHash) with
  | .ok (some m) => return m.supersessionMarker.map .conflict
  | .ok none => return some (.failed "contradicts_edge"
      (.notFound "the refuted memory was deleted meanwhile") false)
  | .error _ => return none

/-- After a supersede that was not confirmed, the stored marker decides: the write may have
landed. -/
def storedReason (plan : RefutePlan) (error : AlayaError) : Flow (Except RefuteEnd (Option Value)) := do
  match ← attempt (Vectors.getByHash plan.contentHash) with
  | .error _ => return .error (.failed "supersede" error true)
  | .ok none => return .error (.failed "supersede" error false)
  | .ok (some m) =>
    match m.supersessionMarker with
    | none => return .error (.failed "supersede" error false)
    | some marker =>
      return if marker.asStr = some plan.correctionHash then .ok m.supersessionReason
        else .error (.conflict marker)

/-- The reason a supersession by the correction carries, or how the call ends without one. -/
def supersedeReason (plan : RefutePlan) : Flow (Except RefuteEnd (Option Value)) := do
  match ← attempt (Vectors.supersedeIfLive plan.contentHash plan.correctionHash plan.reason) with
  | .ok .superseded => return .ok (some (.string plan.reason))
  | .ok (.alreadySuperseded reason) => return .ok reason
  | .ok (.conflict marker) => return .error (.conflict marker)
  | .error error => storedReason plan error

/-- The supersede branch, conditional on the wrong memory staying live. -/
def refuteSupersede (plan : RefutePlan) : Flow RefuteEnd := do
  match ← correctionGone plan with
  | some ending => return ending
  | none =>
    match ← supersedeReason plan with
    | .error ending => return ending
    | .ok reason =>
      if reason ≠ some (.string plan.reason) then return .reasonConflict reason
      else
        writeSupersedesEdges [plan.contentHash] plan.correctionHash
        return .superseded

/-- The nodes, then the link; the reason it carries, or how the call ends. -/
def linkCorrection (plan : RefutePlan) (now : ℚ) : Flow (Except RefuteEnd String) := do
  let _ ← attempt (graph (.ensureNode plan.contentHash))
  let _ ← attempt (graph (.ensureNode plan.correctionHash))
  match ← attempt (graph (.linkRefutation plan.correctionHash plan.contentHash now plan.reason)) with
  | .ok (some stored) => return .ok stored
  | .ok none => return .error (.failed "contradicts_edge"
      (.graph "an endpoint node is missing") false)
  | .error e => return .error (.failed "contradicts_edge" e false)

/-- The link branch: re-reads of both memories, the link, then the wrong memory again. -/
def refuteContradicts (plan : RefutePlan) (now : ℚ) : Flow RefuteEnd := do
  match ← correctionGone plan with
  | some ending => return ending
  | none =>
    match ← wrongGone plan with
    | some ending => return ending
    | none =>
      match ← linkCorrection plan now with
      | .error ending => return ending
      | .ok stored =>
        match ← wrongGone plan with
        | some ending => return ending
        | none => return if stored ≠ plan.reason then .linkReasonConflict stored else .contradicts

/-- The second phase: supersede or link. -/
def refuteFinish (plan : RefutePlan) (now : ℚ) : Flow RefuteEnd :=
  if plan.supersede then refuteSupersede plan else refuteContradicts plan now

/-- Both phases. -/
def memoryRefute (lib : Components) (contentHash : String) (refutation : Refutation) (now : ℚ) :
    Flow RefuteAnswer := do
  match ← refuteStore lib contentHash refutation now with
  | .refused refusal => return .refused refusal
  | .stored plan => return .finished plan (← refuteFinish plan now)

end MemoryService

end Alaya
