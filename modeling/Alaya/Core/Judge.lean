import Alaya.Core.Supersede

/-!
# Judging and resolving a contradiction

`judgeContradiction` asks the judge about one pair and writes its verdict on the edge, or an
`unjudged` marker when the pair fails the same way every time.  `resolveContradiction` is the
operator's stamp.
-/

namespace Alaya

open Interleave

/-- Which memory of a judged pair survives. -/
inductive Survivor where
  | a
  | b
  deriving DecidableEq

/-- A judge's verdict on one pair. -/
structure JudgeAnswer where
  verdict : Verdict
  survivor : Option Survivor
  reason : String
  confidence : ℚ
  model : String
  deriving DecidableEq

/-- The judge: what it answers about two memories. -/
structure Judge where
  modelName : String
  judge : Memory → Memory → Except AlayaError JudgeAnswer

/-- What became of one pair. -/
inductive JudgeOutcome where
  | judged (answer : JudgeAnswer) (persisted : Bool)
  | unjudged (marked spent : Bool)
  | rateLimited (retryAfterSecs : Option ℕ)
  deriving DecidableEq

def maxReasonChars : ℕ := 200

/-- One line of a reason: no control characters, trimmed, clipped. -/
def sanitizeReason (s : String) : String :=
  String.ofList ((trim (String.ofList (s.toList.filter fun c => !isControl c))).toList.take maxReasonChars)

namespace MemoryService

open Alaya.Flow

/-- Write a verdict on the edge; whether it landed.  A failure is not fatal. -/
def persistVerdict (src dst : String) (edge : EdgeVerdict) : Flow Bool := do
  let updated ← attempt (Bridge.setVerdict src dst edge)
  return updated.toOption.getD false

/-- The marker of a pair that fails the same way every time. -/
def unjudgedMarker (model why : String) (now : ℚ) : EdgeVerdict where
  verdict := .unjudged
  verdictSurvivor := none
  verdictReason := sanitizeReason ("unjudged: " ++ why)
  verdictConfidence := 0
  verdictModel := model
  judgedAt := now

def markUnjudged (src dst model why : String) (now : ℚ) : Flow Bool :=
  persistVerdict src dst (unjudgedMarker model why now)

/-- What the judge's answer is written as. -/
def answerVerdict (src dst : String) (answer : JudgeAnswer) (now : ℚ) : EdgeVerdict where
  verdict := answer.verdict
  verdictSurvivor := answer.survivor.map fun
    | .a => src
    | .b => dst
  verdictReason := answer.reason
  verdictConfidence := answer.confidence
  verdictModel := answer.model
  judgedAt := now

/-- Write down what the judge said of two memories. -/
def recordJudgement (judge : Judge) (src dst : String) (now : ℚ) :
    Except AlayaError JudgeAnswer → Flow JudgeOutcome
  | .ok answer => do
    let persisted ← persistVerdict src dst (answerVerdict src dst answer now)
    return .judged answer persisted
  | .error (.rateLimited retryAfterSecs) => return .rateLimited retryAfterSecs
  | .error (.unavailable _ spent) => return .unjudged false spent
  | .error e => do
    let marked ← markUnjudged src dst judge.modelName e.display now
    return .unjudged marked true

/-- Judge one `src -> dst` pair.  No memory is touched and no edge is created or deleted. -/
def judgeContradiction (judge : Option Judge) (src dst : String) (now : ℚ) : Flow JudgeOutcome :=
  match judge with
  | none => pure (.unjudged false false)
  | some judge =>
    if !validateContentHash src || !validateContentHash dst || src = dst then
      pure (.unjudged false false)
    else do
      match ← attempt (Vectors.getBatch [src, dst]) with
      | .error _ => return .unjudged false false
      | .ok batch =>
        match batch.find? fun m => m.contentHash = src, batch.find? fun m => m.contentHash = dst with
        | some a, some b => recordJudgement judge src dst now (judge.judge a b)
        | _, _ =>
          let marked ← markUnjudged src dst judge.modelName "endpoint missing from vector store" now
          return .unjudged marked false

/-- What a resolve reports. -/
structure ResolveReport where
  memoryAHash : String
  memoryBHash : String
  resolution : Option Resolution
  resolvedAt : Option ℚ
  resolvedVia : Option String
  deriving DecidableEq

/-- A resolve's checks of its input: who resolves. -/
def resolveChecked (memoryAHash memoryBHash resolvedVia : String) : Except AlayaError String :=
  if !validateContentHash memoryAHash || !validateContentHash memoryBHash then .error invalidContentHash
  else if memoryAHash = memoryBHash then
    .error (.validation "memory_a_hash and memory_b_hash must differ")
  else requireVia "resolved_via" resolvedVia

/-- Resolve a `memory_a -> memory_b` pair, or reverse that. -/
def resolveContradiction (memoryAHash memoryBHash : String) (resolution : Option Resolution)
    (resolvedVia : String) (now : ℚ) : Flow ResolveReport := do
  let via ← ofExcept (resolveChecked memoryAHash memoryBHash resolvedVia)
  let matched ← Bridge.setResolution memoryAHash memoryBHash resolution via now false false
  if !matched then
    throw (.notFound ("no CONTRADICTS edge " ++ memoryAHash ++ " -> " ++ memoryBHash))
  else
    return ⟨memoryAHash, memoryBHash, resolution, resolution.map fun _ => now, resolution.map fun _ => via⟩

end MemoryService

/-! ### The calls of a judgement -/

section

open Alaya.Flow Program

variable {P : Call → Prop} {src dst : String} {now : ℚ}

theorem makes_setVerdict (v : EdgeVerdict) (h : P (.graph (.setContradictionVerdict src dst v))) :
    (Bridge.setVerdict src dst v).run.Makes P := by
  unfold Bridge.setVerdict
  split
  · exact .throw _
  split
  · exact .throw _
  split
  · exact .throw _
  · exact (makes_ask h).seq fun _ => .pure _

theorem makes_persistVerdict (v : EdgeVerdict) (h : P (.graph (.setContradictionVerdict src dst v))) :
    (MemoryService.persistVerdict src dst v).run.Makes P :=
  (makes_attempt (makes_setVerdict v h)).seq fun _ => .pure _

theorem makes_recordJudgement (judge : Judge) (answer : Except AlayaError JudgeAnswer)
    (h : ∀ v, P (.graph (.setContradictionVerdict src dst v))) :
    (MemoryService.recordJudgement judge src dst now answer).run.Makes P := by
  unfold MemoryService.recordJudgement
  split
  · exact (makes_persistVerdict _ (h _)).seq fun _ => .pure _
  · exact .pure _
  · exact .pure _
  · exact (makes_persistVerdict _ (h _)).seq fun _ => .pure _

/-- A judgement reads its two memories and writes a verdict on their edge; a memory is not judged
against itself. -/
theorem makes_judgeContradiction (judge : Option Judge) (hread : P (.vectors (.getBatch [src, dst])))
    (hwrite : src ≠ dst → ∀ v, P (.graph (.setContradictionVerdict src dst v))) :
    (MemoryService.judgeContradiction judge src dst now).run.Makes P := by
  unfold MemoryService.judgeContradiction
  split
  · exact .pure _
  split
  · exact .pure _
  · next hvalid =>
    have hwrite := hwrite fun heq => hvalid (by simp [heq])
    refine (makes_attempt (makes_ask hread)).seq fun batch => ?_
    split
    · exact .pure _
    · split
      · exact makes_recordJudgement _ _ hwrite
      · exact (makes_persistVerdict _ (hwrite _)).seq fun _ => .pure _

end

end Alaya
