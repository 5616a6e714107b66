import Mathlib.Data.Rat.Defs

/-!
# Relations between memories

The relation types of the graph, the judge's `Verdict` and the operator's `Resolution` of a
CONTRADICTS pair, the pairs and tallies that are read of such edges, and `ContradictionQuery`, the
selection of the contradiction queue.
-/

namespace Alaya

/-- Relation types a caller may create. -/
inductive UserRelationType where
  | relatesTo
  | precedes
  | contradicts
  deriving DecidableEq, Repr

/-- Machine verdict on a CONTRADICTS pair. -/
inductive Verdict where
  | contradiction
  | supersession
  | coexist
  | unrelated
  /-- No usable verdict: the marker of a deterministic judge failure. -/
  | unjudged
  deriving DecidableEq, Repr

namespace Verdict

def all : List Verdict := [contradiction, supersession, coexist, unrelated, unjudged]

def asStr : Verdict → String
  | contradiction => "contradiction"
  | supersession => "supersession"
  | coexist => "coexist"
  | unrelated => "unrelated"
  | unjudged => "unjudged"

def parse (s : String) : Option Verdict := all.find? fun v => v.asStr = s

theorem mem_all (v : Verdict) : v ∈ all := by
  cases v <;> decide

theorem asStr_inj {v v' : Verdict} (h : v.asStr = v'.asStr) : v = v' := by
  revert h
  cases v <;> cases v' <;> decide

theorem parse_asStr (v : Verdict) : parse v.asStr = some v := by
  cases v <;> decide

end Verdict

/-- Verdict fields as persisted on a CONTRADICTS edge. -/
structure EdgeVerdict where
  verdict : Verdict
  verdictSurvivor : Option String
  verdictReason : String
  verdictConfidence : ℚ
  verdictModel : String
  judgedAt : ℚ
  deriving DecidableEq

/-- Operator resolution of a CONTRADICTS pair that leaves both memories in place. -/
inductive Resolution where
  | keepBoth
  deriving DecidableEq, Repr

namespace Resolution

def all : List Resolution := [keepBoth]

theorem mem_all (r : Resolution) : r ∈ all := by
  cases r
  decide

end Resolution

/-- A contradiction pair of the queue. -/
structure Contradiction where
  memoryAHash : String
  memoryBHash : String
  confidence : Option ℚ
  createdAt : Option ℚ
  verdict : Option EdgeVerdict
  resolution : Option Resolution
  resolvedAt : Option ℚ
  resolvedVia : Option String
  refuteReason : Option String
  deriving DecidableEq

/-- How many edges carry a verdict, and whether their pairs are resolved. -/
structure VerdictTally where
  verdict : Option String
  resolved : Bool
  count : ℕ
  deriving DecidableEq

structure ReasonTally where
  reason : String
  count : ℕ
  deriving DecidableEq

/-- The tallies of all CONTRADICTS edges that count them by verdict and by failure. -/
structure ContradictionStats where
  verdicts : List VerdictTally
  failures : List ReasonTally

/-- Selection of one page of CONTRADICTS pairs. -/
structure ContradictionQuery where
  limit : ℕ
  skip : ℕ
  /-- Only edges whose verdict is in the list; `"unjudged"` matches an absent verdict too. -/
  verdicts : Option (List String)
  excludeResolved : Bool
  needsJudging : Bool
  rejudgeModel : Option String
  deriving DecidableEq

namespace ContradictionQuery

def maxLimit : ℕ := 500

/-- The page size asked for, clamped. -/
def pageLimit (q : ContradictionQuery) : ℕ := max 1 (min q.limit maxLimit)

/-- Whether the query is a backfill selection. -/
def selectsUnjudged (q : ContradictionQuery) : Bool := q.needsJudging || q.rejudgeModel.isSome

end ContradictionQuery

end Alaya
