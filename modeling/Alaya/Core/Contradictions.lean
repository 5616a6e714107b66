import Alaya.Core.Stats
import Alaya.Core.Supersede
import Alaya.Lib.Paging

/-!
# The contradiction queue of the service

`memoryContradictions` asks the bridge for one page of the queue, looks its memories up in the vector
store, and leaves out the pairs with a superseded memory when resolved ones are not asked for.  Its
next offset counts the page the bridge answered, so walking the offsets covers the queue.
-/

namespace Alaya

open Paging Rows

/-- One more than the greatest `usize`. -/
def usizeSize : ℕ := 2 ^ 64

/-- An addition of `usize`; `none` on overflow. -/
def checkedAdd (m n : ℕ) : Option ℕ := if m + n < usizeSize then some (m + n) else none

/-- At most so many characters of a text. -/
def truncate (s : String) (maxChars : ℕ) : String :=
  if s.length ≤ maxChars then s else String.ofList (s.toList.take maxChars) ++ "..."

/-- The verdict filter when the caller passes none. -/
def defaultVerdictFilter : List String := ["contradiction", "supersession", Verdict.unjudged.asStr]

/-- A verdict filter is a non-empty list of verdicts. -/
def validateVerdictFilter (verdicts : List String) : Except String Unit :=
  if verdicts.isEmpty || verdicts.any fun v => (Verdict.parse v).isNone then
    .error ("verdicts must be a non-empty subset of [\"contradiction\", \"supersession\", " ++
      "\"coexist\", \"unrelated\", \"unjudged\"]")
  else .ok ()

namespace MemoryService

/-- A memory of a batch, by its hash; a later one replaces an earlier. -/
def lookupMemory (memories : List Memory) (hash : String) : Option Memory :=
  memories.reverse.find? fun m => m.contentHash = hash

/-- The query of a page. -/
def contradictionsQuery (limit offset : ℕ) (includeResolved : Bool) (verdicts : List String) :
    ContradictionQuery where
  limit := max 1 (min limit ContradictionQuery.maxLimit)
  skip := offset
  verdicts := some verdicts
  excludeResolved := !includeResolved
  needsJudging := false
  rejudgeModel := none

end MemoryService

/-! ### Walking the queue -/

section

variable {g : Graph} {askGraph : ContradictionQuery → Except AlayaError (List Contradiction)}
  {getBatch : List String → Except AlayaError (List Memory)} {limit offset : ℕ}
  {includeResolved : Bool} {verdicts : Option (List String)}

/-- The edges a reader of the queue asks for. -/
def asked (g : Graph) (limit : ℕ) (includeResolved : Bool) (verdicts : Option (List String)) :
    List MatchedEdge :=
  g.matchedContradictions
    (MemoryService.contradictionsQuery limit 0 includeResolved (verdicts.getD defaultVerdictFilter))

end

/-! ### A queue of two pairs, one on a page -/

end Alaya
