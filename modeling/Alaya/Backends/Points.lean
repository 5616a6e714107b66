import Alaya.Lib.Json

/-!
# The points of the collection

What the vector database does with one point, as its API documents it: a conditional write is
evaluated and applied in one step, on one copy of the point, and the answer does not say whether it
applied.  `Request.evaluate` is that step: the payload the point holds afterwards when the request
applied, `none` when it left the point alone.
-/

namespace Alaya

open Json

/-- The payload of a point. -/
abbrev Payload := Object

/-- A point id. -/
abbrev PointId := String

/-- A condition on one payload key. -/
inductive Condition where
  /-- The value is `value`, or an array holding it. -/
  | matchValue (key value : String)
  /-- The key is missing, null or an empty array. -/
  | isEmpty (key : String)
  deriving DecidableEq

def Condition.holds : Condition → Payload → Bool
  | .matchValue key value, p =>
    match p.get key with
    | some (.string s) => s = value
    | some (.array xs) => Value.string value ∈ xs
    | _ => false
  | .isEmpty key, p =>
    match p.get key with
    | none | some .null | some (.array []) => true
    | _ => false

/-- A request to write one point. -/
inductive Request where
  /-- Set the given keys of a matching point and keep its other keys. -/
  | setPayload (payload : Payload) (filter : Condition)
  /-- Replace the whole payload of a matching point. -/
  | overwritePayload (payload : Payload) (filter : Condition)
  /-- Create the point, or leave an existing one untouched. -/
  | upsertInsertOnly (payload : Payload)
  /-- Replace a matching point, or leave the collection untouched. -/
  | upsertUpdateOnly (payload : Payload) (updateFilter : Condition)
  deriving DecidableEq

/-- The payload after the request applied to a point that held `cell`; `none` when it did not. -/
def Request.evaluate : Request → Option Payload → Option Payload
  | .setPayload payload filter, some p => if filter.holds p then some (p.merge payload) else none
  | .overwritePayload payload filter, some p => if filter.holds p then some payload else none
  | .upsertInsertOnly payload, none => some payload
  | .upsertUpdateOnly payload updateFilter, some p =>
    if updateFilter.holds p then some payload else none
  | .setPayload .., none | .overwritePayload .., none => none
  | .upsertInsertOnly _, some _ | .upsertUpdateOnly .., none => none

@[simp] theorem Condition.holds_matchValue_of_string {p : Payload} {key s value : String}
    (h : p.get key = some (.string s)) :
    (Condition.matchValue key value).holds p = true ↔ s = value := by
  simp [Condition.holds, h]

theorem Condition.not_isEmpty_of_string {p : Payload} {key s : String}
    (h : p.get key = some (.string s)) : (Condition.isEmpty key).holds p = false := by
  simp [Condition.holds, h]

end Alaya
