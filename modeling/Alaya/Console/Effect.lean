import Alaya.Lib.Digits
import Alaya.Lib.Lines
import Alaya.Types.Memory

/-!
# Whether a write to the client store is in effect

A restriction op is in effect on a stack once the stack holds the restrictions part the store serves and
that part carries the op.  The part is read with a set hash recomputed from its own body; an instance
reports the hash of the set it holds, and equal hashes mean equal sets.  Every doubt reads as not in effect,
or as unknown.
-/

namespace Alaya.Console

open Std (TreeMap TreeSet TransOrd LawfulEqOrd)
open Json

/-! ### Texts -/

/-- The start of a text, marked where something was cut. -/
def clip (s : String) (max : ℕ) : String :=
  let out := String.ofList (s.toList.take max)
  if out.utf8ByteSize < s.utf8ByteSize then out ++ "…" else out

def isHex64 (s : String) : Bool :=
  s.utf8ByteSize = 64 && s.toList.all fun c => isAsciiDigit c || ('a' ≤ c ∧ c ≤ 'f')

/-- `str::parse::<u64>`. -/
def parseUnsigned (s : String) : Option ℕ :=
  match s.toList with
  | '+' :: cs => parseU64 cs
  | cs => parseU64 cs

/-- A client name: `[a-z0-9]`, then `[a-z0-9_-]`, at most 63 characters. -/
def isName (s : String) : Bool :=
  match s.toList with
  | [] => false
  | c :: cs =>
    s.utf8ByteSize ≤ 63 && (isAsciiLowercase c || isAsciiDigit c) &&
      (c :: cs).all fun c => isAsciiLowercase c || isAsciiDigit c || c = '_' || c = '-'

/-- A member of a JSON object. -/
def member (v : Value) (k : String) : Option Value := v.asObject.bind fun o => o.get k

/-- `Value::pointer`, by the names on the way. -/
def pointer (v : Value) (path : List String) : Option Value := path.foldlM member v

/-! ### The served part -/

inductive RecordState where
  | disabled
  | enabled
  deriving DecidableEq

namespace RecordState

def parse (s : String) : Option RecordState :=
  if s = "disabled" then some disabled else if s = "enabled" then some enabled else none

def asStr : RecordState → String
  | disabled => "disabled"
  | enabled => "enabled"

end RecordState

/-- A restriction op as the write's own result reported it. -/
structure Op where
  name : String
  state : RecordState
  version : ℕ
  deriving DecidableEq

/-- The restrictions part the store serves to polls now. -/
structure ServedPart where
  setHash : String
  /-- False when rows were lost. -/
  full : Bool
  records : TreeMap String (RecordState × ℕ)

structure BodyRecord where
  name : String
  state : String
  version : ℕ

structure PartBody where
  full : Bool
  records : List BodyRecord
  revokedDigests : List String

def recordLine (name : String) (state : RecordState) (version : ℕ) : String :=
  "r " ++ name ++ " " ++ state.asStr ++ " " ++ toString version ++ "\n"

def digestLine (d : String) : String := "d " ++ d ++ "\n"

/-- The text under the set hash: the records in name order, then the digests in ascending order. -/
def setText (records : List (String × RecordState × ℕ)) (digests : List String) : String :=
  let records : TreeMap String (RecordState × ℕ) := TreeMap.ofList records
  let digests : TreeSet String := TreeSet.ofList digests
  String.join (records.toList.map fun (name, state, version) => recordLine name state version) ++
    String.join (digests.toList.map digestLine)

/-- What the judgement takes from outside the console. -/
structure Externals where
  /-- SHA-256 of a text, in hex. -/
  sha256 : String → String
  /-- The part's body, deserialised. -/
  readBody : String → Option PartBody
  /-- A text as an error quotes it. -/
  quoted : String → String

def setHash (ext : Externals) (records : List (String × RecordState × ℕ)) (digests : List String) : String :=
  ext.sha256 (setText records digests)

def bodyOf (ext : Externals) (part : Value) : Except String PartBody :=
  match ((member part "body").bind Value.asStr).bind ext.readBody with
  | some body => .ok body
  | none => .error "the part's body could not be read"

/-- The state of the edge stack, from the store's record of its latest poll. -/
structure Report where
  /-- The report was refreshed in the last 15 s. -/
  running : Bool
  setHash : Option String
  digest : Option String

/-- One instance as the metrics store shows it. -/
structure Instance where
  id : String
  up : Bool
  /-- The `set_hash` of every restrictions series it exports. -/
  setHashes : List String
  behind : Bool
  /-- The `digest` of every document series it exports, or why they could not be read. -/
  docDigests : Except String (List String)

/-- What the console can see of one stack. -/
inductive Sight where
  /-- Through the store's report, where the document side of the store answered. -/
  | report (r : Option Report)
  /-- Through the metrics store. -/
  | instances (list : Except String (List Instance))

inductive Verdict where
  | inEffect
  | notInEffect (why : String)
  | unknown (why : String)
  deriving DecidableEq

/-! ### The judgement -/

/-- Whether the served part carries an op. -/
inductive Carried where
  | yes
  /-- A newer record of the name in the other state. -/
  | superseded (version : ℕ)
  | no (why : String)
  deriving DecidableEq

def carried (part : ServedPart) (op : Op) : Carried :=
  match part.records[op.name]? with
  | none => .no ("the served part holds no record of " ++ op.name)
  | some (state, version) =>
    if state = op.state then
      if op.version ≤ version then .yes
      else .no ("the served record of " ++ op.name ++ " is " ++ state.asStr ++ " at " ++ toString version ++
        ", older than this op")
    else if op.version < version then .superseded version
    else .no ("the served part still holds " ++ op.name ++ "'s " ++ state.asStr ++ " record at " ++
      toString version)

def clipId (id : String) : String := clip id 80

/-- A verdict's faults, at most 8 of them named and the rest counted. -/
def joined (faults : List String) : String :=
  let more := faults.length - 8
  let out := "; ".intercalate (faults.take 8)
  if 0 < more then out ++ "; and " ++ toString more ++ " more" else out

/-- What is wrong with an instance: it is down, or what `fault` finds. -/
def faultOf (fault : Instance → Except String (Option String)) (i : Instance) :
    Except String (Option String) :=
  if !i.up then .ok (some (clipId i.id ++ " is not scraped (up is 0): draining, restarting or unreachable"))
  else fault i

/-- The rules every judgement shares. -/
def judgeSight (sight : Sight) (cf : Report → Verdict) (fault : Instance → Except String (Option String)) :
    Verdict :=
  match sight with
  | .report none =>
    .unknown "the document side of the store did not answer, so CF's report could not be read"
  | .report (some r) =>
    if !r.running then
      .notInEffect "CF has not reported in the last 15 s: asleep, restarting or cut off from the store"
    else cf r
  | .instances (.error e) => .unknown ("the metrics store could not be read: " ++ e)
  | .instances (.ok list) =>
    if list.isEmpty then .unknown "no instance of this stack is visible in the metrics store"
    else match list.mapM (faultOf fault) with
      | .error why => .unknown why
      | .ok faults =>
        if (faults.filterMap id).isEmpty then .inEffect else .notInEffect (joined (faults.filterMap id))

/-- What keeps an instance that is up from holding the served set. -/
def setFault (i : Instance) (setHash : String) : Option String :=
  if i.behind then
    some (clipId i.id ++ " holds a restriction the store lost (restrictions behind): confirmed only after a reseed")
  else match i.setHashes with
    | [] => some (clipId i.id ++ " exports no client-store gauge")
    | [h] => if h = setHash then none else some (clipId i.id ++ " holds a different set")
    | many => some (clipId i.id ++ " exports " ++ toString many.length ++
        " restrictions series, so its current set is unknown")

def partialPart : String :=
  "the restrictions part is partial: the store lost rows or its integrity record, so nothing reads as in " ++
    "effect until restrictions_import reseeds it"

def moved : String :=
  "the served part changed, or could not be re-read, while the console was reading; re-checking"

/-- Whether a stack holds the served part. -/
def holds (part : ServedPart) (sight : Sight) : Verdict :=
  if !part.full then .notInEffect partialPart
  else judgeSight sight
    (fun r => match r.setHash with
      | some h => if h = part.setHash then .inEffect else .notInEffect "CF holds a different set"
      | none => .notInEffect "CF reports no set")
    fun i => .ok (setFault i part.setHash)

/-- One op's judgement on every stack that counts. -/
structure Judged where
  carried : Carried
  verdicts : List (String × Verdict)

/-- What a name is written with. -/
theorem nameChar_of_isName {s : String} (h : isName s = true) :
    ∀ c ∈ s.toList, (isAsciiLowercase c || isAsciiDigit c || c = '_' || c = '-') = true := by
  unfold isName at h
  split at h
  · cases h
  · rename_i hs
    rw [hs]
    exact List.all_eq_true.mp (Bool.and_eq_true_iff.mp h).2

theorem asStr_inj {state state' : RecordState} (h : state.asStr = state'.asStr) : state = state' := by
  cases state <;> cases state' <;> first | rfl | exact absurd h (by decide)

/-- What a part that parses is: its hash is recomputed from the body it came with. -/
structure Parsed (ext : Externals) (v : Value) (part : ServedPart) (body : PartBody) : Prop where
  read : bodyOf ext v = .ok body
  full : part.full = body.full
  hash : part.setHash = setHash ext part.records.toList body.revokedDigests
  hex : isHex64 part.setHash = true
  names : ∀ n, n ∈ part.records → isName n = true
  digests : ∀ d ∈ body.revokedDigests, isHex64 d = true

end Alaya.Console
