import Mathlib.Algebra.Order.Field.Rat
import Mathlib.Data.List.Basic

/-!
# JSON values

The value type of a JSON library: numbers keep the representation they were made in (an unsigned
integer, a negative integer or a double), objects are association lists kept in key order, as a
sorted map prints them.  `Object.get` reads the first entry of a key, `insert` replaces it,
`erase` removes every entry of it.  The lookup lemmas hold of every list, sorted or not, so no proof
has to carry an ordering invariant around.

A double is the rational it denotes: JSON has no infinities and no NaN.
-/

namespace Json

/-- A JSON number, by the representation it is held in. -/
inductive Number where
  | posInt (n : UInt64)
  | negInt (n : Int64)
  | float (x : ℚ)
  deriving DecidableEq, Repr

inductive Value where
  | null
  | bool (b : Bool)
  | number (n : Number)
  | string (s : String)
  | array (xs : List Value)
  | object (ms : List (String × Value))

/-- The members of an object, in key order. -/
abbrev Object := List (String × Value)

/-! ### Equality is decidable -/

mutual

def Value.decEq : (v w : Value) → Decidable (v = w)
  | .null, w => by
    cases w
    case null => exact .isTrue rfl
    all_goals exact .isFalse nofun
  | .bool b, w => by
    cases w
    case bool c => exact decidable_of_iff (b = c) (by simp)
    all_goals exact .isFalse nofun
  | .number n, w => by
    cases w
    case number m => exact decidable_of_iff (n = m) (by simp)
    all_goals exact .isFalse nofun
  | .string s, w => by
    cases w
    case string t => exact decidable_of_iff (s = t) (by simp)
    all_goals exact .isFalse nofun
  | .array xs, w => by
    cases w
    case array ys => exact @decidable_of_iff _ (xs = ys) (by simp) (Value.decEqItems xs ys)
    all_goals exact .isFalse nofun
  | .object ms, w => by
    cases w
    case object ns => exact @decidable_of_iff _ (ms = ns) (by simp) (Value.decEqMembers ms ns)
    all_goals exact .isFalse nofun

def Value.decEqItems : (xs ys : List Value) → Decidable (xs = ys)
  | [], [] => .isTrue rfl
  | [], _ :: _ => .isFalse nofun
  | _ :: _, [] => .isFalse nofun
  | x :: xs, y :: ys =>
    @decidable_of_iff _ (x = y ∧ xs = ys) (by simp)
      (@instDecidableAnd _ _ (Value.decEq x y) (Value.decEqItems xs ys))

def Value.decEqMembers : (ms ns : List (String × Value)) → Decidable (ms = ns)
  | [], [] => .isTrue rfl
  | [], _ :: _ => .isFalse nofun
  | _ :: _, [] => .isFalse nofun
  | (k, v) :: ms, (l, w) :: ns =>
    @decidable_of_iff _ (k = l ∧ v = w ∧ ms = ns) (by simp [and_assoc])
      (@instDecidableAnd _ _ _
        (@instDecidableAnd _ _ (Value.decEq v w) (Value.decEqMembers ms ns)))

end

instance : DecidableEq Value := Value.decEq

/-! ### Reading a value -/

namespace Value

def asStr : Value → Option String
  | .string s => some s
  | _ => none

def asArray : Value → Option (List Value)
  | .array xs => some xs
  | _ => none

def asObject : Value → Option Object
  | .object ms => some ms
  | _ => none

def asU64 : Value → Option UInt64
  | .number (.posInt n) => some n
  | _ => none

/-- The double nearest to a natural number, ties to even: exact below `2 ^ 53`. -/
def nearestDouble (n : ℕ) : ℚ :=
  if n < 2 ^ 53 then n
  else
    let e := n.log2 - 52
    let q := n / 2 ^ e
    let r := n % 2 ^ e
    (if 2 ^ e < 2 * r ∨ 2 ^ e = 2 * r ∧ q % 2 = 1 then q + 1 else q) * 2 ^ e

def asF64 : Value → Option ℚ
  | .number (.float x) => some x
  | .number (.posInt n) => some (nearestDouble n.toNat)
  | .number (.negInt n) => some (-nearestDouble n.toInt.natAbs)
  | _ => none

def isNull : Value → Bool
  | .null => true
  | _ => false

def ofF64 (x : ℚ) : Value := .number (.float x)

def ofU64 (n : UInt64) : Value := .number (.posInt n)

def ofStrings (ss : List String) : Value := .array (ss.map .string)

def ofF64s (xs : List ℚ) : Value := .array (xs.map ofF64)

@[simp] theorem asStr_string (s : String) : (string s).asStr = some s := rfl

@[simp] theorem asArray_array (xs : List Value) : (array xs).asArray = some xs := rfl

@[simp] theorem asObject_object (ms : Object) : (object ms).asObject = some ms := rfl

@[simp] theorem asU64_ofU64 (n : UInt64) : (ofU64 n).asU64 = some n := rfl

@[simp] theorem asF64_ofF64 (x : ℚ) : (ofF64 x).asF64 = some x := rfl

theorem asStr_eq_some {v : Value} {s : String} : v.asStr = some s ↔ v = string s := by
  cases v <;> simp [asStr]

theorem asObject_eq_some {v : Value} {ms : Object} : v.asObject = some ms ↔ v = object ms := by
  cases v <;> simp [asObject]

@[simp] theorem filterMap_asF64_ofF64s (xs : List ℚ) : (xs.map ofF64).filterMap asF64 = xs := by
  induction xs with
  | nil => rfl
  | cons x xs ih => simp [ih]

end Value

/-! ### Objects -/

namespace Object

/-- The value under a key. -/
def get (o : Object) (k : String) : Option Value := o.lookup k

/-- Set a key, keeping the members in key order. -/
def insert (k : String) (v : Value) : Object → Object
  | [] => [(k, v)]
  | (l, w) :: o =>
    if k = l then (k, v) :: o
    else if k < l then (k, v) :: (l, w) :: o
    else (l, w) :: insert k v o

/-- Remove a key. -/
def erase (k : String) (o : Object) : Object := o.filter (·.1 ≠ k)

/-- The object with no members but those of `keys`. -/
def only (keys : List String) (o : Object) : Object := o.filter (·.1 ∈ keys)

/-- Set every member of `w` on `o` and keep the rest of `o`. -/
def merge (o w : Object) : Object := w.foldr (fun m o => insert m.1 m.2 o) o

@[simp] theorem get_nil (k : String) : get [] k = none := rfl

theorem get_cons (k l : String) (v : Value) (o : Object) :
    get ((l, v) :: o) k = if k = l then some v else get o k := by
  by_cases h : k = l
  · simp [get, h]
  · simp [get, List.lookup_cons, h, beq_false_of_ne h]

theorem get_insert (k l : String) (v : Value) (o : Object) :
    get (insert l v o) k = if k = l then some v else get o k := by
  induction o with
  | nil => simp [insert, get_cons]
  | cons m o ih =>
    obtain ⟨j, w⟩ := m
    unfold insert
    split_ifs with hlj hlt hk hk
    all_goals grind [get_cons]

@[simp] theorem get_insert_self (k : String) (v : Value) (o : Object) :
    get (insert k v o) k = some v := by
  simp [get_insert]

theorem get_insert_of_ne {k l : String} (h : k ≠ l) (v : Value) (o : Object) :
    get (insert l v o) k = get o k := by
  simp [get_insert, h]

theorem get_erase (k l : String) (o : Object) :
    get (erase l o) k = if k = l then none else get o k := by
  induction o with
  | nil => simp [erase]
  | cons m o ih =>
    obtain ⟨j, w⟩ := m
    simp only [erase] at ih
    by_cases hj : j = l
    · simp only [erase, List.filter_cons, hj, ne_eq, not_true_eq_false, decide_false,
        Bool.false_eq_true, if_false, ih, get_cons]
      grind
    · simp only [erase, List.filter_cons, ne_eq, hj, not_false_eq_true, decide_true, if_true,
        get_cons, ih]
      grind

@[simp] theorem get_erase_self (k : String) (o : Object) : get (erase k o) k = none := by
  simp [get_erase]

theorem get_erase_of_ne {k l : String} (h : k ≠ l) (o : Object) :
    get (erase l o) k = get o k := by
  simp [get_erase, h]

theorem get_only (keys : List String) (k : String) (o : Object) :
    get (only keys o) k = if k ∈ keys then get o k else none := by
  induction o with
  | nil => simp [only]
  | cons m o ih =>
    obtain ⟨j, w⟩ := m
    simp only [only] at ih
    by_cases hj : j ∈ keys
    · simp only [only, List.filter_cons, hj, decide_true, if_true, get_cons, ih]
      grind
    · simp only [only, List.filter_cons, hj, decide_false, Bool.false_eq_true, if_false, ih,
        get_cons]
      grind

theorem get_only_of_mem {keys : List String} {k : String} (h : k ∈ keys) (o : Object) :
    get (only keys o) k = get o k := by
  simp [get_only, h]

theorem get_merge (o w : Object) (k : String) : get (merge o w) k = (get w k).or (get o k) := by
  induction w with
  | nil => simp [merge]
  | cons m w ih =>
    obtain ⟨j, v⟩ := m
    simp only [merge] at ih
    simp only [merge, List.foldr_cons, get_insert, ih, get_cons]
    split_ifs <;> simp

end Object

end Json
