import Alaya.Lib.Json
import Mathlib.Data.List.Forall2

/-!
# Reading a JSON value as a struct or an enum

A derived reader takes an object by the names of its fields, or an array by their order, and reads each field on its
own.  A field that is named twice, or an array with more items than there are fields, is no struct.  The members of
an object are those of its text, in their order and with those named twice.
-/

namespace Json

/-- What a value holds in the field named `k`, the `i`-th: nothing where the field is left out. -/
def field (v : Value) (k : String) (i : ℕ) : Option (Option Value) :=
  match v with
  | .object ms =>
    match ms.filter fun m => m.1 = k with
    | [] => some none
    | [m] => some (some m.2)
    | _ => none
  | .array xs => some xs[i]?
  | _ => none

/-- A value with at most `n` fields. -/
def shaped (n : ℕ) : Value → Bool
  | .object _ => true
  | .array xs => xs.length ≤ n
  | _ => false

variable {α : Type}

/-- A field that must be there. -/
def required (v : Value) (k : String) (i : ℕ) (read : Value → Option α) : Option α :=
  match field v k i with
  | some (some x) => read x
  | _ => none

/-- A field with a default. -/
def optional (v : Value) (k : String) (i : ℕ) (default : α) (read : Value → Option α) : Option α :=
  match field v k i with
  | some (some x) => read x
  | some none => some default
  | none => none

/-- An optional value: `null` is none. -/
def readOption (read : Value → Option α) : Value → Option (Option α)
  | .null => some none
  | v => (read v).map some

/-- The name of a variant without data: a string, or the one key of an object. -/
def variantName : Value → Option String
  | .string s => some s
  | .object [(k, .null)] => some k
  | _ => none

def readArray (read : Value → Option α) : Value → Option (List α)
  | .array xs => xs.mapM read
  | _ => none

theorem required_eq_some_iff {v : Value} {k : String} {i : ℕ} {read : Value → Option α} {a : α} :
    required v k i read = some a ↔ ∃ x, field v k i = some (some x) ∧ read x = some a := by
  unfold required
  split
  · next x hx => simp [hx]
  · next hnone =>
    constructor
    · exact nofun
    · rintro ⟨x, hx, -⟩
      exact absurd hx (hnone x)

theorem optional_eq_some_iff {v : Value} {k : String} {i : ℕ} {default a : α} {read : Value → Option α} :
    optional v k i default read = some a ↔
      field v k i = some none ∧ default = a ∨ ∃ x, field v k i = some (some x) ∧ read x = some a := by
  unfold optional
  split
  · next x hx => simp [hx]
  · next hx => simp [hx]
  · next hx => simp [hx]

/-- What an array is read as, item by item. -/
theorem readArray_eq_some_iff {v : Value} {read : Value → Option α} {as : List α} :
    readArray read v = some as ↔ ∃ xs, v = .array xs ∧ List.Forall₂ (fun x a => read x = some a) xs as := by
  have hitems : ∀ (xs : List Value) (as : List α),
      xs.mapM read = some as ↔ List.Forall₂ (fun x a => read x = some a) xs as := by
    intro xs
    induction xs with
    | nil =>
      intro as
      rw [List.mapM_nil, List.forall₂_nil_left_iff]
      exact Option.some_inj.trans eq_comm
    | cons x xs ih =>
      intro as
      rw [List.mapM_cons, List.forall₂_cons_left_iff]
      constructor
      · intro h
        obtain ⟨a, ha, h⟩ := Option.bind_eq_some_iff.mp h
        obtain ⟨rest, hrest, h⟩ := Option.bind_eq_some_iff.mp h
        exact ⟨a, rest, ha, (ih rest).mp hrest, (Option.some.inj h).symm⟩
      · rintro ⟨a, rest, ha, hrest, rfl⟩
        rw [ha, (ih rest).mpr hrest]
        rfl
  unfold readArray
  split
  · next xs =>
    rw [hitems]
    exact ⟨fun h => ⟨xs, rfl, h⟩, fun ⟨_, hxs, h⟩ => Value.array.inj hxs ▸ h⟩
  · next hv => exact ⟨nofun, fun ⟨xs, hxs, _⟩ => (hv xs hxs).elim⟩

/-! ### What a value spells

A reader is specified by a relation between values and what they spell; the relations compose as the readers do. -/

section Spells

variable (spells : Value → α → Prop)

/-- A field spells what it holds, or its default where it is left out. -/
def InField (v : Value) (k : String) (i : ℕ) (default a : α) : Prop :=
  field v k i = some none ∧ a = default ∨ ∃ x, field v k i = some (some x) ∧ spells x a

def OrNull (v : Value) : Option α → Prop
  | none => v = .null
  | some a => spells v a

def EachItem (v : Value) (as : List α) : Prop := ∃ xs, v = .array xs ∧ List.Forall₂ spells xs as

/-- A reader reads exactly what is spelled. -/
def Reads (read : Value → Option α) : Prop := ∀ v a, read v = some a ↔ spells v a

end Spells

namespace Reads

variable {spells : Value → α → Prop} {read : Value → Option α}

theorem optional_iff (h : Reads spells read) {v : Value} {k : String} {i : ℕ} {default a : α} :
    optional v k i default read = some a ↔ InField spells v k i default a := by
  rw [optional_eq_some_iff]
  unfold InField
  simp only [h _ _, eq_comm]

theorem required_iff (h : Reads spells read) {v : Value} {k : String} {i : ℕ} {a : α} :
    required v k i read = some a ↔ ∃ x, field v k i = some (some x) ∧ spells x a := by
  rw [required_eq_some_iff]
  simp only [h _ _]

theorem orNull (h : Reads spells read) (hnull : ∀ a, ¬spells .null a) : Reads (OrNull spells) (readOption read) := by
  intro v o
  unfold readOption
  split
  · cases o with
    | none => exact iff_of_true rfl rfl
    | some a => exact iff_of_false nofun (hnull a)
  · next hv =>
    rw [Option.map_eq_some_iff]
    cases o with
    | none => exact iff_of_false nofun hv
    | some a =>
      show (∃ x, read v = some x ∧ some x = some a) ↔ spells v a
      simpa using h v a

theorem eachItem (h : Reads spells read) : Reads (EachItem spells) (readArray read) := by
  intro v as
  rw [readArray_eq_some_iff]
  unfold EachItem
  simp only [h _ _]

end Reads

def IsString (v : Value) (s : String) : Prop := v = .string s

def IsCount (v : Value) (n : UInt64) : Prop := v = .number (.posInt n)

theorem reads_asStr : Reads IsString Value.asStr := fun _ _ => Value.asStr_eq_some

theorem reads_asU64 : Reads IsCount Value.asU64 := by
  intro v n
  unfold Value.asU64 IsCount
  split
  · simp
  · next hv => exact ⟨nofun, fun h => (hv n h).elim⟩

end Json
