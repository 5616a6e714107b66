import Alaya.Types.Citation
import Mathlib.Data.Int.Log
import Mathlib.Data.Rat.Floor
import Mathlib.Algebra.Order.Field.Rat

/-!
# Doubles read from a text

A double is the rational it denotes, so only finite values are read.
-/

namespace Alaya

/-- Round to an integer, ties to even. -/
def roundEven (q : ℚ) : ℤ :=
  let n := q.floor
  if q - n < 1 / 2 ∨ q - n = 1 / 2 ∧ n % 2 = 0 then n else n + 1

/-- The nearest double, ties to even; `none` for what rounds to an infinity. -/
def toDouble (x : ℚ) : Option ℚ :=
  let ulp : ℚ := 2 ^ max (Int.log 2 |x| - 52) (-1074)
  let y := roundEven (x / ulp) * ulp
  if |y| < 2 ^ 1024 then some y else none

/-- The nearest single, ties to even; `none` for what rounds to an infinity. -/
def toSingle (x : ℚ) : Option ℚ :=
  let ulp : ℚ := 2 ^ max (Int.log 2 |x| - 23) (-149)
  let y := roundEven (x / ulp) * ulp
  if |y| < 2 ^ 128 then some y else none

/-- The value of an `f32`: a significand of 24 bits and its exponent. -/
def IsSingle (x : ℚ) : Prop :=
  ∃ (n e : ℤ), x = n * 2 ^ e ∧ |n| < 2 ^ 24 ∧ -149 ≤ e ∧ e ≤ 104

/-- The sign of a number, and what follows it. -/
def signOf : List Char → ℤ × List Char
  | '+' :: cs => (1, cs)
  | '-' :: cs => (-1, cs)
  | cs => (1, cs)

def decimal (cs : List Char) : ℕ := cs.foldl (fun n c => 10 * n + (c.toNat - '0'.toNat)) 0

/-- `[eE][+-]?[0-9]+`, or nothing. -/
def exponentOf : List Char → Option ℤ
  | [] => some 0
  | c :: cs =>
    let (sign, digits) := signOf cs
    if (c = 'e' ∨ c = 'E') ∧ digits ≠ [] ∧ digits.all isAsciiDigit then some (sign * decimal digits) else none

/-- `str::parse::<f64>`, for the values that are finite. -/
def parseFinite (s : String) : Option ℚ := do
  let (sign, cs) := signOf s.toList
  let whole := cs.takeWhile isAsciiDigit
  let rest := cs.dropWhile isAsciiDigit
  let (fraction, rest) := match rest with
    | '.' :: cs => (cs.takeWhile isAsciiDigit, cs.dropWhile isAsciiDigit)
    | _ => ([], rest)
  if whole = [] ∧ fraction = [] then none
  else
    let exponent ← exponentOf rest
    toDouble (sign * decimal (whole ++ fraction) * 10 ^ (exponent - fraction.length))

/-! ### Rounding a value that needs none -/

theorem roundEven_intCast (n : ℤ) : roundEven n = n := by
  have hfloor : (n : ℚ).floor = n := Rat.floor_intCast n
  have hlow : (n : ℚ) - (n : ℤ) < 1 / 2 := by
    rw [sub_self]
    decide +kernel
  show (if (n : ℚ) - ((n : ℚ).floor : ℤ) < 1 / 2 ∨ _ then (n : ℚ).floor else _) = n
  rw [hfloor, if_pos (.inl hlow)]

/-- A significand that fits `p + 1` bits is not rounded: the value is a whole number of units in its last place. -/
theorem roundEven_ulp {p : ℕ} {low n e : ℤ} (hn : |n| < 2 ^ (p + 1)) (hlow : low ≤ e) :
    roundEven ((n : ℚ) * 2 ^ e / 2 ^ max (Int.log 2 |(n : ℚ) * 2 ^ e| - p) low) *
      2 ^ max (Int.log 2 |(n : ℚ) * 2 ^ e| - p) low = (n : ℚ) * 2 ^ e := by
  have htwo : (0 : ℚ) < 2 := by decide +kernel
  obtain ⟨k, hk⟩ : ∃ k, k = max (Int.log 2 |(n : ℚ) * 2 ^ e| - p) low := ⟨_, rfl⟩
  rw [← hk]
  obtain ⟨m, hm⟩ : ∃ m : ℤ, (n : ℚ) * 2 ^ e / 2 ^ k = m := by
    by_cases hzero : n = 0
    · exact ⟨0, by simp [hzero]⟩
    · have hpos : 0 < |(n : ℚ) * 2 ^ e| :=
        abs_pos.mpr (mul_ne_zero (Int.cast_ne_zero.mpr hzero) (zpow_pos htwo e).ne')
      have hlt : |(n : ℚ) * 2 ^ e| < (2 : ℚ) ^ (e + (p + 1 : ℕ)) := by
        rw [abs_mul, abs_of_pos (zpow_pos htwo e), zpow_add₀ htwo.ne', mul_comm ((2 : ℚ) ^ e)]
        refine mul_lt_mul_of_pos_right ?_ (zpow_pos htwo e)
        exact_mod_cast hn
      have hlog : Int.log 2 |(n : ℚ) * 2 ^ e| < e + (p + 1 : ℕ) :=
        (Int.lt_zpow_iff_log_lt (by decide) hpos).mp (by exact_mod_cast hlt)
      have hle : k ≤ e := by omega
      refine ⟨n * 2 ^ (e - k).toNat, ?_⟩
      rw [mul_div_assoc, ← zpow_sub₀ htwo.ne']
      push_cast
      rw [← zpow_natCast, Int.toNat_of_nonneg (by omega)]
  rw [hm, roundEven_intCast, ← hm, div_mul_cancel₀ _ (zpow_pos htwo k).ne']

theorem abs_binary_lt {b : ℕ} {n e c : ℤ} (hn : |n| < 2 ^ b) (hhigh : e ≤ c) :
    |(n : ℚ) * 2 ^ e| < 2 ^ (b + c) := by
  have htwo : (0 : ℚ) < 2 := by decide +kernel
  rw [abs_mul, abs_of_pos (zpow_pos htwo e)]
  calc |(n : ℚ)| * 2 ^ e < 2 ^ b * 2 ^ e := by
        refine mul_lt_mul_of_pos_right ?_ (zpow_pos htwo e)
        exact_mod_cast hn
    _ ≤ 2 ^ b * 2 ^ c := by
        refine mul_le_mul_of_nonneg_left ?_ (pow_pos htwo b).le
        exact zpow_le_zpow_right₀ (by decide +kernel) hhigh
    _ = 2 ^ (b + c) := by rw [zpow_add₀ htwo.ne', zpow_natCast]

/-- **An `f32` widened to a double reads back as itself.** -/
theorem toSingle_of_isSingle {x : ℚ} (h : IsSingle x) : toSingle x = some x := by
  obtain ⟨n, e, rfl, hn, hlow, hhigh⟩ := h
  have hround := roundEven_ulp (p := 23) hn hlow
  have hbound : |(n : ℚ) * 2 ^ e| < 2 ^ (128 : ℤ) := abs_binary_lt (b := 24) hn hhigh
  unfold toSingle
  dsimp only
  rw [Nat.cast_ofNat] at hround
  rw [hround, if_pos (by exact_mod_cast hbound)]

/-! ### The characters of a number -/

def isNumeralChar (c : Char) : Bool :=
  isAsciiDigit c || c = '+' || c = '-' || c = '.' || c = 'e' || c = 'E'

theorem isNumeralChar_of_digit {c : Char} (h : isAsciiDigit c = true) : isNumeralChar c = true := by
  simp [isNumeralChar, h]

theorem numeral_of_signOf {cs : List Char} (h : ∀ c ∈ (signOf cs).2, isNumeralChar c = true) :
    ∀ c ∈ cs, isNumeralChar c = true := by
  unfold signOf at h
  split at h
  · exact List.forall_mem_cons.mpr ⟨rfl, h⟩
  · exact List.forall_mem_cons.mpr ⟨rfl, h⟩
  · exact h

theorem numeral_of_exponentOf {cs : List Char} {e : ℤ} (h : exponentOf cs = some e) :
    ∀ c ∈ cs, isNumeralChar c = true := by
  cases cs with
  | nil => exact nofun
  | cons c cs =>
    have hexp : (if (c = 'e' ∨ c = 'E') ∧ (signOf cs).2 ≠ [] ∧ (signOf cs).2.all isAsciiDigit then
        some ((signOf cs).1 * decimal (signOf cs).2) else none) = some e := h
    split at hexp
    · next hmarked =>
      obtain ⟨hc, -, hdigits⟩ := hmarked
      have hrest : ∀ d ∈ (signOf cs).2, isNumeralChar d = true := fun d hd =>
        isNumeralChar_of_digit (List.all_eq_true.mp hdigits d hd)
      have hmark : isNumeralChar c = true := by rcases hc with rfl | rfl <;> rfl
      exact List.forall_mem_cons.mpr ⟨hmark, numeral_of_signOf hrest⟩
    · cases hexp

/-- The digits at the start of a text, and what follows them. -/
theorem numeral_of_dropWhile {cs : List Char} (h : ∀ c ∈ cs.dropWhile isAsciiDigit, isNumeralChar c = true) :
    ∀ c ∈ cs, isNumeralChar c = true := by
  intro c hc
  rw [← List.takeWhile_append_dropWhile (p := isAsciiDigit) (l := cs)] at hc
  rcases List.mem_append.mp hc with hc | hc
  · exact isNumeralChar_of_digit (List.all_eq_true.mp List.all_takeWhile c hc)
  · exact h c hc

/-- A text that reads as a number is not empty and holds the characters of a number only. -/
theorem numeral_of_parseFinite {s : String} {x : ℚ} (h : parseFinite s = some x) :
    s ≠ "" ∧ ∀ c ∈ s.toList, isNumeralChar c = true := by
  constructor
  · rintro rfl
    cases h
  · apply numeral_of_signOf
    apply numeral_of_dropWhile
    unfold parseFinite at h
    dsimp only at h
    split at h
    -- a fraction, or none
    · next cs hcs =>
      rw [hcs]
      split at h
      · cases h
      · obtain ⟨e, hexp, -⟩ := Option.bind_eq_some_iff.mp h
        exact List.forall_mem_cons.mpr ⟨rfl, numeral_of_dropWhile (numeral_of_exponentOf hexp)⟩
    · split at h
      · cases h
      · obtain ⟨e, hexp, -⟩ := Option.bind_eq_some_iff.mp h
        exact numeral_of_exponentOf hexp

end Alaya
