import Alaya.Types.Float

/-!
# Every text of a double

`parseDouble` reads what `parseFinite` reads and the texts of the other doubles: what rounds to an infinity, and the
infinities and NaN by their names.
-/

namespace Alaya

/-- A double; the two zeros are one. -/
inductive Double where
  | finite (x : ℚ)
  | infinite (negative : Bool)
  | nan
  deriving DecidableEq

/-- The value of an `f64`: a significand of 53 bits and its exponent. -/
def IsDouble (x : ℚ) : Prop :=
  ∃ (n e : ℤ), x = n * 2 ^ e ∧ |n| < 2 ^ 53 ∧ -1074 ≤ e ∧ e ≤ 971

/-- What a decimal numeral denotes. -/
def numeral (s : String) : Option ℚ := do
  let (sign, cs) := signOf s.toList
  let whole := cs.takeWhile isAsciiDigit
  let rest := cs.dropWhile isAsciiDigit
  let (fraction, rest) := match rest with
    | '.' :: cs => (cs.takeWhile isAsciiDigit, cs.dropWhile isAsciiDigit)
    | _ => ([], rest)
  if whole = [] ∧ fraction = [] then none
  else
    let exponent ← exponentOf rest
    return sign * decimal (whole ++ fraction) * 10 ^ (exponent - fraction.length)

/-- The double a word names, whatever the case of its letters. -/
def namedDouble (s : String) : Option Double :=
  let (sign, cs) := signOf s.toList
  match String.ofList (cs.map Char.toLower) with
  | "inf" | "infinity" => some (.infinite (sign < 0))
  | "nan" => some .nan
  | _ => none

/-- `str::parse::<f64>`. -/
def parseDouble (s : String) : Option Double :=
  match numeral s with
  | some q =>
    match toDouble q with
    | some x => some (.finite x)
    | none => some (.infinite (q < 0))
  | none => namedDouble s

/-- **A double reads back as itself.** -/
theorem toDouble_of_isDouble {x : ℚ} (h : IsDouble x) : toDouble x = some x := by
  obtain ⟨n, e, rfl, hn, hlow, hhigh⟩ := h
  have hround := roundEven_ulp (p := 52) hn hlow
  have hbound : |(n : ℚ) * 2 ^ e| < 2 ^ (1024 : ℤ) := abs_binary_lt (b := 53) hn hhigh
  unfold toDouble
  dsimp only
  rw [Nat.cast_ofNat] at hround
  rw [hround, if_pos (by exact_mod_cast hbound)]

theorem parseFinite_eq (s : String) : parseFinite s = (numeral s).bind toDouble := by
  have hround : ∀ (whole fraction rest : List Char) (sign : ℤ),
      (if whole = [] ∧ fraction = [] then none
        else (exponentOf rest).bind fun e => toDouble ((sign : ℚ) * decimal (whole ++ fraction) * 10 ^ (e - fraction.length))) =
        Option.bind (if whole = [] ∧ fraction = [] then none
          else (exponentOf rest).bind fun e => some ((sign : ℚ) * decimal (whole ++ fraction) * 10 ^ (e - fraction.length)))
          toDouble := by
    intro whole fraction rest sign
    split
    · rfl
    · rw [Option.bind_assoc]
      rfl
  exact hround ..

/-- A finite double is read from a numeral. -/
theorem parseDouble_eq_finite_iff {s : String} {x : ℚ} : parseDouble s = some (.finite x) ↔ parseFinite s = some x := by
  rw [parseFinite_eq]
  unfold parseDouble
  cases numeral s with
  | none =>
    constructor
    · intro h
      unfold namedDouble at h
      dsimp only at h
      split at h <;> cases h
    · exact nofun
  | some q =>
    dsimp only
    rw [Option.bind_some]
    cases toDouble q with
    | none => exact ⟨nofun, nofun⟩
    | some y => exact ⟨fun h => by cases h; rfl, fun h => by cases h; rfl⟩

end Alaya
