import Mathlib.Data.List.Basic
import Mathlib.Tactic.IntervalCases

/-!
# Reading printed numerals back

`readDigits b` evaluates the numerals `Nat.toDigits b` prints, for the bases that print with
`0`–`9` and `a`–`f`.  It is a left inverse (`readDigits_toDigits`), also after padding with zeros
(`readDigits_leftpad`), so printing a number in a fixed or a free width loses nothing.
-/

namespace Digits

/-- What is checked of each character of a text holds of them all.  A `decide` of the statement itself may run
over all characters. -/
theorem forall_mem_of_all {p : Char → Prop} [DecidablePred p] {cs : List Char}
    (h : cs.all (fun c => p c) = true) : ∀ c ∈ cs, p c := by
  simpa using h

/-- The value of one printed digit. -/
def digitVal (c : Char) : ℕ :=
  if c.toNat ≤ '9'.toNat then c.toNat - '0'.toNat else c.toNat - 'a'.toNat + 10

theorem digitVal_digitChar {d : ℕ} (h : d < 16) : digitVal (Nat.digitChar d) = d := by
  interval_cases d <;> rfl

/-- The number a list of digits denotes, most significant first. -/
def readDigits (b : ℕ) (cs : List Char) : ℕ := cs.foldl (fun n c => b * n + digitVal c) 0

theorem readDigits_concat (b : ℕ) (cs : List Char) (c : Char) :
    readDigits b (cs ++ [c]) = b * readDigits b cs + digitVal c := by
  simp [readDigits]

theorem readDigits_toDigits {b : ℕ} (hb : 1 < b) (hb' : b ≤ 16) (n : ℕ) :
    readDigits b (Nat.toDigits b n) = n := by
  induction n using Nat.strongRecOn with
  | ind n ih =>
    rw [Nat.toDigits_eq_if hb]
    split_ifs with hlt
    · simp [readDigits, digitVal_digitChar (show n < 16 by omega)]
    · have hmod : n % b < 16 := lt_of_lt_of_le (Nat.mod_lt n (by omega)) hb'
      rw [readDigits_concat, ih (n / b) (Nat.div_lt_self (by omega) hb), digitVal_digitChar hmod]
      exact Nat.div_add_mod n b

theorem readDigits_leftpad (b w : ℕ) (cs : List Char) :
    readDigits b (cs.leftpad w '0') = readDigits b cs := by
  have hzeros : ∀ k, (List.replicate k '0').foldl (fun n c => b * n + digitVal c) 0 = 0 := by
    intro k
    induction k with
    | zero => rfl
    | succ k ih => simpa [List.replicate_succ, digitVal] using ih
  simp only [readDigits, List.leftpad, List.foldl_append, hzeros]

end Digits
