import Alaya.Console.Document
import Alaya.Core.Tags
import Alaya.Lib.Rows
import Alaya.Lib.Words
import Alaya.Types.Grammar

/-!
# What a commit carries

The preview writes the op it parsed into the hidden fields of the commit form.  What a form parses as holds no
separator of its own (`DocOp.Parsed`), so the form that is sent back is parsed as the op, the version and the reason
that were previewed (`parse_commitForm`).
-/

namespace Alaya.Console

open Json Words

/-! ### The commit form -/

/-- A form from the fields that were sent. -/
def formOf (fields : List (String × String)) : DocForm :=
  let get (k : String) : String := (fields.lookup k).getD ""
  { csrf := get "csrf", op := get "op", expectedVersion := get "expected_version", name := get "name",
    label := get "label", digest := get "digest", version := get "version",
    expectedDigest := get "expected_digest", dailyBudget := get "daily_budget",
    utilizationLimit := get "utilization_limit", models := get "models",
    preferredEndpoints := get "preferred_endpoints", reason := get "reason",
    confirmSignal := get "confirm_signal", confirmVersion := get "confirm_version" }

section Fields

-- how a finite double is printed
variable (print : ℚ → String)

def policyFields (p : Policy) : List (String × String) :=
  [("daily_budget", (p.dailyBudget.map fun b => toString b).getD ""),
    ("utilization_limit", (p.utilizationLimit.map print).getD ""),
    ("models", ",".intercalate p.models),
    ("preferred_endpoints", ",".intercalate p.preferredEndpoints)]

/-- The op as form fields, so the commit sends exactly what the preview showed. -/
def opFields : DocOp → List (String × String)
  | .create name p => [("op", "create"), ("name", name)] ++ policyFields print p
  | .update name p => [("op", "update"), ("name", name)] ++ policyFields print p
  | .delete name => [("op", "delete"), ("name", name)]
  | .addKey name label => [("op", "add_key"), ("name", name), ("label", label)]
  | .revokeKey digest => [("op", "revoke_key"), ("digest", digest)]
  | .restore version expectedDigest =>
    [("op", "restore"), ("version", toString version)] ++ expectedDigest.toList.map fun d => ("expected_digest", d)

/-- The hidden fields of the commit form. -/
def commitFields (csrf : String) (op : DocOp) (expected : ℕ) (reason : String) : List (String × String) :=
  [("csrf", csrf), ("expected_version", toString expected), ("reason", reason)] ++ opFields print op

def commitForm (csrf : String) (op : DocOp) (expected : ℕ) (reason : String) : DocForm :=
  formOf (commitFields print csrf op expected reason)

end Fields

/-- The ceiling an op sets, if it sets one. -/
def DocOp.limit : DocOp → Option ℚ
  | .create _ p | .update _ p => p.utilizationLimit
  | _ => none

/-! ### Texts that hold no separator -/

/-- The characters of names, digests, states and numbers. -/
def isPlain (c : Char) : Bool := isAsciiAlphanumeric c || c = '_' || c = '-'

def Plain (s : String) : Prop := ∀ c ∈ s.toList, isPlain c = true

theorem printed_of_plain {c : Char} (h : isPlain c = true) : isWhitespace c = false ∧ isControl c = false := by
  simp only [isPlain, Bool.or_eq_true, decide_eq_true_eq] at h
  rcases h with (h | rfl) | rfl
  · obtain ⟨hlow, hhigh⟩ := range_of_alphanumeric h
    exact printed_of_range (by omega) (by omega)
  all_goals decide

theorem not_mem_of_plain {s : String} (h : Plain s) {sep : Char} (hsep : isPlain sep = false) : sep ∉ s.toList := by
  intro hmem
  rw [h sep hmem] at hsep
  cases hsep

theorem plain_of_isName {s : String} (h : isName s = true) : Plain s := by
  intro c hc
  have hchar := nameChar_of_isName h c hc
  simp only [isPlain, isAsciiAlphanumeric, Bool.or_eq_true, decide_eq_true_eq] at hchar ⊢
  tauto

/-- A lowercase hex digit. -/
theorem hex_of_isHex64 {s : String} (h : isHex64 s = true) :
    ∀ c ∈ s.toList, isAsciiDigit c = true ∨ ('a' ≤ c ∧ c ≤ 'f') := by
  intro c hc
  simpa using List.all_eq_true.mp (Bool.and_eq_true_iff.mp h).2 c hc

theorem plain_of_isHex64 {s : String} (h : isHex64 s = true) : Plain s := by
  intro c hc
  have hz : 'f' ≤ 'z' := by decide
  rcases hex_of_isHex64 h c hc with hdigit | ⟨hlow, hhigh⟩
  · simp [isPlain, isAsciiAlphanumeric, hdigit]
  · simp [isPlain, isAsciiAlphanumeric, isAsciiLowercase, hlow, le_trans hhigh hz]

/-- A digest is lowercase already. -/
theorem map_toLower_of_isHex64 {s : String} (h : isHex64 s = true) : s.map Char.toLower = s := by
  apply String.toList_inj.mp
  rw [String.toList_map]
  conv_rhs => rw [← List.map_id s.toList]
  refine List.map_congr_left fun c hc => ?_
  have hupper : ¬('A' ≤ c ∧ c ≤ 'Z') := by
    rintro ⟨ha, hz⟩
    rcases hex_of_isHex64 h c hc with hdigit | ⟨hlow, -⟩
    · exact absurd (le_trans ha (of_decide_eq_true hdigit).2) (by decide)
    · exact absurd (le_trans hlow hz) (by decide)
  exact dif_neg hupper

theorem digit_of_toString (n : ℕ) : ∀ c ∈ (toString n).toList, isAsciiDigit c = true := by
  intro c hc
  rw [Nat.toString_eq_repr, Nat.toList_repr] at hc
  have hdigit : c.isDigit = true := Nat.isDigit_of_mem_toDigits (by decide) (by decide) hc
  simp only [Char.isDigit, Bool.and_eq_true, decide_eq_true_eq] at hdigit
  exact decide_eq_true hdigit

theorem plain_toString (n : ℕ) : Plain (toString n) := by
  intro c hc
  simp [isPlain, isAsciiAlphanumeric, digit_of_toString n c hc]

theorem plain_asStr (state : RecordState) : Plain state.asStr := by
  cases state <;> exact Digits.forall_mem_of_all (by decide)

/-- Trimming leaves what has no whitespace. -/
theorem trim_of_free {s : String} (h : ∀ c ∈ s.toList, isWhitespace c = false) : trim s = s := by
  have hfree : ∀ cs : List Char, (∀ c ∈ cs, isWhitespace c = false) → cs.dropWhile isWhitespace = cs := by
    intro cs hcs
    cases cs with
    | nil => rfl
    | cons c cs => exact List.dropWhile_cons_of_neg (by simp [hcs c List.mem_cons_self])
  unfold trim
  rw [hfree _ h, hfree _ (fun c hc => h c (List.mem_reverse.mp hc)), List.reverse_reverse, String.ofList_toList]

theorem trim_of_plain {s : String} (h : Plain s) : trim s = s := trim_of_free fun c hc => (printed_of_plain (h c hc)).1

/-! ### Numbers read back -/

theorem parseUnsigned_lt {s : String} {n : ℕ} (h : parseUnsigned s = some n) : n < 2 ^ 64 := by
  have hdigits : ∀ cs : List Char, parseU64 cs = some n → n < 2 ^ 64 := by
    intro cs hcs
    unfold parseU64 at hcs
    split at hcs
    · dsimp only at hcs
      split at hcs
      · next hlt =>
        cases hcs
        exact hlt
      · cases hcs
    · cases hcs
  unfold parseUnsigned at h
  split at h <;> exact hdigits _ h

theorem decimalValue_eq_readDigits {cs : List Char} (h : ∀ c ∈ cs, isAsciiDigit c = true) :
    decimalValue cs = Digits.readDigits 10 cs := by
  have hfold : ∀ (n : ℕ), cs.foldl (fun n c => 10 * n + (c.toNat - '0'.toNat)) n =
      cs.foldl (fun n c => 10 * n + Digits.digitVal c) n := by
    induction cs with
    | nil => exact fun n => rfl
    | cons c cs ih =>
      intro n
      have hnine : c.toNat ≤ '9'.toNat := toNat_le_of_le (of_decide_eq_true (h c List.mem_cons_self)).2
      have hdigit : Digits.digitVal c = c.toNat - '0'.toNat := if_pos hnine
      rw [List.foldl_cons, List.foldl_cons, hdigit, ih fun d hd => h d (List.mem_cons_of_mem _ hd)]
  exact hfold 0

theorem parseU64_toString {n : ℕ} (h : n < 2 ^ 64) : parseU64 (toString n).toList = some n := by
  have hne : (toString n).toList ≠ [] := by
    rw [Nat.toString_eq_repr, Nat.toList_repr]
    exact Nat.toDigits_ne_nil
  have hvalue : decimalValue (toString n).toList = n := by
    rw [decimalValue_eq_readDigits (digit_of_toString n), Nat.toString_eq_repr, Nat.toList_repr,
      Digits.readDigits_toDigits (by decide) (by decide)]
  rw [parseU64_of_digits hne (List.all_eq_true.mpr (digit_of_toString n)), hvalue, if_pos h]

theorem parseUnsigned_of_plain {s : String} (h : Plain s) : parseUnsigned s = parseU64 s.toList := by
  unfold parseUnsigned
  split
  · next cs hcs =>
    refine absurd (h '+' ?_) (by decide)
    rw [hcs]
    exact List.mem_cons_self
  · rfl

/-- A number of 64 bits is printed as what reads back as it. -/
theorem parseUnsigned_toString {n : ℕ} (h : n < 2 ^ 64) : parseUnsigned (toString n) = some n := by
  rw [parseUnsigned_of_plain (plain_toString n), parseU64_toString h]

/-! ### Lists and reasons read back -/

/-- Joining the words of a text with a separator gives a text of the same words. -/
theorem words_join {p : Char → Bool} {sep : Char} (hsep : p sep = true) {joint : String} (hjoint : joint.toList = [sep])
    (cs : List Char) : words p (joint.intercalate ((words p cs).map String.ofList)).toList = words p cs := by
  have hcancel : String.toList ∘ String.ofList = id := by
    funext cs
    exact String.toList_ofList
  rw [String.toList_intercalate, hjoint, List.map_map, hcancel, List.map_id, words_intercalate_words hsep]

/-- The models of a policy, joined by commas, are read back as the models. -/
theorem splitList_join (s : String) : splitList (",".intercalate (splitList s)) = splitList s :=
  congrArg (List.map String.ofList) (words_join (by decide) rfl s.toList)

/-- A reason with its whitespace runs collapsed. -/
def collapsed (raw : String) : String := " ".intercalate ((words isWhitespace raw.toList).map String.ofList)

theorem collapsed_collapsed (raw : String) : collapsed (collapsed raw) = collapsed raw :=
  congrArg (fun ws => " ".intercalate (List.map String.ofList ws)) (words_join (by decide) rfl raw.toList)

theorem cleanReason_eq_ok_iff {raw r : String} : cleanReason raw = .ok r ↔
    collapsed raw = r ∧ 1 ≤ r.length ∧ r.length ≤ 200 ∧ ∀ c ∈ r.toList, isControl c = false := by
  have hdef : cleanReason raw =
      if (collapsed raw).length = 0 then .error "a reason is required: the store records it on the op"
      else if 200 < (collapsed raw).length ∨ (collapsed raw).toList.any isControl then
        .error "a reason is at most 200 characters, with no control characters"
      else .ok (collapsed raw) := rfl
  rw [hdef]
  constructor
  · intro h
    split at h
    · cases h
    · next hempty =>
      split at h
      · cases h
      · next hrule =>
        cases h
        obtain ⟨hlong, hcontrol⟩ := not_or.mp hrule
        refine ⟨rfl, by omega, by omega, ?_⟩
        simpa using hcontrol
  · rintro ⟨rfl, hshort, hlong, hcontrol⟩
    rw [if_neg (by omega), if_neg]
    rw [not_or]
    exact ⟨by omega, by simpa using hcontrol⟩

/-- A reason that was cleaned is clean. -/
theorem cleanReason_idem {raw r : String} (h : cleanReason raw = .ok r) : cleanReason r = .ok r := by
  obtain ⟨hr, hrule⟩ := cleanReason_eq_ok_iff.mp h
  refine cleanReason_eq_ok_iff.mpr ⟨?_, hrule⟩
  rw [← hr, collapsed_collapsed]

/-! ### What a form parses as -/

/-- A policy as it can be parsed: a budget of 64 bits, and lists of words. -/
structure Policy.Parsed (p : Policy) : Prop where
  budget : ∀ b ∈ p.dailyBudget, b < 2 ^ 64
  models : splitList (",".intercalate p.models) = p.models
  endpoints : splitList (",".intercalate p.preferredEndpoints) = p.preferredEndpoints

/-- An op as it can be parsed. -/
def DocOp.Parsed : DocOp → Prop
  | .create name p | .update name p => isName name = true ∧ p.Parsed
  | .delete name => isName name = true
  | .addKey name label => isName name = true ∧ trim label = label
  | .revokeKey digest => isHex64 digest = true
  | .restore version digest => 1 ≤ version ∧ version < 2 ^ 64 ∧ ∀ d ∈ digest, isHex64 d = true

/-- The budget field of a form. -/
def budgetOf (f : DocForm) : Except String (Option ℕ) :=
  let budget := trim f.dailyBudget
  if budget = "" then .ok none
  else match parseUnsigned (String.ofList (budget.toList.filter (· ≠ '_'))) with
    | some n => .ok (some n)
    | none => .error "A daily budget is a whole number of tokens, or empty for none."

/-- The ceiling field of a form. -/
def limitOf (f : DocForm) : Except String (Option ℚ) :=
  let limit := trim f.utilizationLimit
  if limit = "" then .ok none
  else match parseFinite limit with
    | some x => .ok (some x)
    | none => .error "A utilization limit is a number above 0 and at most 1, or empty for none."

/-- A policy is read field by field. -/
theorem policyOf_eq_ok_iff {f : DocForm} {p : Policy} : policyOf f = .ok p ↔
    budgetOf f = .ok p.dailyBudget ∧ limitOf f = .ok p.utilizationLimit ∧ splitList f.models = p.models ∧
      splitList f.preferredEndpoints = p.preferredEndpoints := by
  have hfields : policyOf f = budgetOf f >>= fun b => limitOf f >>= fun x =>
      .ok ⟨b, x, splitList f.models, splitList f.preferredEndpoints⟩ := by
    unfold policyOf budgetOf limitOf
    dsimp only
    cases parseUnsigned (String.ofList ((trim f.dailyBudget).toList.filter (· ≠ '_'))) <;>
      cases parseFinite (trim f.utilizationLimit) <;> split_ifs <;> rfl
  rw [hfields]
  constructor
  · intro h
    obtain ⟨b, hb, h⟩ := bind_eq_ok.mp h
    obtain ⟨x, hx, hp⟩ := bind_eq_ok.mp h
    cases hp
    exact ⟨hb, hx, rfl, rfl⟩
  · rintro ⟨hb, hx, hmodels, hendpoints⟩
    refine bind_eq_ok.mpr ⟨_, hb, bind_eq_ok.mpr ⟨_, hx, ?_⟩⟩
    rw [hmodels, hendpoints]

theorem budgetOf_lt {f : DocForm} {b : ℕ} (h : budgetOf f = .ok (some b)) : b < 2 ^ 64 := by
  unfold budgetOf at h
  dsimp only at h
  split at h
  · cases h
  · split at h
    · next n hn =>
      cases h
      exact parseUnsigned_lt hn
    · cases h

theorem parsed_of_policyOf {f : DocForm} {p : Policy} (h : policyOf f = .ok p) : p.Parsed := by
  obtain ⟨hbudget, -, hmodels, hendpoints⟩ := policyOf_eq_ok_iff.mp h
  refine ⟨fun b hb => budgetOf_lt (f := f) ?_, ?_, ?_⟩
  · rw [hbudget, show p.dailyBudget = some b from hb]
  · rw [← hmodels, splitList_join]
  · rw [← hendpoints, splitList_join]

theorem isName_of_nameOf {f : DocForm} {name : String} (h : nameOf f = .ok name) : isName name = true := by
  unfold nameOf at h
  dsimp only at h
  split at h
  · next hname =>
    cases h
    exact hname
  · cases h

theorem parsed_of_opOf {f : DocForm} {op : DocOp} (h : opOf f = .ok op) : op.Parsed := by
  unfold opOf at h
  split at h
  · obtain ⟨name, hname, h⟩ := bind_eq_ok.mp h
    obtain ⟨p, hp, hop⟩ := bind_eq_ok.mp h
    cases hop
    exact ⟨isName_of_nameOf hname, parsed_of_policyOf hp⟩
  · obtain ⟨name, hname, h⟩ := bind_eq_ok.mp h
    obtain ⟨p, hp, hop⟩ := bind_eq_ok.mp h
    cases hop
    exact ⟨isName_of_nameOf hname, parsed_of_policyOf hp⟩
  · obtain ⟨name, hname, hop⟩ := bind_eq_ok.mp h
    cases hop
    exact isName_of_nameOf hname
  · obtain ⟨name, hname, hop⟩ := bind_eq_ok.mp h
    cases hop
    exact ⟨isName_of_nameOf hname, trim_trim f.label⟩
  · dsimp only at h
    split at h
    · next hhex =>
      cases h
      exact hhex
    · cases h
  · split at h
    · next version hversion =>
      obtain ⟨digest, hdigest, hop⟩ := bind_eq_ok.mp h
      cases hop
      obtain ⟨hparse, hpos⟩ := Option.filter_eq_some_iff.mp hversion
      refine ⟨of_decide_eq_true hpos, parseUnsigned_lt hparse, ?_⟩
      intro d hd
      obtain rfl : digest = some d := hd
      exact isHex64_of_expectedDigestOf hdigest
    · cases h
  · cases h

/-! ### The printed op is read back -/

theorem trim_toString (n : ℕ) : trim (toString n) = toString n := trim_of_plain (plain_toString n)

theorem toString_ne_empty (n : ℕ) : toString n ≠ "" := by
  intro h
  have hlist := congrArg String.toList h
  rw [Nat.toString_eq_repr, Nat.toList_repr] at hlist
  exact Nat.toDigits_ne_nil hlist

/-- A number holds no underscore. -/
theorem filter_underscore_toString (n : ℕ) :
    String.ofList ((toString n).toList.filter (· ≠ '_')) = toString n := by
  have hdigits : (toString n).toList.filter (· ≠ '_') = (toString n).toList := by
    rw [List.filter_eq_self]
    intro c hc
    refine decide_eq_true fun heq => ?_
    have hdigit := digit_of_toString n c hc
    rw [heq] at hdigit
    exact absurd hdigit (by decide)
  rw [hdigits, String.ofList_toList]

theorem not_whitespace_of_numeral {c : Char} (h : isNumeralChar c = true) : isWhitespace c = false := by
  simp only [isNumeralChar, Bool.or_eq_true, decide_eq_true_eq] at h
  rcases h with ((((hdigit | rfl) | rfl) | rfl) | rfl) | rfl
  · obtain ⟨hzero, hnine⟩ := of_decide_eq_true hdigit
    have hlow := toNat_le_of_le hzero
    have hhigh := toNat_le_of_le hnine
    simp only [Char.reduceToNat] at hlow hhigh
    exact (printed_of_range (by omega) (by omega)).1
  all_goals decide

/-- A policy is read back from a form that carries its printed fields. -/
theorem policyOf_printed {print : ℚ → String} {p : Policy} (hp : p.Parsed)
    (hprint : ∀ x ∈ p.utilizationLimit, parseFinite (print x) = some x) {g : DocForm}
    (hbudget : g.dailyBudget = (p.dailyBudget.map fun b => toString b).getD "")
    (hlimit : g.utilizationLimit = (p.utilizationLimit.map print).getD "")
    (hmodels : g.models = ",".intercalate p.models)
    (hendpoints : g.preferredEndpoints = ",".intercalate p.preferredEndpoints) : policyOf g = .ok p := by
  refine policyOf_eq_ok_iff.mpr ⟨?_, ?_, by rw [hmodels, hp.models], by rw [hendpoints, hp.endpoints]⟩
  · unfold budgetOf
    rw [hbudget]
    cases hb : p.dailyBudget with
    | none => rfl
    | some b =>
      rw [Option.map_some, Option.getD_some, trim_toString]
      dsimp only
      rw [if_neg (toString_ne_empty b), filter_underscore_toString,
        parseUnsigned_toString (hp.budget b hb)]
  · unfold limitOf
    rw [hlimit]
    cases hx : p.utilizationLimit with
    | none => rfl
    | some x =>
      have hread := hprint x hx
      obtain ⟨hne, hchars⟩ := numeral_of_parseFinite hread
      have htrim : trim (print x) = print x := trim_of_free fun c hc => not_whitespace_of_numeral (hchars c hc)
      rw [Option.map_some, Option.getD_some, htrim]
      dsimp only
      rw [if_neg hne, hread]

theorem nameOf_printed {name : String} (hname : isName name = true) {g : DocForm} (hg : g.name = name) :
    nameOf g = .ok name := by
  unfold nameOf
  rw [hg, trim_of_plain (plain_of_isName hname)]
  exact if_pos hname

theorem expectedDigestOf_printed {digest : Option String} (hdigest : ∀ d ∈ digest, isHex64 d = true) {g : DocForm}
    (hg : g.expectedDigest = digest.getD "") : expectedDigestOf g = .ok digest := by
  unfold expectedDigestOf
  rw [hg]
  cases digest with
  | none => rfl
  | some d =>
    have hhex := hdigest d rfl
    have hne : d ≠ "" := by
      rintro rfl
      exact absurd hhex (by decide)
    rw [Option.getD_some, trim_of_plain (plain_of_isHex64 hhex)]
    dsimp only
    rw [if_neg hne, if_pos hhex]

/-- **The op a form was parsed as is read back from its own fields.** -/
theorem opOf_printed {print : ℚ → String} {op : DocOp} (hop : op.Parsed)
    (hprint : ∀ x ∈ op.limit, parseFinite (print x) = some x) (csrf : String) (expected : ℕ) (reason : String) :
    opOf (commitForm print csrf op expected reason) = .ok op := by
  obtain ⟨g, hg⟩ : ∃ g, g = commitForm print csrf op expected reason := ⟨_, rfl⟩
  rw [← hg]
  cases op with
  | create name p =>
    have hname : nameOf g = .ok name := nameOf_printed hop.1 (by rw [hg]; rfl)
    have hpolicy : policyOf g = .ok p :=
      policyOf_printed hop.2 hprint (by rw [hg]; rfl) (by rw [hg]; rfl) (by rw [hg]; rfl) (by rw [hg]; rfl)
    have hfield : g.op = "create" := by rw [hg]; rfl
    unfold opOf
    rw [hfield]
    exact bind_eq_ok.mpr ⟨name, hname, bind_eq_ok.mpr ⟨p, hpolicy, rfl⟩⟩
  | update name p =>
    have hname : nameOf g = .ok name := nameOf_printed hop.1 (by rw [hg]; rfl)
    have hpolicy : policyOf g = .ok p :=
      policyOf_printed hop.2 hprint (by rw [hg]; rfl) (by rw [hg]; rfl) (by rw [hg]; rfl) (by rw [hg]; rfl)
    have hfield : g.op = "update" := by rw [hg]; rfl
    unfold opOf
    rw [hfield]
    exact bind_eq_ok.mpr ⟨name, hname, bind_eq_ok.mpr ⟨p, hpolicy, rfl⟩⟩
  | delete name =>
    have hname : nameOf g = .ok name := nameOf_printed hop (by rw [hg]; rfl)
    have hfield : g.op = "delete" := by rw [hg]; rfl
    unfold opOf
    rw [hfield]
    exact bind_eq_ok.mpr ⟨name, hname, rfl⟩
  | addKey name label =>
    have hname : nameOf g = .ok name := nameOf_printed hop.1 (by rw [hg]; rfl)
    have hlabel : g.label = label := by rw [hg]; rfl
    have hfield : g.op = "add_key" := by rw [hg]; rfl
    unfold opOf
    rw [hfield, hlabel, hop.2]
    exact bind_eq_ok.mpr ⟨name, hname, rfl⟩
  | revokeKey digest =>
    have hdigest : g.digest = digest := by rw [hg]; rfl
    have hfield : g.op = "revoke_key" := by rw [hg]; rfl
    unfold opOf
    rw [hfield, hdigest, trim_of_plain (plain_of_isHex64 hop), map_toLower_of_isHex64 hop]
    exact if_pos hop
  | restore version digest =>
    obtain ⟨hpos, hfits, hhex⟩ := hop
    have hversion : g.version = toString version := by cases digest <;> rw [hg] <;> rfl
    have hdigest : expectedDigestOf g = .ok digest :=
      expectedDigestOf_printed hhex (by cases digest <;> rw [hg] <;> rfl)
    have hfield : g.op = "restore" := by cases digest <;> rw [hg] <;> rfl
    have hread : (parseUnsigned (toString version)).filter (1 ≤ ·) = some version := by
      rw [parseUnsigned_toString hfits, Option.filter_some, if_pos (decide_eq_true hpos)]
    unfold opOf
    rw [hfield, hversion, trim_toString, hread]
    exact bind_eq_ok.mpr ⟨digest, hdigest, rfl⟩

/-- **The commit form is parsed as the form it was previewed from.** -/
theorem parse_commitForm {print : ℚ → String} {f : DocForm} {op : DocOp} {expected : ℕ} {reason : String}
    (h : parse f = .ok (op, expected, reason)) (hprint : ∀ x ∈ op.limit, parseFinite (print x) = some x)
    (csrf : String) : parse (commitForm print csrf op expected reason) = .ok (op, expected, reason) := by
  unfold parse at h
  split at h
  · cases h
  · next version hversion =>
    obtain ⟨op', hop, h⟩ := bind_eq_ok.mp h
    obtain ⟨reason', hreason, h⟩ := bind_eq_ok.mp h
    cases h
    have hprinted : (commitForm print csrf op expected reason).expectedVersion = toString expected := rfl
    have hclean : cleanReason (commitForm print csrf op expected reason).reason = .ok reason := cleanReason_idem hreason
    unfold parse
    rw [hprinted, trim_toString, parseUnsigned_toString (parseUnsigned_lt hversion)]
    exact bind_eq_ok.mpr ⟨op, opOf_printed (parsed_of_opOf hop) hprint csrf expected reason,
      bind_eq_ok.mpr ⟨reason, hclean, rfl⟩⟩

end Alaya.Console
