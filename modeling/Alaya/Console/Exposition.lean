import Alaya.Console.Commit
import Alaya.Console.Committed
import Alaya.Lib.Offsets
import Alaya.Types.Double

/-!
# Samples of the text exposition

One line of an exposition is a name, labels in braces and a value.  The reader works with byte offsets: an offset
inside a character would be a panic, and so would a loop that does not end, so both are `none` here, and `some none`
is a line that is not a sample.
-/

namespace Alaya.Console

structure Sample where
  name : String
  labels : List (String × String)
  value : Double
  deriving DecidableEq

/-- `split_once` at an equals sign and a quote. -/
def splitQuoted : List Char → Option (List Char × List Char)
  | [] => none
  | '=' :: '"' :: cs => some ([], cs)
  | c :: cs => (splitQuoted cs).map fun (key, quoted) => (c :: key, quoted)

/-- The value up to the quote that closes it, unescaped, and the offset of that quote. -/
def scanValue (i : ℕ) : List Char → Option (List Char × ℕ)
  | [] => none
  | ['\\'] => none
  | '\\' :: c :: cs =>
    (scanValue (i + '\\'.utf8Size + c.utf8Size) cs).map fun (value, close) => ((if c = 'n' then '\n' else c) :: value, close)
  | '"' :: _ => some ([], i)
  | c :: cs => (scanValue (i + c.utf8Size) cs).map fun (value, close) => (c :: value, close)

/-- Without a comma it starts with. -/
def stripComma : List Char → List Char
  | ',' :: cs => cs
  | cs => cs

/-- One label, and what follows it and its comma. -/
def parseLabel (rest : List Char) : Option (Option ((String × String) × List Char)) :=
  match splitQuoted rest with
  | none => some none
  | some (key, quoted) =>
    match scanValue 0 quoted with
    | none => some none
    | some (value, close) =>
      (Offsets.sliceFrom Char.utf8Size quoted (close + 1)).map fun rest =>
        some ((String.ofList key, String.ofList value), stripComma rest)

/-- The labels up to the closing brace, and what follows it. -/
def parseLabels : ℕ → List Char → Option (Option (List (String × String) × List Char))
  | 0, _ => none
  | _ + 1, '}' :: after => some (some ([], after))
  | fuel + 1, rest =>
    match parseLabel rest with
    | none => none
    | some none => some none
    | some (some (label, rest)) =>
      (parseLabels fuel rest).map fun parsed => parsed.map fun (labels, after) => (label :: labels, after)

/-- The labels of what follows a name, and what follows them. -/
def parseBody : List Char → Option (Option (List (String × String) × List Char))
  | '{' :: body => parseLabels (body.length + 1) body
  | rest => some (some ([], rest))

/-- The value that follows the labels. -/
def readValue (rest : List Char) : Option Double :=
  (Words.words isWhitespace rest).head?.bind fun word => parseDouble (String.ofList word)

/-- One exposition line. -/
def parseSample (line : String) : Option (Option Sample) :=
  match Offsets.find Char.utf8Size (fun c => c = '{' || c = ' ') line.toList with
  | none => some none
  | some i =>
    match Offsets.splitAt Char.utf8Size line.toList i with
    | none => none
    | some (name, rest) =>
      (parseBody rest).map fun parsed => do
        let (labels, rest) ← parsed
        let value ← readValue rest
        return ⟨String.ofList name, labels, value⟩

/-! ### The scanner -/

theorem scanValue_quote (i : ℕ) (cs : List Char) : scanValue i ('"' :: cs) = some ([], i) := rfl

theorem scanValue_escape (i : ℕ) (c : Char) (cs : List Char) : scanValue i ('\\' :: c :: cs) =
    (scanValue (i + '\\'.utf8Size + c.utf8Size) cs).map fun (value, close) =>
      ((if c = 'n' then '\n' else c) :: value, close) := rfl

theorem scanValue_other {c : Char} (hslash : c ≠ '\\') (hquote : c ≠ '"') (i : ℕ) (cs : List Char) :
    scanValue i (c :: cs) =
      (scanValue (i + c.utf8Size) cs).map fun (value, close) => (c :: value, close) := by
  rw [scanValue]
  · exact fun h _ => hslash h
  · exact fun _ _ h _ => hslash h
  · exact hquote

/-- The closing quote is between two characters. -/
theorem scanValue_eq_some {i : ℕ} {cs value : List Char} {close : ℕ} (h : scanValue i cs = some (value, close)) :
    ∃ before after, cs = before ++ '"' :: after ∧ close = i + Budget.total Char.utf8Size before := by
  induction i, cs using scanValue.induct generalizing value close with
  | case1 i => cases h
  | case2 i => cases h
  | case3 i c cs ih =>
    rw [scanValue_escape] at h
    obtain ⟨⟨value', close'⟩, hrest, heq⟩ := Option.map_eq_some_iff.mp h
    obtain ⟨before, after, rfl, hclose⟩ := ih hrest
    obtain ⟨-, rfl⟩ := Prod.mk.inj heq
    refine ⟨'\\' :: c :: before, after, rfl, ?_⟩
    rw [hclose, Budget.total_cons, Budget.total_cons, Nat.add_assoc, Nat.add_assoc]
  | case4 i cs =>
    rw [scanValue_quote] at h
    cases h
    exact ⟨[], cs, rfl, rfl⟩
  | case5 i c cs hlast hslash hquote ih =>
    have hne : c ≠ '\\' := by
      rintro rfl
      cases cs with
      | nil => exact hlast rfl rfl
      | cons d cs => exact hslash d cs rfl rfl
    rw [scanValue_other hne hquote] at h
    obtain ⟨⟨value', close'⟩, hrest, heq⟩ := Option.map_eq_some_iff.mp h
    obtain ⟨before, after, rfl, hclose⟩ := ih hrest
    obtain ⟨-, rfl⟩ := Prod.mk.inj heq
    refine ⟨c :: before, after, rfl, ?_⟩
    rw [hclose, Budget.total_cons, Nat.add_assoc]

/-- What follows the closing quote, which is one byte. -/
theorem sliceFrom_close (before after : List Char) :
    Offsets.sliceFrom Char.utf8Size (before ++ '"' :: after) (Budget.total Char.utf8Size before + 1) = some after := by
  have hquote : Budget.total Char.utf8Size before + 1 = Budget.total Char.utf8Size (before ++ ['"']) :=
    (Budget.total_append before ['"']).symm
  rw [hquote, List.append_cons]
  exact Offsets.sliceFrom_total Char.utf8Size_pos (before ++ ['"']) after

theorem splitQuoted_eq_some {cs key quoted : List Char} (h : splitQuoted cs = some (key, quoted)) :
    cs = key ++ '=' :: '"' :: quoted := by
  induction cs using splitQuoted.induct generalizing key with
  | case1 => cases h
  | case2 cs =>
    cases h
    rfl
  | case3 c cs hnot ih =>
    rw [splitQuoted] at h
    · obtain ⟨⟨key', quoted'⟩, hrest, heq⟩ := Option.map_eq_some_iff.mp h
      obtain ⟨rfl, rfl⟩ := Prod.mk.inj heq
      rw [ih hrest]
      rfl
    · exact hnot

theorem length_stripComma_le (cs : List Char) : (stripComma cs).length ≤ cs.length := by
  unfold stripComma
  split
  · exact Nat.le_succ _
  · exact le_refl _

/-! ### Every line ends -/

/-- A label is never cut inside a character, and it takes its quotes from the line. -/
theorem parseLabel_ends (rest : List Char) : parseLabel rest = some none ∨
    ∃ label after, parseLabel rest = some (some (label, after)) ∧ after.length < rest.length := by
  unfold parseLabel
  cases hsplit : splitQuoted rest with
  | none => exact .inl rfl
  | some cut =>
    obtain ⟨key, quoted⟩ := cut
    dsimp only
    cases hscan : scanValue 0 quoted with
    | none => exact .inl rfl
    | some scanned =>
      obtain ⟨value, close⟩ := scanned
      obtain ⟨before, after, rfl, rfl⟩ := scanValue_eq_some hscan
      dsimp only
      rw [Nat.zero_add, sliceFrom_close]
      have hlength := congrArg List.length (splitQuoted_eq_some hsplit)
      simp only [List.length_append, List.length_cons] at hlength
      have hstrip := length_stripComma_le after
      exact .inr ⟨_, _, rfl, by omega⟩

theorem parseLabels_close (fuel : ℕ) (after : List Char) : parseLabels (fuel + 1) ('}' :: after) = some (some ([], after)) :=
  rfl

theorem parseLabels_open {rest : List Char} (h : ∀ after, rest ≠ '}' :: after) (fuel : ℕ) : parseLabels (fuel + 1) rest =
    match parseLabel rest with
    | none => none
    | some none => some none
    | some (some (label, rest)) =>
      (parseLabels fuel rest).map fun parsed => parsed.map fun (labels, after) => (label :: labels, after) := by
  rw [parseLabels]
  exact h

theorem parseLabels_ends {fuel : ℕ} {rest : List Char} (h : rest.length < fuel) : ∃ r, parseLabels fuel rest = some r := by
  induction fuel generalizing rest with
  | zero => exact absurd h (Nat.not_lt_zero _)
  | succ fuel ih =>
    by_cases hclose : ∃ after, rest = '}' :: after
    · obtain ⟨after, rfl⟩ := hclose
      exact ⟨_, parseLabels_close fuel after⟩
    · rw [parseLabels_open (not_exists.mp hclose)]
      rcases parseLabel_ends rest with hnone | ⟨label, after, hlabel, hlength⟩
      · rw [hnone]
        exact ⟨_, rfl⟩
      · obtain ⟨r, hr⟩ := ih (show after.length < fuel by omega)
        rw [hlabel]
        dsimp only
        rw [hr]
        exact ⟨_, rfl⟩

theorem parseSample_ends (line : String) : ∃ r, parseSample line = some r := by
  unfold parseSample
  cases hfind : Offsets.find Char.utf8Size (fun c => c = '{' || c = ' ') line.toList with
  | none => exact ⟨_, rfl⟩
  | some i =>
    obtain ⟨name, c, rest, hline, -, -, rfl⟩ := Offsets.find_eq_some_iff.mp hfind
    dsimp only
    rw [hline, Offsets.splitAt_total Char.utf8Size_pos]
    dsimp only
    obtain ⟨parsed, hparsed⟩ : ∃ parsed, parseBody (c :: rest) = some parsed := by
      unfold parseBody
      split
      · exact parseLabels_ends (Nat.lt_succ_self _)
      · exact ⟨_, rfl⟩
    rw [hparsed]
    exact ⟨_, rfl⟩

/-! ### A written line is read back -/

/-- A label key that ends where it is cut. -/
structure PlainKey (key : String) : Prop where
  quote : ¬['=', '"'] <:+: key.toList
  brace : '}' ∉ key.toList
  comma : ',' ∉ key.toList

/-- A label as it is written. -/
def labelText (label : String × String) : String := label.1 ++ "=\"" ++ escapeLabel label.2 ++ "\""

/-- `name\x7bk="v",...\x7d value`, with the values of the labels escaped. -/
def sampleLine (name : String) (labels : List (String × String)) (value : String) : String :=
  name ++ "\x7b" ++ ",".intercalate (labels.map labelText) ++ "\x7d " ++ value

theorem splitQuoted_key {key : List Char} (h : ¬['=', '"'] <:+: key) (quoted : List Char) :
    splitQuoted (key ++ '=' :: '"' :: quoted) = some (key, quoted) := by
  induction key with
  | nil => rfl
  | cons c key ih =>
    have hkey := ih fun hin => h (hin.trans (List.suffix_cons c key).isInfix)
    rw [List.cons_append, splitQuoted, hkey]
    · rfl
    · rintro cs rfl hnext
      cases key with
      | nil => cases hnext
      | cons d key =>
        obtain ⟨rfl, -⟩ := List.cons.inj hnext
        exact h ⟨[], key, rfl⟩

/-- The scanner reads a character from its escape. -/
theorem scanValue_escapeChar (i : ℕ) (c : Char) (cs : List Char) : scanValue i (escapeChar c ++ cs) =
    (scanValue (i + Budget.total Char.utf8Size (escapeChar c)) cs).map fun (value, close) => (c :: value, close) := by
  by_cases hnewline : c = '\n'
  · subst hnewline
    exact scanValue_escape i 'n' cs
  · by_cases hspecial : c = '\\' ∨ c = '"'
    · have hletter : c ≠ 'n' := by
        rintro rfl
        exact absurd hspecial (by decide)
      have hescape : escapeChar c = ['\\', c] := (if_neg hnewline).trans (if_pos hspecial)
      have hread := scanValue_escape i c cs
      rw [if_neg hletter, Nat.add_assoc] at hread
      rw [hescape]
      exact hread
    · obtain ⟨hslash, hquote⟩ := not_or.mp hspecial
      have hescape : escapeChar c = [c] := (if_neg hnewline).trans (if_neg hspecial)
      rw [hescape]
      exact scanValue_other hslash hquote i cs

/-- **Unescaping undoes the escapes**, up to the quote that closes the value. -/
theorem scanValue_escaped (i : ℕ) (value rest : List Char) : scanValue i (value.flatMap escapeChar ++ '"' :: rest) =
    some (value, i + Budget.total Char.utf8Size (value.flatMap escapeChar)) := by
  induction value generalizing i with
  | nil => rfl
  | cons c value ih =>
    rw [List.flatMap_cons, List.append_assoc, scanValue_escapeChar, ih, Budget.total_append, Option.map_some,
      Nat.add_assoc]

theorem toList_labelText (label : String × String) :
    (labelText label).toList = label.1.toList ++ '=' :: '"' :: (label.2.toList.flatMap escapeChar ++ ['"']) := by
  have hquoted : "=\"".toList = ['=', '"'] := rfl
  have hquote : "\"".toList = ['"'] := rfl
  unfold labelText
  simp only [String.toList_append, toList_escapeLabel, hquoted, hquote, List.append_assoc, List.cons_append,
    List.nil_append]

theorem parseLabel_written {label : String × String} (h : PlainKey label.1) (rest : List Char) :
    parseLabel ((labelText label).toList ++ rest) = some (some (label, stripComma rest)) := by
  rw [toList_labelText]
  unfold parseLabel
  rw [List.append_assoc, List.cons_append, List.cons_append, List.append_assoc, splitQuoted_key h.quote]
  dsimp only
  rw [List.singleton_append, scanValue_escaped]
  dsimp only
  rw [Nat.zero_add, sliceFrom_close, Option.map_some, String.ofList_toList, String.ofList_toList]

/-- A written label does not start with the closing brace. -/
theorem labelText_ne_close {label : String × String} (h : PlainKey label.1) (rest after : List Char) :
    (labelText label).toList ++ rest ≠ '}' :: after := by
  rw [toList_labelText]
  cases hkey : label.1.toList with
  | nil => exact fun heq => absurd (List.cons.inj heq).1 (by decide)
  | cons c key =>
    intro heq
    apply h.brace
    rw [hkey, ← (List.cons.inj heq).1]
    exact List.mem_cons_self

/-- The labels as they are written, joined by commas. -/
def labelsText (labels : List (String × String)) : List Char :=
  [','].intercalate (labels.map fun label => (labelText label).toList)

/-- What a label is followed by is, without its comma, the rest of the labels. -/
theorem exists_labelsText_cons (label : String × String) (labels : List (String × String)) (after : List Char) :
    ∃ rest, labelsText (label :: labels) ++ '}' :: after = (labelText label).toList ++ rest ∧
      stripComma rest = labelsText labels ++ '}' :: after := by
  cases labels with
  | nil => exact ⟨'}' :: after, by simp [labelsText], rfl⟩
  | cons next labels => exact ⟨',' :: (labelsText (next :: labels) ++ '}' :: after), by simp [labelsText], rfl⟩

theorem parseLabels_written {labels : List (String × String)} (h : ∀ label ∈ labels, PlainKey label.1) {fuel : ℕ}
    {after : List Char} (hfuel : (labelsText labels ++ '}' :: after).length < fuel) :
    parseLabels fuel (labelsText labels ++ '}' :: after) = some (some (labels, after)) := by
  induction labels generalizing fuel with
  | nil =>
    obtain ⟨fuel, rfl⟩ := Nat.exists_eq_add_of_lt hfuel
    exact parseLabels_close _ after
  | cons label labels ih =>
    obtain ⟨hlabel, hlabels⟩ := List.forall_mem_cons.mp h
    obtain ⟨rest, hrest, hstrip⟩ := exists_labelsText_cons label labels after
    obtain ⟨fuel, rfl⟩ := Nat.exists_eq_add_of_lt hfuel
    have hread := parseLabel_written hlabel rest
    rcases parseLabel_ends ((labelText label).toList ++ rest) with hnone | ⟨other, after', hother, hlength⟩
    · rw [hread] at hnone
      cases hnone
    · rw [hread] at hother
      cases hother
      rw [hrest, parseLabels_open (labelText_ne_close hlabel rest), hread]
      dsimp only
      rw [hstrip] at hlength ⊢
      rw [ih hlabels (by omega)]
      rfl

theorem not_whitespace_of_parseDouble {text : String} {x : ℚ} (h : parseDouble text = some (.finite x)) :
    text.toList ≠ [] ∧ ∀ c ∈ text.toList, isWhitespace c = false := by
  obtain ⟨hne, hchars⟩ := numeral_of_parseFinite (parseDouble_eq_finite_iff.mp h)
  exact ⟨fun hnil => hne (String.toList_inj.mp hnil), fun c hc => not_whitespace_of_numeral (hchars c hc)⟩

theorem readValue_written {text : String} {x : ℚ} (h : parseDouble text = some (.finite x)) :
    readValue (' ' :: text.toList) = some (.finite x) := by
  obtain ⟨hne, hfree⟩ := not_whitespace_of_parseDouble h
  unfold readValue
  rw [Words.words_cons rfl, Words.words_of_free hne hfree]
  show parseDouble (String.ofList text.toList) = _
  rw [String.ofList_toList, h]

theorem toList_sampleLine (name : String) (labels : List (String × String)) (value : String) :
    (sampleLine name labels value).toList = name.toList ++ '{' :: (labelsText labels ++ '}' :: ' ' :: value.toList) := by
  have hcomma : ",".toList = [','] := rfl
  have hopen : "\x7b".toList = ['{'] := rfl
  have hclose : "\x7d ".toList = ['}', ' '] := rfl
  unfold sampleLine labelsText
  simp only [String.toList_append, String.toList_intercalate, hcomma, hopen, hclose, List.map_map, List.append_assoc,
    List.cons_append, List.nil_append]
  rfl

theorem parseSample_written {name : String} (hname : '{' ∉ name.toList ∧ ' ' ∉ name.toList)
    {labels : List (String × String)} (hlabels : ∀ label ∈ labels, PlainKey label.1) {text : String} {x : ℚ}
    (htext : parseDouble text = some (.finite x)) :
    parseSample (sampleLine name labels text) = some (some ⟨name, labels, .finite x⟩) := by
  have hfind : Offsets.find Char.utf8Size (fun c => c = '{' || c = ' ')
      (name.toList ++ '{' :: (labelsText labels ++ '}' :: ' ' :: text.toList)) =
      some (Budget.total Char.utf8Size name.toList) := by
    refine Offsets.find_eq_some_iff.mpr ⟨_, _, _, rfl, fun c hc => ?_, rfl, rfl⟩
    have hopen : c ≠ '{' := fun heq => hname.1 (heq ▸ hc)
    have hspace : c ≠ ' ' := fun heq => hname.2 (heq ▸ hc)
    simp [hopen, hspace]
  unfold parseSample
  rw [toList_sampleLine, hfind]
  dsimp only
  rw [Offsets.splitAt_total Char.utf8Size_pos]
  dsimp only
  have hbody : parseBody ('{' :: (labelsText labels ++ '}' :: ' ' :: text.toList)) =
      some (some (labels, ' ' :: text.toList)) := parseLabels_written hlabels (Nat.lt_succ_self _)
  rw [hbody, Option.map_some]
  dsimp only [Option.bind_eq_bind, Option.bind_some]
  rw [readValue_written htext, String.ofList_toList]
  rfl

/-! ### Every finite double has a text -/

/-- `m` tenths to the `k`, in digits. -/
def decimalText (m : ℤ) (k : ℕ) : String := (if m < 0 then "-" else "") ++ toString m.natAbs ++ "e-" ++ toString k

theorem decimal_toString (n : ℕ) : decimal (toString n).toList = n := by
  have hread : decimal (toString n).toList = Digits.readDigits 10 (toString n).toList :=
    decimalValue_eq_readDigits (digit_of_toString n)
  rw [hread, Nat.toString_eq_repr, Nat.toList_repr, Digits.readDigits_toDigits (by decide) (by decide)]

theorem toList_toString_ne_nil (n : ℕ) : (toString n).toList ≠ [] := by
  rw [Nat.toString_eq_repr, Nat.toList_repr]
  exact Nat.toDigits_ne_nil

theorem signOf_digits {ds : List Char} (h : ∀ c ∈ ds, isAsciiDigit c = true) (hne : ds ≠ []) (rest : List Char) :
    signOf (ds ++ rest) = (1, ds ++ rest) := by
  cases ds with
  | nil => exact absurd rfl hne
  | cons c ds =>
    have hc := h c List.mem_cons_self
    unfold signOf
    split
    · next heq =>
      rw [(List.cons.inj heq).1] at hc
      exact absurd hc (by decide)
    · next heq =>
      rw [(List.cons.inj heq).1] at hc
      exact absurd hc (by decide)
    · rfl

/-- The characters of an integer. -/
def intChars (m : ℤ) : List Char := (if m < 0 then ['-'] else []) ++ (toString m.natAbs).toList

theorem signOf_intChars (m : ℤ) (rest : List Char) :
    signOf (intChars m ++ rest) = (if m < 0 then -1 else 1, (toString m.natAbs).toList ++ rest) := by
  unfold intChars
  split
  · rfl
  · exact signOf_digits (digit_of_toString _) (toList_toString_ne_nil _) _

theorem toList_decimalText (m : ℤ) (k : ℕ) : (decimalText m k).toList = intChars m ++ 'e' :: '-' :: (toString k).toList := by
  have hexponent : "e-".toList = ['e', '-'] := rfl
  unfold decimalText intChars
  split
  · have hminus : "-".toList = ['-'] := rfl
    simp only [String.toList_append, hminus, hexponent, List.append_assoc, List.cons_append, List.nil_append]
  · simp only [String.toList_append, hexponent, String.toList_empty, List.append_assoc, List.cons_append, List.nil_append]

theorem exponentOf_toString (k : ℕ) : exponentOf ('e' :: '-' :: (toString k).toList) = some (-(k : ℤ)) := by
  have hmarked : (('e' : Char) = 'e' ∨ ('e' : Char) = 'E') ∧ (toString k).toList ≠ [] ∧
      (toString k).toList.all isAsciiDigit = true :=
    ⟨.inl rfl, toList_toString_ne_nil k, List.all_eq_true.mpr (digit_of_toString k)⟩
  have hvalue : some (-1 * (decimal (toString k).toList : ℤ)) = some (-(k : ℤ)) := by rw [decimal_toString, neg_one_mul]
  exact (if_pos hmarked).trans hvalue

/-- An integer with an exponent, or without one. -/
theorem numeral_intChars {s : String} {m e : ℤ} {rest : List Char} (hs : s.toList = intChars m ++ rest)
    (hrest : rest = [] ∨ ∃ cs, rest = 'e' :: cs) (hexponent : exponentOf rest = some e) :
    numeral s = some ((m : ℚ) * 10 ^ e) := by
  have hdigits := digit_of_toString m.natAbs
  have hwhole : ((toString m.natAbs).toList ++ rest).takeWhile isAsciiDigit = (toString m.natAbs).toList := by
    rw [List.takeWhile_append_of_pos hdigits]
    rcases hrest with rfl | ⟨cs, rfl⟩ <;> exact List.append_nil _
  have hleft : ((toString m.natAbs).toList ++ rest).dropWhile isAsciiDigit = rest := by
    rw [List.dropWhile_append_of_pos hdigits]
    rcases hrest with rfl | ⟨cs, rfl⟩ <;> rfl
  have hsign : ((if m < 0 then -1 else 1 : ℤ) : ℚ) * (m.natAbs : ℚ) = m := by
    rcases lt_or_ge m 0 with hm | hm
    · rw [if_pos hm, Nat.cast_natAbs, abs_of_neg hm]
      push_cast
      ring
    · rw [if_neg (not_lt.mpr hm), Nat.cast_natAbs, abs_of_nonneg hm]
      push_cast
      ring
  have hread : ((exponentOf rest).bind fun exponent => some (((if m < 0 then -1 else 1 : ℤ) : ℚ) *
      (decimal ((toString m.natAbs).toList ++ []) : ℚ) * 10 ^ (exponent - ((0 : ℕ) : ℤ)))) = some ((m : ℚ) * 10 ^ e) := by
    rw [hexponent, Option.bind_some, List.append_nil, decimal_toString, hsign, Nat.cast_zero, sub_zero]
  unfold numeral
  rw [hs, signOf_intChars]
  dsimp only
  rw [hwhole, hleft]
  -- No fraction follows the digits.
  rcases hrest with rfl | ⟨cs, rfl⟩
  · exact (if_neg fun h => toList_toString_ne_nil _ h.1).trans hread
  · exact (if_neg fun h => toList_toString_ne_nil _ h.1).trans hread

theorem numeral_decimalText (m : ℤ) (k : ℕ) : numeral (decimalText m k) = some ((m : ℚ) * 10 ^ (-(k : ℤ))) :=
  numeral_intChars (toList_decimalText m k) (.inr ⟨_, rfl⟩) (exponentOf_toString k)

theorem numeral_toString (m : ℤ) : numeral (toString m) = some (m : ℚ) := by
  have hchars : (toString m).toList = intChars m ++ [] := by
    rw [List.append_nil]
    cases m with
    | ofNat n => rfl
    | negSucc n =>
      unfold intChars
      rw [if_pos (Int.negSucc_lt_zero n)]
      exact String.toList_append
  rw [numeral_intChars hchars (.inl rfl) rfl, zpow_zero, mul_one]

/-- A power of two is a number of tenths. -/
theorem exists_decimal (n e : ℤ) : ∃ (m : ℤ) (k : ℕ), (m : ℚ) * 10 ^ (-(k : ℤ)) = n * 2 ^ e := by
  rcases Int.eq_nat_or_neg e with ⟨j, rfl | rfl⟩
  · refine ⟨n * 2 ^ j, 0, ?_⟩
    push_cast
    simp
  · refine ⟨n * 5 ^ j, j, ?_⟩
    have hten : (10 : ℚ) ^ j = 2 ^ j * 5 ^ j := by
      rw [← mul_pow]
      norm_num
    push_cast
    rw [zpow_neg, zpow_natCast, zpow_neg, zpow_natCast, hten, mul_inv]
    field_simp

theorem exists_text {x : ℚ} (h : IsDouble x) : ∃ text, parseDouble text = some (.finite x) := by
  have hround := toDouble_of_isDouble h
  obtain ⟨n, e, rfl, -⟩ := h
  obtain ⟨m, k, hmk⟩ := exists_decimal n e
  refine ⟨decimalText m k, ?_⟩
  unfold parseDouble
  rw [numeral_decimalText, hmk]
  dsimp only
  rw [hround]

/-! ### The round trip -/

/-- **Samples round-trip.**  A line of a name without brace or space, of labels with any values under plain keys, and
of any text of a finite double is read back as that name, those labels in order and that double; and every line ends,
without a cut inside a character. -/
theorem samples_round_trip :
    (∀ line, ∃ r, parseSample line = some r) ∧
      ∀ (name : String) (labels : List (String × String)) (x : ℚ), '{' ∉ name.toList ∧ ' ' ∉ name.toList →
        (∀ label ∈ labels, PlainKey label.1) → IsDouble x →
          (∃ text, parseDouble text = some (.finite x)) ∧
            ∀ text, parseDouble text = some (.finite x) →
              parseSample (sampleLine name labels text) = some (some ⟨name, labels, .finite x⟩) :=
  ⟨parseSample_ends, fun _ _ _ hname hlabels hx =>
    ⟨exists_text hx, fun _ htext => parseSample_written hname hlabels htext⟩⟩

/-- A label value of every character that is escaped. -/
theorem samples_round_trip_escaped :
    parseSample (sampleLine "up" [("stack", "a\\\"\n"), ("le", "")] "0.5") =
      some (some ⟨"up", [("stack", "a\\\"\n"), ("le", "")], .finite (1 / 2)⟩) := by
  have hkeys : ∀ label ∈ [("stack", "a\\\"\n"), ("le", "")], PlainKey label.1 := by
    intro label hlabel
    rcases List.mem_cons.mp hlabel with rfl | hlabel
    · exact ⟨by decide, by decide, by decide⟩
    · obtain rfl := List.mem_singleton.mp hlabel
      exact ⟨by decide, by decide, by decide⟩
  have hhalf : IsDouble (1 / 2) := ⟨1, -1, by norm_num, by norm_num, by norm_num, by norm_num⟩
  exact (samples_round_trip.2 "up" _ (1 / 2) (by decide) hkeys hhalf).2 "0.5" (by decide +kernel)

/-! ### The versions the console exports -/

theorem flatMap_escapeChar {cs : List Char} (h : ∀ c ∈ cs, c ≠ '\n' ∧ c ≠ '\\' ∧ c ≠ '"') : cs.flatMap escapeChar = cs := by
  induction cs with
  | nil => rfl
  | cons c cs ih =>
    obtain ⟨⟨hnewline, hslash, hquote⟩, hcs⟩ := List.forall_mem_cons.mp h
    have hescape : escapeChar c = [c] := (if_neg hnewline).trans (if_neg (not_or.mpr ⟨hslash, hquote⟩))
    rw [List.flatMap_cons, hescape, ih hcs]
    rfl

theorem escapeLabel_toString (n : ℕ) : escapeLabel (toString n) = toString n := by
  rw [← String.toList_inj, toList_escapeLabel]
  refine flatMap_escapeChar fun c hc => ?_
  have hdigit := digit_of_toString n c hc
  refine ⟨?_, ?_, ?_⟩ <;> rintro rfl <;> exact absurd hdigit (by decide)

/-- A label value stays on its line. -/
theorem newline_notMem_escapeChar (c : Char) : '\n' ∉ escapeChar c := by
  unfold escapeChar Quoted.escapeItem
  split
  · decide
  · next hnewline => split <;> simp [Ne.symm hnewline]

theorem newline_notMem_escapeLabel (v : String) : '\n' ∉ (escapeLabel v).toList := by
  rw [toList_escapeLabel, List.mem_flatMap]
  rintro ⟨c, -, hc⟩
  exact newline_notMem_escapeChar c hc

/-- An integer of at most 53 bits is a double, and is read back from its digits. -/
theorem parseDouble_toString {m : ℤ} (h : |m| < 2 ^ 53) : parseDouble (toString m) = some (.finite m) := by
  have hdouble : IsDouble (m : ℚ) := ⟨m, 0, by rw [zpow_zero, mul_one], h, by decide, by decide⟩
  unfold parseDouble
  rw [numeral_toString]
  dsimp only
  rw [toDouble_of_isDouble hdouble]

theorem newline_notMem_labelText {label : String × String} (h : '\n' ∉ label.1.toList) :
    '\n' ∉ (labelText label).toList := by
  have hvalue := newline_notMem_escapeLabel label.2
  rw [toList_escapeLabel] at hvalue
  rw [toList_labelText]
  simp [h, hvalue]

theorem newline_notMem_labelsText {labels : List (String × String)} (h : ∀ label ∈ labels, '\n' ∉ label.1.toList) :
    '\n' ∉ labelsText labels := by
  induction labels with
  | nil => exact List.not_mem_nil
  | cons label labels ih =>
    obtain ⟨hlabel, hlabels⟩ := List.forall_mem_cons.mp h
    have hfirst := newline_notMem_labelText hlabel
    have hrest := ih hlabels
    unfold labelsText at hrest ⊢
    cases labels with
    | nil => simpa using hfirst
    | cons next labels =>
      rw [List.map_cons] at hrest
      rw [List.map_cons, List.map_cons, List.intercalate_cons_cons]
      simp [hfirst, hrest]

/-- A text is one line, which is read as a sample. -/
def IsLineOf (text : String) (s : Sample) : Prop :=
  ∃ line, text = line ++ "\n" ∧ '\n' ∉ line.toList ∧ parseSample line = some (some s)

theorem isLineOf_sampleLine {name : String} (hname : '{' ∉ name.toList ∧ ' ' ∉ name.toList ∧ '\n' ∉ name.toList)
    {labels : List (String × String)} (hkeys : ∀ label ∈ labels, PlainKey label.1 ∧ '\n' ∉ label.1.toList) {m : ℤ}
    (hm : |m| < 2 ^ 53) : IsLineOf (sampleLine name labels (toString m) ++ "\n") ⟨name, labels, .finite m⟩ := by
  have hread := parseDouble_toString hm
  have hvalue : '\n' ∉ (toString m).toList := fun hin =>
    absurd ((not_whitespace_of_parseDouble hread).2 _ hin) (by decide)
  have hlabels : '\n' ∉ labelsText labels := newline_notMem_labelsText fun label hl => (hkeys label hl).2
  refine ⟨_, rfl, ?_, parseSample_written ⟨hname.1, hname.2.1⟩ (fun label hl => (hkeys label hl).1) hread⟩
  rw [toList_sampleLine]
  simpa [hname.2.2, hlabels] using hvalue

namespace Committed

/-- The sample of a record. -/
def Record.sample (r : Record) : Sample :=
  ⟨"ops_console_committed_record", [("name", r.name), ("version", toString r.version)], .finite r.seenAt⟩

/-- The sample of a document. -/
def Document.sample (d : Document) : Sample :=
  ⟨"ops_console_committed_document", [("version", toString d.version), ("digest", d.digest)], .finite d.seenAt⟩

theorem Record.line_eq (r : Record) : r.line = sampleLine r.sample.name r.sample.labels (toString r.seenAt) ++ "\n" := by
  have hopen : "ops_console_committed_record\x7bname=\"" = "ops_console_committed_record" ++ "\x7b" ++ "name" ++ "=\"" := rfl
  have hnext : "\",version=\"" = "\"" ++ "," ++ "version" ++ "=\"" := rfl
  have hclose : "\"\x7d " = "\"" ++ "\x7d " := rfl
  have hlabels : ",".intercalate ([("name", r.name), ("version", toString r.version)].map labelText) =
      labelText ("name", r.name) ++ "," ++ labelText ("version", toString r.version) := rfl
  unfold Record.line sampleLine Record.sample
  dsimp only
  rw [hlabels, hopen, hnext, hclose]
  simp only [labelText, escapeLabel_toString, String.append_assoc]

theorem Document.line_eq (d : Document) : d.line = sampleLine d.sample.name d.sample.labels (toString d.seenAt) ++ "\n" := by
  have hopen : "ops_console_committed_document\x7bversion=\"" =
      "ops_console_committed_document" ++ "\x7b" ++ "version" ++ "=\"" := rfl
  have hnext : "\",digest=\"" = "\"" ++ "," ++ "digest" ++ "=\"" := rfl
  have hclose : "\"\x7d " = "\"" ++ "\x7d " := rfl
  have hlabels : ",".intercalate ([("version", toString d.version), ("digest", d.digest)].map labelText) =
      labelText ("version", toString d.version) ++ "," ++ labelText ("digest", d.digest) := rfl
  unfold Document.line sampleLine Document.sample
  dsimp only
  rw [hlabels, hopen, hnext, hclose]
  simp only [labelText, escapeLabel_toString, String.append_assoc]

theorem Record.isLineOf (r : Record) (h : |r.seenAt| < 2 ^ 53) : IsLineOf r.line r.sample := by
  have hseries : '{' ∉ "ops_console_committed_record".toList ∧ ' ' ∉ "ops_console_committed_record".toList ∧
      '\n' ∉ "ops_console_committed_record".toList := by decide
  have hname : PlainKey "name" ∧ '\n' ∉ "name".toList := ⟨⟨by decide, by decide, by decide⟩, by decide⟩
  have hversion : PlainKey "version" ∧ '\n' ∉ "version".toList := ⟨⟨by decide, by decide, by decide⟩, by decide⟩
  rw [r.line_eq]
  exact isLineOf_sampleLine hseries (List.forall_mem_cons.mpr ⟨hname, List.forall_mem_singleton.mpr hversion⟩) h

theorem Document.isLineOf (d : Document) (h : |d.seenAt| < 2 ^ 53) : IsLineOf d.line d.sample := by
  have hseries : '{' ∉ "ops_console_committed_document".toList ∧ ' ' ∉ "ops_console_committed_document".toList ∧
      '\n' ∉ "ops_console_committed_document".toList := by decide
  have hversion : PlainKey "version" ∧ '\n' ∉ "version".toList := ⟨⟨by decide, by decide, by decide⟩, by decide⟩
  have hdigest : PlainKey "digest" ∧ '\n' ∉ "digest".toList := ⟨⟨by decide, by decide, by decide⟩, by decide⟩
  rw [d.line_eq]
  exact isLineOf_sampleLine hseries (List.forall_mem_cons.mpr ⟨hversion, List.forall_mem_singleton.mpr hdigest⟩) h

/-- **What is exported is read back**, whatever the names and the digests: each kind's comments and one line for
every version, read as its sample. -/
theorem render_read (c : Committed) (hrecords : ∀ r ∈ c.records, |r.seenAt| < 2 ^ 53)
    (hdocuments : ∀ d ∈ c.documents, |d.seenAt| < 2 ^ 53) : ∃ records documents : List String,
      c.render = recordComments ++ String.join records ++ documentComments ++ String.join documents ∧
        List.Forall₂ IsLineOf records (c.records.map Record.sample) ∧
        List.Forall₂ IsLineOf documents (c.documents.map Document.sample) := by
  refine ⟨c.records.map Record.line, c.documents.map Document.line, rfl, ?_, ?_⟩
  · rw [List.forall₂_map_left_iff, List.forall₂_map_right_iff, List.forall₂_same]
    exact fun r hr => r.isLineOf (hrecords r hr)
  · rw [List.forall₂_map_left_iff, List.forall₂_map_right_iff, List.forall₂_same]
    exact fun d hd => d.isLineOf (hdocuments d hd)

end Committed

end Alaya.Console
