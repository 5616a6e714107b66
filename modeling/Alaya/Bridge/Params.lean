import Alaya.Lib.Digits
import Alaya.Lib.Json
import Alaya.Lib.Quoted
import Mathlib.Tactic.Ring

/-!
# Parameters of a statement

A statement goes to the graph as one text, its parameters in front of it as `CYPHER k=v k=v …`.  A lexer
of that form reads the parameters back: a string ends at its first quote that is not escaped, and the only
escapes are the ones the encoder writes.
-/

namespace Alaya

open Json

/-- How doubles are printed: with a point or an exponent, and so that they read back. -/
structure FloatText where
  /-- The values a double takes. -/
  Double : ℚ → Prop
  text : ℚ → List Char
  read : List Char → Option ℚ
  read_text : ∀ x, Double x → read (text x) = some x
  marked : ∀ x, Double x → (text x).any (fun c => c = '.' || c = 'e') = true
  chars : ∀ x, Double x → ∀ c ∈ text x, c.isDigit || c = '-' || c = '+' || c = '.' || c = 'e'
  starts : ∀ x, Double x → ∃ c cs, text x = c :: cs ∧ (c.isDigit || c = '-') = true

namespace Params

/-! ### The encoder -/

def numberText (ft : FloatText) : Number → List Char
  | .posInt n => Nat.toDigits 10 n.toNat
  | .negInt n => if n < 0 then '-' :: Nat.toDigits 10 n.toInt.natAbs else Nat.toDigits 10 n.toInt.natAbs
  | .float x => ft.text x

def quoteMark : Char := Char.ofNat 39

mutual

/-- A value as the text of a Cypher literal; an object is not supported there. -/
def valueToCypherLiteral (ft : FloatText) : Value → List Char
  | .string s => quoteMark :: (Quoted.escape '\\' quoteMark s.toList ++ [quoteMark])
  | .number n => numberText ft n
  | .bool true => "true".toList
  | .bool false => "false".toList
  | .null => "null".toList
  | .array xs => '[' :: (joinedLiterals ft xs ++ [']'])
  | .object _ => "null".toList

/-- The elements of an array, joined with a comma and a space. -/
def joinedLiterals (ft : FloatText) : List Value → List Char
  | [] => []
  | [x] => valueToCypherLiteral ft x
  | x :: y :: ys => valueToCypherLiteral ft x ++ ',' :: ' ' :: joinedLiterals ft (y :: ys)

end

/-- The parameters in the order the map yields them, each with a space after it. -/
def bindingsText (ft : FloatText) (params : List (String × Value)) : List Char :=
  params.flatMap fun (k, v) => k.toList ++ '=' :: (valueToCypherLiteral ft v ++ [' '])

/-- The text a statement is sent as. -/
def cypherWithParams (ft : FloatText) (params : List (String × Value)) (cypher : String) : String :=
  if params.isEmpty then cypher
  else String.ofList ("CYPHER ".toList ++ bindingsText ft params ++ cypher.toList)

/-! ### The lexer -/

def isNumberChar (c : Char) : Bool := c.isDigit || c = '-' || c = '+' || c = '.' || c = 'e'

def isIdentifierChar (c : Char) : Bool := c.isAlphanum || c = '_'

/-- The digits of a natural number, whole. -/
def readNat (cs : List Char) : Option ℕ :=
  if cs ≠ [] ∧ cs.all Char.isDigit then some (Digits.readDigits 10 cs) else none

def readNumber (ft : FloatText) (token : List Char) : Option Number :=
  if token.any fun c => c = '.' || c = 'e' then (ft.read token).map .float
  else match token with
    | '-' :: digits => (readNat digits).map fun (n : ℕ) => .negInt (Int64.ofInt (-(n : ℤ)))
    | digits => (readNat digits).map fun (n : ℕ) => .posInt (UInt64.ofNat n)

def readWord (word : List Char) : Option Value :=
  if word = "true".toList then some (.bool true)
  else if word = "false".toList then some (.bool false)
  else if word = "null".toList then some .null
  else none

mutual

/-- Read one literal, and what follows it. -/
def lexValue (ft : FloatText) : ℕ → List Char → Option (Value × List Char)
  | 0, _ => none
  | _ + 1, [] => none
  | fuel + 1, c :: cs =>
    if c = quoteMark then (Quoted.read '\\' quoteMark cs).map fun (s, rest) => (.string (String.ofList s), rest)
    else if c = '[' then
      if cs.head? = some ']' then some (.array [], cs.tail)
      else (lexItems ft fuel cs).map fun (xs, rest) => (.array xs, rest)
    else if c.isDigit || c = '-' then
      (readNumber ft ((c :: cs).takeWhile isNumberChar)).map fun n =>
        (.number n, (c :: cs).dropWhile isNumberChar)
    else (readWord ((c :: cs).takeWhile isIdentifierChar)).map fun v => (v, (c :: cs).dropWhile isIdentifierChar)

/-- The elements of an array up to its bracket. -/
def lexItems (ft : FloatText) : ℕ → List Char → Option (List Value × List Char)
  | 0, _ => none
  | fuel + 1, cs =>
    match lexValue ft fuel cs with
    | some (x, ']' :: rest) => some ([x], rest)
    | some (x, ',' :: ' ' :: rest) => (lexItems ft fuel rest).map fun (xs, rest) => (x :: xs, rest)
    | _ => none

end

/-- The name a binding starts with, and what follows its `=`. -/
def bindingName (cs : List Char) : Option (String × List Char) :=
  match cs.dropWhile isIdentifierChar with
  | '=' :: rest => if cs.takeWhile isIdentifierChar = [] then none
      else some (String.ofList (cs.takeWhile isIdentifierChar), rest)
  | _ => none

/-- One binding, its value read and the space after it. -/
def lexBinding (ft : FloatText) (cs : List Char) : Option ((String × Value) × List Char) :=
  match bindingName cs with
  | none => none
  | some (k, rest) =>
    match lexValue ft cs.length rest with
    | some (v, ' ' :: rest) => some ((k, v), rest)
    | _ => none

/-- As many bindings as were sent, and the statement after them. -/
def lexBindings (ft : FloatText) : ℕ → List Char → Option (List (String × Value) × List Char)
  | 0, cs => some ([], cs)
  | n + 1, cs =>
    match lexBinding ft cs with
    | none => none
    | some (b, rest) => (lexBindings ft n rest).map fun (bs, rest) => (b :: bs, rest)

/-- Bindings as long as the text starts with one; what is left is the statement. -/
def lexParams (ft : FloatText) : ℕ → List Char → Option (List (String × Value) × List Char)
  | 0, _ => none
  | fuel + 1, cs =>
    if (bindingName cs).isNone then some ([], cs)
    else match lexBinding ft cs with
      | none => none
      | some (b, rest) => (lexParams ft fuel rest).map fun (bs, rest) => (b :: bs, rest)

def header : List Char := "CYPHER ".toList

/-- Read a text as it was sent: its parameters and its statement. -/
def lexText (ft : FloatText) (text : String) : Option (List (String × Value) × String) :=
  if header.isPrefixOf text.toList then
    (lexParams ft text.length (text.toList.drop header.length)).map fun (bs, rest) => (bs, String.ofList rest)
  else some ([], text)

/-! ### What can be sent -/

mutual

/-- Null, booleans, numbers and strings, and arrays of these; an integer held as negative is. -/
def Sendable (ft : FloatText) : Value → Prop
  | .object _ => False
  | .number (.negInt n) => n < 0
  | .number (.float x) => ft.Double x
  | .array xs => AllSendable ft xs
  | _ => True

def AllSendable (ft : FloatText) : List Value → Prop
  | [] => True
  | x :: xs => Sendable ft x ∧ AllSendable ft xs

end

/-- What follows a literal ends its last word or number. -/
def Ends (rest : List Char) : Prop :=
  ∃ c cs, rest = c :: cs ∧ isNumberChar c = false ∧ isIdentifierChar c = false

mutual

/-- How deep the lexer must be let into a value. -/
def need : Value → ℕ
  | .array xs => needItems xs + 1
  | _ => 1

def needItems : List Value → ℕ
  | [] => 0
  | x :: xs => max (need x) (needItems xs) + 1

end

/-! ### Words and numbers read back -/

theorem takeWhile_ends {p : Char → Bool} {token rest : List Char} (htoken : ∀ c ∈ token, p c = true)
    (hrest : ∃ c cs, rest = c :: cs ∧ p c = false) :
    (token ++ rest).takeWhile p = token ∧ (token ++ rest).dropWhile p = rest := by
  obtain ⟨c, cs, rfl, hc⟩ := hrest
  rw [List.takeWhile_append_of_pos htoken, List.dropWhile_append_of_pos htoken,
    List.takeWhile_cons_of_neg (by simp [hc]), List.dropWhile_cons_of_neg (by simp [hc]), List.append_nil]
  exact ⟨rfl, rfl⟩

theorem isDigit_toDigits {n : ℕ} {c : Char} (h : c ∈ Nat.toDigits 10 n) : c.isDigit = true :=
  Nat.isDigit_of_mem_toDigits (by decide) (by decide) h

theorem readNat_toDigits (n : ℕ) : readNat (Nat.toDigits 10 n) = some n := by
  have hne : Nat.toDigits 10 n ≠ [] := by
    intro h
    have hpos := Nat.length_toDigits_pos (b := 10) (n := n)
    rw [h] at hpos
    exact absurd hpos (by decide)
  rw [readNat, if_pos ⟨hne, List.all_eq_true.mpr fun c hc => isDigit_toDigits hc⟩,
    Digits.readDigits_toDigits (by decide) (by decide)]

/-- The digits of an integer are no double. -/
theorem any_toDigits (n : ℕ) : (Nat.toDigits 10 n).any (fun c => c = '.' || c = 'e') = false := by
  rw [List.any_eq_false]
  intro c hc hmark
  have hdigit := isDigit_toDigits hc
  rcases Bool.or_eq_true_iff.mp hmark with h | h
  · rw [of_decide_eq_true h] at hdigit
    exact absurd hdigit (by decide)
  · rw [of_decide_eq_true h] at hdigit
    exact absurd hdigit (by decide)

theorem toDigits_ne_minus {n : ℕ} {digits : List Char} : Nat.toDigits 10 n ≠ '-' :: digits := by
  intro h
  have hdigit := isDigit_toDigits (n := n) (c := '-') (by simp [h])
  exact absurd hdigit (by decide)

theorem toInt_neg {n : Int64} (h : n < 0) : n.toInt < 0 := Int64.lt_iff_toInt_lt.mp h

theorem readNumber_numberText (ft : FloatText) {n : Number} (h : Sendable ft (.number n)) :
    readNumber ft (numberText ft n) = some n := by
  unfold readNumber numberText
  cases n with
  | float x =>
    have hx : ft.Double x := by simpa [Sendable] using h
    dsimp only
    rw [if_pos (ft.marked x hx), ft.read_text x hx]
    rfl
  | posInt n =>
    dsimp only
    rw [if_neg (by simp [any_toDigits])]
    split
    · rename_i digits heq
      exact absurd heq toDigits_ne_minus
    · rw [readNat_toDigits, Option.map_some, UInt64.ofNat_toNat]
  | negInt n =>
    have hn : n < 0 := by simpa [Sendable] using h
    have hlt := toInt_neg hn
    have hnone : ('-' :: Nat.toDigits 10 n.toInt.natAbs).any (fun c => c = '.' || c = 'e') = false := by
      rw [List.any_cons, any_toDigits]
      decide
    simp only [if_pos hn, hnone, Bool.false_eq_true, if_false, readNat_toDigits, Option.map_some]
    have habs : -(n.toInt.natAbs : ℤ) = n.toInt := by omega
    rw [habs, Int64.ofInt_toInt]

theorem isNumberChar_of_isDigit {c : Char} (h : c.isDigit = true) : isNumberChar c = true := by
  simp [isNumberChar, h]

/-- A number starts with a digit or a minus, and is spelled in number characters. -/
theorem numberText_chars (ft : FloatText) {n : Number} (h : Sendable ft (.number n)) :
    (∃ c cs, numberText ft n = c :: cs ∧ (c.isDigit || c = '-') = true) ∧
      ∀ c ∈ numberText ft n, isNumberChar c = true := by
  unfold numberText
  cases n with
  | float x =>
    have hx : ft.Double x := by simpa [Sendable] using h
    exact ⟨ft.starts x hx, ft.chars x hx⟩
  | posInt n =>
    dsimp only
    refine ⟨?_, fun c hc => isNumberChar_of_isDigit (isDigit_toDigits hc)⟩
    cases hd : Nat.toDigits 10 n.toNat with
    | nil =>
      have hpos := Nat.length_toDigits_pos (b := 10) (n := n.toNat)
      rw [hd] at hpos
      exact absurd hpos (by decide)
    | cons c cs =>
      refine ⟨c, cs, rfl, ?_⟩
      rw [isDigit_toDigits (n := n.toNat) (c := c) (by simp [hd])]
      rfl
  | negInt n =>
    have hn : n < 0 := by simpa [Sendable] using h
    dsimp only
    rw [if_pos hn]
    refine ⟨⟨'-', _, rfl, by decide⟩, fun c hc => ?_⟩
    rcases List.mem_cons.mp hc with rfl | hc
    · decide
    · exact isNumberChar_of_isDigit (isDigit_toDigits hc)

/-! ### Values read back -/

theorem lexValue_string (ft : FloatText) (fuel : ℕ) (s : String) (rest : List Char) :
    lexValue ft (fuel + 1) (valueToCypherLiteral ft (.string s) ++ rest) = some (.string s, rest) := by
  rw [valueToCypherLiteral, List.cons_append, List.append_assoc, lexValue, if_pos rfl, List.singleton_append,
    Quoted.read_escape (by decide)]
  simp

theorem lexValue_number (ft : FloatText) (fuel : ℕ) {n : Number} (h : Sendable ft (.number n)) {rest : List Char}
    (hrest : Ends rest) :
    lexValue ft (fuel + 1) (valueToCypherLiteral ft (.number n) ++ rest) = some (.number n, rest) := by
  obtain ⟨⟨c, cs, hcs, hstart⟩, hchars⟩ := numberText_chars ft h
  obtain ⟨d, ds, rfl, hd, -⟩ := hrest
  obtain ⟨htake, hdrop⟩ := takeWhile_ends hchars ⟨d, ds, rfl, hd⟩
  have hc : c ≠ quoteMark ∧ c ≠ '[' := by
    constructor <;> rintro rfl <;> exact absurd hstart (by decide)
  rw [valueToCypherLiteral, hcs, List.cons_append, lexValue, if_neg hc.1, if_neg hc.2, if_pos hstart,
    ← List.cons_append, ← hcs, htake, hdrop, readNumber_numberText ft h]
  rfl

/-- A word of letters reads as the value it names. -/
theorem lexValue_word (ft : FloatText) (fuel : ℕ) {word : List Char} {v : Value} (hword : readWord word = some v)
    (hne : word ≠ []) (hchars : ∀ c ∈ word, isIdentifierChar c = true ∧ (c.isDigit || c = '-') = false ∧
      c ≠ quoteMark ∧ c ≠ '[') {rest : List Char} (hrest : Ends rest) :
    lexValue ft (fuel + 1) (word ++ rest) = some (v, rest) := by
  obtain ⟨d, ds, rfl, -, hd⟩ := hrest
  obtain ⟨htake, hdrop⟩ := takeWhile_ends (fun c hc => (hchars c hc).1) ⟨d, ds, rfl, hd⟩
  cases word with
  | nil => exact absurd rfl hne
  | cons c cs =>
    obtain ⟨-, hnumber, hquote, hbracket⟩ := hchars c List.mem_cons_self
    rw [List.cons_append, lexValue, if_neg hquote, if_neg hbracket, if_neg (by rw [hnumber]; decide),
      ← List.cons_append, htake, hdrop, hword]
    rfl

/-- A literal is not empty, and does not start with the bracket that ends an array. -/
theorem literal_head (ft : FloatText) {v : Value} (h : Sendable ft v) :
    ∃ c cs, valueToCypherLiteral ft v = c :: cs ∧ c ≠ ']' := by
  cases v with
  | null => exact ⟨'n', "ull".toList, rfl, by decide⟩
  | bool b =>
    cases b with
    | true => exact ⟨'t', "rue".toList, rfl, by decide⟩
    | false => exact ⟨'f', "alse".toList, rfl, by decide⟩
  | number n =>
    obtain ⟨⟨c, cs, hcs, hstart⟩, -⟩ := numberText_chars ft h
    refine ⟨c, cs, hcs, ?_⟩
    rintro rfl
    exact absurd hstart (by decide)
  | string s => exact ⟨quoteMark, _, by rw [valueToCypherLiteral], by decide⟩
  | array xs => exact ⟨'[', _, by rw [valueToCypherLiteral], by decide⟩
  | object o => exact absurd h (by simp [Sendable])

theorem ends_comma (cs : List Char) : Ends (',' :: cs) := ⟨',', cs, rfl, by decide, by decide⟩

theorem ends_bracket (cs : List Char) : Ends (']' :: cs) := ⟨']', cs, rfl, by decide, by decide⟩

theorem ends_space (cs : List Char) : Ends (' ' :: cs) := ⟨' ', cs, rfl, by decide, by decide⟩

mutual

/-- Reading a literal gives the value it was written for, and what follows it. -/
theorem lexValue_literal (ft : FloatText) : ∀ (v : Value), Sendable ft v → ∀ fuel, need v ≤ fuel → ∀ rest, Ends rest →
    lexValue ft fuel (valueToCypherLiteral ft v ++ rest) = some (v, rest)
  | v, h, 0, hfuel, rest, hrest => by
    exfalso
    cases v <;> simp [need] at hfuel
  | .null, _, fuel + 1, _, rest, hrest => by
    rw [valueToCypherLiteral]
    exact lexValue_word ft fuel rfl (by decide) (Digits.forall_mem_of_all (by decide)) hrest
  | .bool true, _, fuel + 1, _, rest, hrest => by
    rw [valueToCypherLiteral]
    exact lexValue_word ft fuel rfl (by decide) (Digits.forall_mem_of_all (by decide)) hrest
  | .bool false, _, fuel + 1, _, rest, hrest => by
    rw [valueToCypherLiteral]
    exact lexValue_word ft fuel rfl (by decide) (Digits.forall_mem_of_all (by decide)) hrest
  | .number n, h, fuel + 1, _, rest, hrest => lexValue_number ft fuel h hrest
  | .string s, _, fuel + 1, _, rest, _ => lexValue_string ft fuel s rest
  | .array [], _, fuel + 1, _, rest, _ => by
    rw [valueToCypherLiteral, joinedLiterals, List.nil_append, List.cons_append, lexValue,
      if_neg (by decide), if_pos rfl]
    rfl
  | .array (x :: xs), h, fuel + 1, hfuel, rest, _ => by
    have hxs : AllSendable ft (x :: xs) := by simpa [Sendable] using h
    have hneed : needItems (x :: xs) ≤ fuel := by
      simp only [need] at hfuel
      omega
    have hitems := lexItems_literals ft (x :: xs) (by simp) hxs fuel hneed rest
    obtain ⟨c, cs, hc, hbracket⟩ := literal_head ft hxs.1
    have hhead : (joinedLiterals ft (x :: xs) ++ ']' :: rest).head? = some c := by
      cases xs with
      | nil => simp [joinedLiterals, hc]
      | cons y ys => simp [joinedLiterals, hc]
    rw [valueToCypherLiteral, List.cons_append, List.append_assoc, List.singleton_append, lexValue,
      if_neg (by decide), if_pos rfl, hhead, if_neg (by simpa using hbracket), hitems]
    rfl
  | .object o, h, _ + 1, _, _, _ => by simp [Sendable] at h

theorem lexItems_literals (ft : FloatText) : ∀ (xs : List Value), xs ≠ [] → AllSendable ft xs → ∀ fuel,
    needItems xs ≤ fuel → ∀ rest, lexItems ft fuel (joinedLiterals ft xs ++ ']' :: rest) = some (xs, rest)
  | [], hne, _, _, _, _ => absurd rfl hne
  | x :: xs, _, _, 0, hfuel, _ => by simp [needItems] at hfuel
  | [x], _, h, fuel + 1, hfuel, rest => by
    have hneed : need x ≤ fuel := by
      simp only [needItems] at hfuel
      omega
    rw [joinedLiterals, lexItems, lexValue_literal ft x h.1 fuel hneed _ (ends_bracket rest)]
    rfl
  | x :: y :: ys, _, h, fuel + 1, hfuel, rest => by
    have hneed : need x ≤ fuel ∧ needItems (y :: ys) ≤ fuel := by
      rw [needItems] at hfuel
      omega
    have hitems := lexItems_literals ft (y :: ys) (by simp) h.2 fuel hneed.2 rest
    rw [joinedLiterals, List.append_assoc, List.cons_append, List.cons_append, lexItems,
      lexValue_literal ft x h.1 fuel hneed.1 _ (ends_comma _)]
    simp [hitems]

end

/-! ### The lexer is let in deep enough -/

mutual

theorem need_le_length (ft : FloatText) : ∀ (v : Value), Sendable ft v → need v ≤ (valueToCypherLiteral ft v).length
  | .null, h | .bool _, h | .number _, h | .string _, h => by
    obtain ⟨c, cs, hc, -⟩ := literal_head ft h
    rw [hc, List.length_cons]
    simp [need]
  | .array xs, h => by
    have hxs : AllSendable ft xs := by simpa [Sendable] using h
    have hitems := needItems_le_length ft xs hxs
    rw [valueToCypherLiteral, need, List.length_cons, List.length_append, List.length_singleton]
    omega
  | .object o, h => by simp [Sendable] at h

theorem needItems_le_length (ft : FloatText) : ∀ (xs : List Value), AllSendable ft xs →
    needItems xs ≤ (joinedLiterals ft xs).length + 1
  | [], _ => by simp [needItems]
  | [x], h => by
    have hx := need_le_length ft x h.1
    simp only [needItems, joinedLiterals]
    omega
  | x :: y :: ys, h => by
    have hx := need_le_length ft x h.1
    have hys := needItems_le_length ft (y :: ys) h.2
    rw [needItems, joinedLiterals, List.length_append, List.length_cons, List.length_cons]
    omega

end

/-! ### Bindings read back -/

/-- A name as the statements write theirs. -/
def IsIdentifier (k : String) : Prop := k.toList ≠ [] ∧ ∀ c ∈ k.toList, isIdentifierChar c = true

theorem bindingName_binding {k : String} (hk : IsIdentifier k) (rest : List Char) :
    bindingName (k.toList ++ '=' :: rest) = some (k, rest) := by
  have hend : ∃ c cs, '=' :: rest = c :: cs ∧ isIdentifierChar c = false := ⟨'=', rest, rfl, by decide⟩
  obtain ⟨htake, hdrop⟩ := takeWhile_ends hk.2 hend
  unfold bindingName
  rw [hdrop, htake]
  simp [hk.1]

theorem lexBinding_binding (ft : FloatText) {k : String} {v : Value} (hk : IsIdentifier k) (hv : Sendable ft v)
    (rest : List Char) :
    lexBinding ft (k.toList ++ '=' :: (valueToCypherLiteral ft v ++ ' ' :: rest)) = some ((k, v), rest) := by
  have hneed : need v ≤ (k.toList ++ '=' :: (valueToCypherLiteral ft v ++ ' ' :: rest)).length := by
    have hlength := need_le_length ft v hv
    simp only [List.length_append, List.length_cons]
    omega
  unfold lexBinding
  rw [bindingName_binding hk]
  dsimp only
  rw [lexValue_literal ft v hv _ hneed _ (ends_space rest)]
  rfl

theorem bindingsText_cons (ft : FloatText) (k : String) (v : Value) (params : List (String × Value))
    (rest : List Char) : bindingsText ft ((k, v) :: params) ++ rest =
      k.toList ++ '=' :: (valueToCypherLiteral ft v ++ ' ' :: (bindingsText ft params ++ rest)) := by
  simp [bindingsText]

/-- Reading as many bindings as were sent gives them, and the statement whatever it is. -/
theorem lexBindings_bindingsText (ft : FloatText) {params : List (String × Value)}
    (hnames : ∀ b ∈ params, IsIdentifier b.1) (hvalues : ∀ b ∈ params, Sendable ft b.2) (cypher : List Char) :
    lexBindings ft params.length (bindingsText ft params ++ cypher) = some (params, cypher) := by
  induction params with
  | nil => rfl
  | cons b params ih =>
    obtain ⟨k, v⟩ := b
    obtain ⟨hk, hnames⟩ := List.forall_mem_cons.mp hnames
    obtain ⟨hv, hvalues⟩ := List.forall_mem_cons.mp hvalues
    rw [bindingsText_cons, List.length_cons, lexBindings, lexBinding_binding ft hk hv]
    dsimp only
    rw [ih hnames hvalues]
    rfl

/-- Reading bindings as long as there are any stops at a statement that does not start with one. -/
theorem lexParams_bindingsText (ft : FloatText) {params : List (String × Value)}
    (hnames : ∀ b ∈ params, IsIdentifier b.1) (hvalues : ∀ b ∈ params, Sendable ft b.2) {cypher : List Char}
    (hcypher : bindingName cypher = none) :
    ∀ fuel, params.length < fuel → lexParams ft fuel (bindingsText ft params ++ cypher) = some (params, cypher) := by
  induction params with
  | nil =>
    intro fuel hfuel
    obtain ⟨fuel, rfl⟩ := Nat.exists_eq_succ_of_ne_zero (Nat.ne_of_gt hfuel)
    rw [lexParams]
    exact if_pos (by rw [show bindingsText ft [] ++ cypher = cypher from rfl, hcypher]; rfl)
  | cons b params ih =>
    intro fuel hfuel
    obtain ⟨k, v⟩ := b
    obtain ⟨hk, hnames⟩ := List.forall_mem_cons.mp hnames
    obtain ⟨hv, hvalues⟩ := List.forall_mem_cons.mp hvalues
    rw [List.length_cons] at hfuel
    obtain ⟨fuel, rfl⟩ := Nat.exists_eq_succ_of_ne_zero (Nat.ne_of_gt (Nat.zero_lt_of_lt hfuel))
    rw [bindingsText_cons, lexParams, bindingName_binding hk, if_neg (by simp), lexBinding_binding ft hk hv]
    dsimp only
    rw [ih hnames hvalues fuel (by omega)]
    rfl

theorem length_le_bindingsText (ft : FloatText) (params : List (String × Value)) :
    params.length ≤ (bindingsText ft params).length := by
  induction params with
  | nil => exact Nat.zero_le _
  | cons b params ih =>
    obtain ⟨k, v⟩ := b
    have hcons := congrArg List.length (bindingsText_cons ft k v params [])
    simp only [List.append_nil, List.length_append, List.length_cons] at hcons
    rw [hcons, List.length_cons]
    omega

/-- A statement starts with a keyword: neither with a binding nor with the header of one. -/
def IsStatement (cypher : String) : Prop :=
  bindingName cypher.toList = none ∧ header.isPrefixOf cypher.toList = false

/-- No string ends its literal early: the text of a statement and its parameters reads back as exactly them.
Read by their number, the parameters come back before any statement; read as long as there are any, before
every statement that starts with a keyword. -/
theorem params_read_back (ft : FloatText) (params : List (String × Value)) (cypher : String)
    (hnames : ∀ b ∈ params, IsIdentifier b.1) (hvalues : ∀ b ∈ params, Sendable ft b.2) :
    (params ≠ [] → lexBindings ft params.length ((cypherWithParams ft params cypher).toList.drop header.length) =
      some (params, cypher.toList)) ∧
    (IsStatement cypher → lexText ft (cypherWithParams ft params cypher) = some (params, cypher)) := by
  have htext : params ≠ [] → (cypherWithParams ft params cypher).toList =
      header ++ (bindingsText ft params ++ cypher.toList) := by
    intro hne
    rw [cypherWithParams, if_neg (by simpa using hne), String.toList_ofList, List.append_assoc]
    rfl
  constructor
  · intro hne
    rw [htext hne, List.drop_left]
    exact lexBindings_bindingsText ft hnames hvalues cypher.toList
  · rintro ⟨hbinding, hheader⟩
    by_cases hne : params = []
    · subst hne
      rw [show cypherWithParams ft [] cypher = cypher from rfl, lexText, if_neg (by rw [hheader]; decide)]
    · have hfuel : params.length < (cypherWithParams ft params cypher).length := by
        rw [← String.length_toList, htext hne, List.length_append, List.length_append]
        have hle := length_le_bindingsText ft params
        have hpos : 0 < header.length := by decide
        omega
      rw [lexText, if_pos (by rw [htext hne, List.isPrefixOf_iff_prefix]; exact List.prefix_append _ _), htext hne,
        List.drop_left, lexParams_bindingsText ft hnames hvalues hbinding _ hfuel]
      simp

/-- One half, as it is printed. -/
def halfText : FloatText where
  Double x := x = 1 / 2
  text _ := "0.5".toList
  read cs := if cs = "0.5".toList then some (1 / 2) else none
  read_text x hx := by rw [hx]; rfl
  marked x _ := by decide
  chars x _ := Digits.forall_mem_of_all (by decide)
  starts x _ := ⟨'0', ".5".toList, rfl, by decide⟩

def quotedParams : List (String × Value) :=
  [("src", .string "a\\' b=1 MATCH (n) DETACH DELETE n"), ("weight", .number (.float (1 / 2))),
    ("hashes", .array [.string "]'", .array [], .number (.negInt (-7)), .null])]

/-- A string full of quotes and of statements stays a string. -/
theorem params_read_back_quoted :
    lexText halfText (cypherWithParams halfText quotedParams "MATCH (a) RETURN a") =
      some (quotedParams, "MATCH (a) RETURN a") := by
  have hnames : ∀ b ∈ quotedParams, IsIdentifier b.1 := by
    refine List.forall_mem_cons.mpr ⟨?_, List.forall_mem_cons.mpr ⟨?_, List.forall_mem_singleton.mpr ?_⟩⟩
    all_goals exact ⟨by decide, Digits.forall_mem_of_all (by decide)⟩
  have hvalues : ∀ b ∈ quotedParams, Sendable halfText b.2 := by
    refine List.forall_mem_cons.mpr ⟨?_, List.forall_mem_cons.mpr ⟨?_, List.forall_mem_singleton.mpr ?_⟩⟩
    · simp [Sendable]
    · simp [Sendable, halfText]
    · simp only [Sendable, AllSendable, and_true, true_and]
      decide
  exact (params_read_back halfText quotedParams "MATCH (a) RETURN a" hnames hvalues).2 ⟨by decide, by decide⟩

end Params

end Alaya
