import Alaya.Lib.Json
import Alaya.Types.Double
import Alaya.Types.Memory

/-!
# Replies of the graph

A cell of a compact reply is a type tag and a value whose shape depends on the type: a scalar may come as a
typed value of the protocol or as the bytes of its text.  The decoder reads the six types the statements
ask for, and anything else as an untyped value.
-/

namespace Alaya

open Json

/-- A value of the wire protocol; those no reply cell uses are one constructor. -/
inductive Resp where
  | nil
  | int (i : Int64)
  | bulkString (bytes : ByteArray)
  | array (xs : List Resp)
  | simpleString (s : String)
  | verbatimString (text : String)
  /-- A double; one that is not finite is `none`. -/
  | double (x : Option ℚ)
  | boolean (b : Bool)
  | other

/-- Why a cell cannot be read. -/
inductive CellError where
  | nonUtf8
  | nonString
  | notADouble
  | nonFinite
  | unsupported
  deriving DecidableEq

namespace Reply

/-- The JSON number of an `i64`. -/
def ofI64 (i : Int64) : Value :=
  if i < 0 then .number (.negInt i) else .number (.posInt (UInt64.ofNat i.toInt.toNat))

/-- Without the quotes around it, where there are two. -/
def stripQuotes (s : String) : String :=
  match s.toList with
  | '"' :: cs => if cs.getLast? = some '"' then String.ofList cs.dropLast else s
  | _ => s

/-- A string or the bytes of one, without quotes around it. -/
def bulkStringToString : Resp → Option String
  | .bulkString bytes => (String.fromUTF8? bytes).map stripQuotes
  | .simpleString s => some (stripQuotes s)
  | _ => none

/-- A value without a type tag: bytes that read as a double are one. -/
def bareValueToJson : Resp → Except CellError Value
  | .nil => .ok .null
  | .int i => .ok (ofI64 i)
  | .boolean b => .ok (.bool b)
  | .double (some x) => .ok (.number (.float x))
  | .double none => .error .nonFinite
  | .bulkString bytes =>
    match String.fromUTF8? bytes with
    | none => .error .nonUtf8
    | some s =>
      match parseFinite (stripQuotes s) with
      | some x => .ok (.number (.float x))
      | none => .ok (.string (stripQuotes s))
  | .simpleString s => .ok (.string s)
  | .verbatimString text => .ok (.string text)
  | .array _ | .other => .error .unsupported

/-- A boolean cell, typed or as text. -/
def booleanToJson : Resp → Except CellError Value
  | .boolean b => .ok (.bool b)
  | .bulkString bytes =>
    match String.fromUTF8? bytes with
    | none => .error .nonUtf8
    | some s => .ok (.bool (s = "true"))
  | inner => bareValueToJson inner

/-- A double cell, typed or as text. -/
def doubleToJson : Resp → Except CellError Value
  | .double (some x) => .ok (.number (.float x))
  | .double none => .error .nonFinite
  | .bulkString bytes =>
    match String.fromUTF8? bytes with
    | none => .error .nonUtf8
    | some s =>
      match parseDouble s with
      | some (.finite x) => .ok (.number (.float x))
      | some _ => .error .nonFinite
      | none => .error .notADouble
  | inner => bareValueToJson inner

mutual

/-- A cell: tagged where it looks like a tag and a value, untyped otherwise. -/
def respCellToJson : Resp → Except CellError Value
  | .array [.int tag, inner] => compactCellToJson tag inner
  | v => bareValueToJson v

/-- A tagged cell; a tag that is none of the six is not looked at. -/
def compactCellToJson (tag : Int64) (inner : Resp) : Except CellError Value :=
  if tag = 1 then .ok .null
  else if tag = 2 then
    match bulkStringToString inner with
    | some s => .ok (.string s)
    | none => .error .nonString
  else if tag = 3 then bareValueToJson inner
  else if tag = 4 then booleanToJson inner
  else if tag = 5 then doubleToJson inner
  else if tag = 6 then
    match inner with
    | .array xs => (cellsToJson xs).map .array
    | inner => bareValueToJson inner
  else bareValueToJson inner

def cellsToJson : List Resp → Except CellError (List Value)
  | [] => .ok []
  | x :: xs =>
    match respCellToJson x with
    | .error e => .error e
    | .ok v => (cellsToJson xs).map (v :: ·)

end

/-! ### What a cell stands for -/

/-- A typed value of the graph. -/
inductive GraphValue where
  | null
  | string (s : String)
  | integer (i : Int64)
  | boolean (b : Bool)
  | double (x : ℚ)
  | array (xs : List GraphValue)

mutual

/-- The JSON value of a graph value. -/
def denote : GraphValue → Value
  | .null => .null
  | .string s => .string s
  | .integer i => ofI64 i
  | .boolean b => .bool b
  | .double x => .number (.float x)
  | .array xs => .array (denoteAll xs)

def denoteAll : List GraphValue → List Value
  | [] => []
  | x :: xs => denote x :: denoteAll xs

end

/-- The text a string is sent as: in double quotes, or bare. -/
def sentAs (wrap : Bool) (s : String) : String := if wrap then "\"" ++ s ++ "\"" else s

mutual

/-- The tag and the value of a cell, in any shape its type comes in. -/
inductive Encodes (wrap : Bool) : GraphValue → Int64 → Resp → Prop
  | null : Encodes wrap .null 1 .nil
  | stringBytes (s : String) : Encodes wrap (.string s) 2 (.bulkString (sentAs wrap s).toUTF8)
  | stringSimple (s : String) : Encodes wrap (.string s) 2 (.simpleString (sentAs wrap s))
  | integer (i : Int64) : Encodes wrap (.integer i) 3 (.int i)
  | booleanTyped (b : Bool) : Encodes wrap (.boolean b) 4 (.boolean b)
  | booleanText (b : Bool) : Encodes wrap (.boolean b) 4 (.bulkString (if b then "true" else "false").toUTF8)
  | doubleTyped (x : ℚ) : Encodes wrap (.double x) 5 (.double (some x))
  | doubleText (x : ℚ) (text : String) (h : parseFinite text = some x) :
      Encodes wrap (.double x) 5 (.bulkString text.toUTF8)
  | array {xs : List GraphValue} {cells : List Resp} (h : EncodesAll wrap xs cells) :
      Encodes wrap (.array xs) 6 (.array cells)

inductive EncodesAll (wrap : Bool) : List GraphValue → List Resp → Prop
  | nil : EncodesAll wrap [] []
  | cons {x : GraphValue} {xs : List GraphValue} {tag : Int64} {inner : Resp} {cells : List Resp}
      (h : Encodes wrap x tag inner) (hs : EncodesAll wrap xs cells) :
      EncodesAll wrap (x :: xs) (.array [.int tag, inner] :: cells)

end

mutual

/-- No string of the tree both begins and ends with a quote of its own. -/
def Unquoted : GraphValue → Prop
  | .string s => ∀ t, s ≠ "\"" ++ t ++ "\""
  | .array xs => AllUnquoted xs
  | _ => True

def AllUnquoted : List GraphValue → Prop
  | [] => True
  | x :: xs => Unquoted x ∧ AllUnquoted xs

end

/-! ### What is decoded -/

theorem fromUTF8?_toUTF8 (s : String) : String.fromUTF8? s.toUTF8 = some s := by
  unfold String.fromUTF8?
  rw [String.toUTF8_eq_toByteArray, dif_pos s.isValidUTF8]
  rfl

theorem stripQuotes_wrapped (s : String) : stripQuotes ("\"" ++ s ++ "\"") = s := by
  have hlist : ("\"" ++ s ++ "\"").toList = '"' :: (s.toList ++ ['"']) := by simp
  unfold stripQuotes
  rw [hlist]
  simp

theorem stripQuotes_bare {s : String} (h : ∀ t, s ≠ "\"" ++ t ++ "\"") : stripQuotes s = s := by
  unfold stripQuotes
  split
  · rename_i cs hcs
    split
    · rename_i hlast
      refine absurd ?_ (h (String.ofList cs.dropLast))
      rw [← String.toList_inj, hcs]
      have hcat := List.dropLast_append_getLast? '"' hlast
      simp [hcat]
    · rfl
  · rfl

theorem compactCellToJson_string (inner : Resp) : compactCellToJson 2 inner =
    match bulkStringToString inner with
    | some s => .ok (.string s)
    | none => .error .nonString := by
  cases inner <;> rfl

theorem compactCellToJson_boolean (inner : Resp) : compactCellToJson 4 inner = booleanToJson inner := by
  cases inner <;> rfl

theorem compactCellToJson_double (inner : Resp) : compactCellToJson 5 inner = doubleToJson inner := by
  cases inner <;> rfl

/-- A string comes back unchanged where it was sent in quotes, or has none around it. -/
theorem stripQuotes_sentAs {wrap : Bool} {s : String} (h : wrap = true ∨ Unquoted (.string s)) :
    stripQuotes (sentAs wrap s) = s := by
  cases wrap with
  | true => exact stripQuotes_wrapped s
  | false =>
    rcases h with h | h
    · cases h
    · exact stripQuotes_bare (s := s) (by simpa [Unquoted] using h)

mutual

theorem compactCellToJson_encodes {wrap : Bool} : ∀ {t : GraphValue} {tag : Int64} {inner : Resp},
    Encodes wrap t tag inner → (wrap = true ∨ Unquoted t) → compactCellToJson tag inner = .ok (denote t)
  | _, _, _, .null, _ => rfl
  | _, _, _, .stringBytes s, h => by
    rw [compactCellToJson_string, bulkStringToString, fromUTF8?_toUTF8, Option.map_some, stripQuotes_sentAs h]
    rfl
  | _, _, _, .stringSimple s, h => by
    rw [compactCellToJson_string, bulkStringToString, stripQuotes_sentAs h]
    rfl
  | _, _, _, .integer i, _ => rfl
  | _, _, _, .booleanTyped b, _ => rfl
  | _, _, _, .booleanText b, _ => by
    rw [compactCellToJson_boolean, booleanToJson, fromUTF8?_toUTF8]
    cases b <;> rfl
  | _, _, _, .doubleTyped x, _ => rfl
  | _, _, _, .doubleText x text hx, _ => by
    rw [compactCellToJson_double, doubleToJson, fromUTF8?_toUTF8]
    dsimp only
    rw [parseDouble_eq_finite_iff.mpr hx]
    rfl
  | _, _, _, @Encodes.array _ xs cells hall, h => by
    have hcells := cellsToJson_encodes hall (h.imp_right fun hu => by simpa [Unquoted] using hu)
    rw [compactCellToJson, if_neg (by decide), if_neg (by decide), if_neg (by decide), if_neg (by decide),
      if_neg (by decide), if_pos rfl, hcells]
    rfl

theorem cellsToJson_encodes {wrap : Bool} : ∀ {xs : List GraphValue} {cells : List Resp},
    EncodesAll wrap xs cells → (wrap = true ∨ AllUnquoted xs) → cellsToJson cells = .ok (denoteAll xs)
  | _, _, .nil, _ => rfl
  | _, _, .cons hx hs, h => by
    have hcell := compactCellToJson_encodes hx (h.imp_right And.left)
    have hcells := cellsToJson_encodes hs (h.imp_right And.right)
    rw [cellsToJson, respCellToJson, hcell]
    dsimp only
    rw [hcells]
    rfl

end

/-- The tags the decoder reads by type. -/
def knownTags : List Int64 := [1, 2, 3, 4, 5, 6]

/-- A cell under any other tag is read as an untyped value. -/
theorem compactCellToJson_unknown {tag : Int64} (h : tag ∉ knownTags) (inner : Resp) :
    compactCellToJson tag inner = bareValueToJson inner := by
  simp only [knownTags, List.mem_cons, List.not_mem_nil, or_false, not_or] at h
  obtain ⟨h1, h2, h3, h4, h5, h6⟩ := h
  unfold compactCellToJson
  rw [if_neg h1, if_neg h2, if_neg h3, if_neg h4, if_neg h5, if_neg h6]

/-- A cell of a tag the decoder knows denotes its tree exactly, whether strings are sent in quotes or, bare,
have none around them; under a tag it does not know, an edge, a node or anything else sent as an array is
reported, and a scalar is read as an untyped one. -/
theorem reply_decoded (wrap : Bool) :
    (∀ t tag inner, Encodes wrap t tag inner → (wrap = true ∨ Unquoted t) →
      compactCellToJson tag inner = .ok (denote t)) ∧
    ∀ tag inner, tag ∉ knownTags → compactCellToJson tag inner = bareValueToJson inner ∧
      ∀ xs, inner = .array xs → compactCellToJson tag inner = .error .unsupported := by
  refine ⟨fun t tag inner h hu => compactCellToJson_encodes h hu, fun tag inner h => ?_⟩
  refine ⟨compactCellToJson_unknown h inner, ?_⟩
  rintro xs rfl
  rw [compactCellToJson_unknown h]
  rfl

/-- A quote, an empty text and a number's text stay strings in an array of them. -/
theorem reply_decoded_strings :
    compactCellToJson 6 (.array [.array [.int 2, .bulkString (sentAs true "\"a\"").toUTF8],
      .array [.int 2, .bulkString (sentAs true "").toUTF8],
      .array [.int 2, .bulkString (sentAs true "42").toUTF8]]) =
      .ok (.array [.string "\"a\"", .string "", .string "42"]) ∧
    compactCellToJson 8 (.array []) = .error .unsupported :=
  ⟨(reply_decoded true).1 (.array [.string "\"a\"", .string "", .string "42"]) 6 _
      (.array (.cons (.stringBytes _) (.cons (.stringBytes _) (.cons (.stringBytes _) .nil)))) (.inl rfl),
    ((reply_decoded true).2 8 (.array []) (by decide)).2 [] rfl⟩

/-- A scalar under an unknown tag is not reported, and a string sent bare loses quotes of its own. -/
theorem reply_misread :
    ((13 : Int64) ∉ knownTags ∧ compactCellToJson 13 (.int 5) = .ok (.number (.posInt 5))) ∧
    Encodes false (.string "\"a\"") 2 (.bulkString "\"a\"".toUTF8) ∧
    compactCellToJson 2 (.bulkString "\"a\"".toUTF8) = .ok (.string "a") := by
  refine ⟨⟨by decide, rfl⟩, .stringBytes "\"a\"", ?_⟩
  rw [compactCellToJson_string, bulkStringToString, fromUTF8?_toUTF8, Option.map_some,
    show stripQuotes "\"a\"" = "a" from stripQuotes_wrapped "a"]

end Reply

end Alaya
