import Alaya.Lib.Json

/-!
# Citations

The check behind the store field, a caller's own `metadata.citations` and PATCH: an array of at most
`maxCitations` strings, each a `<owner>/<repo>@<sha>:<path>[:<line>[-<line>]]` reference or an
`https://` URL.  The parsers work on the characters of a string.
-/

namespace Alaya

open Json

def citationsKey : String := "citations"

def maxCitations : ℕ := 10

def maxCitationLen : ℕ := 500

/-! ### Characters and pieces of a string -/

/-- Unicode `White_Space`. -/
def isWhitespace (c : Char) : Bool :=
  let n := c.toNat
  (0x09 ≤ n ∧ n ≤ 0x0D) || n = 0x20 || n = 0x85 || n = 0xA0 || n = 0x1680 ||
    (0x2000 ≤ n ∧ n ≤ 0x200A) || n = 0x2028 || n = 0x2029 || n = 0x202F || n = 0x205F || n = 0x3000

/-- Unicode category `Cc`. -/
def isControl (c : Char) : Bool :=
  let n := c.toNat
  n ≤ 0x1F || (0x7F ≤ n ∧ n ≤ 0x9F)

/-- Without the whitespace at both ends. -/
def trim (s : String) : String :=
  String.ofList ((s.toList.dropWhile isWhitespace).reverse.dropWhile isWhitespace).reverse

def isAsciiDigit (c : Char) : Bool := '0' ≤ c ∧ c ≤ '9'

def isAsciiUppercase (c : Char) : Bool := 'A' ≤ c ∧ c ≤ 'Z'

def isAsciiLowercase (c : Char) : Bool := 'a' ≤ c ∧ c ≤ 'z'

def isAsciiAlphanumeric (c : Char) : Bool :=
  isAsciiDigit c || isAsciiUppercase c || isAsciiLowercase c

def isAsciiHexdigit (c : Char) : Bool :=
  isAsciiDigit c || ('a' ≤ c ∧ c ≤ 'f') || ('A' ≤ c ∧ c ≤ 'F')

/-- The length in bytes of the UTF-8 encoding. -/
def utf8Len (cs : List Char) : ℕ := (cs.map fun c => c.utf8Size).sum

/-- Split at the first occurrence of `sep`. -/
def splitOnce (sep : Char) : List Char → Option (List Char × List Char)
  | [] => none
  | c :: cs =>
    if c = sep then some ([], cs)
    else (splitOnce sep cs).map fun (before, after) => (c :: before, after)

/-- Split at the last occurrence of `sep`. -/
def rsplitOnce (sep : Char) (cs : List Char) : Option (List Char × List Char) :=
  (splitOnce sep cs.reverse).map fun (after, before) => (before.reverse, after.reverse)

def stripPrefix : List Char → List Char → Option (List Char)
  | [], cs => some cs
  | _ :: _, [] => none
  | p :: ps, c :: cs => if p = c then stripPrefix ps cs else none

/-- The value of a string of ASCII digits, when it fits a `u64`. -/
def parseU64 (cs : List Char) : Option ℕ :=
  if cs ≠ [] ∧ cs.all isAsciiDigit then
    let n := cs.foldl (fun n c => 10 * n + (c.toNat - '0'.toNat)) 0
    if n < 2 ^ 64 then some n else none
  else none

/-! ### The two forms of a citation -/

/-- No whitespace or control characters: a citation is one token. -/
def isToken (cs : List Char) : Bool :=
  cs ≠ [] && !cs.any fun c => isWhitespace c || isControl c

/-- `https://` with a host: the authority up to the first `/`, `?` or `#`. -/
def isUrlCitation (cs : List Char) : Bool :=
  match stripPrefix "https://".toList cs with
  | none => false
  | some rest =>
    let host := rest.takeWhile fun c => !(c = '/' || c = '?' || c = '#')
    isToken rest && host ≠ [] && host.all fun c =>
      isAsciiAlphanumeric c || c = '-' || c = '.' || c = ':' || c = '[' || c = ']'

def isLine (cs : List Char) : Bool :=
  cs ≠ [] && cs.all isAsciiDigit && match parseU64 cs with
    | some v => 1 ≤ v
    | none => false

/-- `<line>` or `<line>-<line>`, lines from 1, the span not reversed. -/
def isLineSpan (cs : List Char) : Bool :=
  match splitOnce '-' cs with
  | none => isLine cs
  | some (a, b) => isLine a && isLine b && match parseU64 a, parseU64 b with
    | none, _ => true
    | some _, none => false
    | some m, some n => m ≤ n

def isIdent (cs : List Char) : Bool :=
  cs ≠ [] && cs.all fun c => isAsciiAlphanumeric c || c = '-' || c = '_' || c = '.'

/-- What follows the sha: a path, and a line span when the last `:` starts digits and dashes. -/
def isLocated (located : List Char) : Bool :=
  match rsplitOnce ':' located with
  | some (path, span) =>
    if span.all fun c => isAsciiDigit c || c = '-' then isLineSpan span && isToken path
    else isToken located
  | none => isToken located

/-- `<owner>/<repo>@<sha>:<path>[:<line>[-<line>]]`. -/
def isRepoCitation (cs : List Char) : Bool :=
  match splitOnce '@' cs with
  | none => false
  | some (repo, rest) =>
    match splitOnce '/' repo with
    | none => false
    | some (owner, name) =>
      isIdent owner && isIdent name && match splitOnce ':' rest with
        | none => false
        | some (sha, located) =>
          (7 ≤ utf8Len sha && utf8Len sha ≤ 40) && sha.all isAsciiHexdigit && isLocated located

/-! ### The check -/

def validateCitation (i : ℕ) (item : Value) : Except String Unit :=
  let at_ := "citations[" ++ toString i ++ "]"
  match item.asStr with
  | none => .error (at_ ++ ": must be a string")
  | some c =>
    if maxCitationLen < c.length then
      .error (at_ ++ ": max " ++ toString maxCitationLen ++ " chars")
    else if !isUrlCitation c.toList && !isRepoCitation c.toList then
      .error (at_ ++ ": expected <owner>/<repo>@<sha>:<path>[:<line>[-<line>]] " ++
        "with a 7-40 char hex sha, or an https:// URL")
    else .ok ()

def validateItems : ℕ → List Value → Except String Unit
  | _, [] => .ok ()
  | i, item :: items => do
    validateCitation i item
    validateItems (i + 1) items

def validateCitations (value : Value) : Except String Unit :=
  match value.asArray with
  | none => .error "citations: must be an array of strings"
  | some items =>
    if maxCitations < items.length then
      .error ("citations: max " ++ toString maxCitations ++ ", got " ++ toString items.length)
    else validateItems 0 items

/-- `metadata.citations` when present.  A PATCH null deletes the key, so null passes there. -/
def validateMetadataCitations (metadata : Object) (nullDeletes : Bool) : Except String Unit :=
  match metadata.get citationsKey with
  | none => .ok ()
  | some v => if v.isNull && nullDeletes then .ok () else validateCitations v

end Alaya
