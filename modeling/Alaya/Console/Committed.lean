import Alaya.Lib.Quoted
import Mathlib.Data.Rat.Defs

/-!
# The versions the console committed

An alert compares every version that is installed with those the console committed, which it exports as labels.  The
value of a series is when the console saw the commit, in epoch seconds.
-/

namespace Alaya.Console

/-- How many of each kind stay exported. -/
def keepCommitted : ℕ := 1024

/-- A restriction record the store wrote. -/
structure Committed.Record where
  name : String
  version : ℕ
  seenAt : ℤ
  deriving DecidableEq

/-- A document the store committed. -/
structure Committed.Document where
  version : ℕ
  digest : String
  seenAt : ℤ
  deriving DecidableEq

structure Committed where
  records : List Committed.Record
  documents : List Committed.Document
  deriving DecidableEq

namespace Committed

/-- Behind what is kept; the oldest falls off a full list. -/
def push {α : Type} (list : List α) (item : α) : List α :=
  (if list.length = keepCommitted then list.tail else list) ++ [item]

def record (c : Committed) (name : String) (version : ℕ) (now : ℤ) : Committed :=
  { c with records := push c.records ⟨name, version, now⟩ }

def document (c : Committed) (version : ℕ) (digest : String) (now : ℤ) : Committed :=
  { c with documents := push c.documents ⟨version, digest, now⟩ }

end Committed

/-- A label value in the text exposition format: backslash, quote and newline escaped. -/
def escapeLabel (v : String) : String :=
  String.ofList (Quoted.replace '\n' ['\\', 'n'] (Quoted.escape '\\' '"' v.toList))

def Committed.Record.line (r : Committed.Record) : String :=
  "ops_console_committed_record\x7bname=\"" ++ escapeLabel r.name ++ "\",version=\"" ++ toString r.version ++ "\"\x7d " ++
    toString r.seenAt ++ "\n"

def Committed.Document.line (d : Committed.Document) : String :=
  "ops_console_committed_document\x7bversion=\"" ++ toString d.version ++ "\",digest=\"" ++ escapeLabel d.digest ++
    "\"\x7d " ++ toString d.seenAt ++ "\n"

def Committed.recordComments : String :=
  "# HELP ops_console_committed_record A restriction record version the console committed; the value is when.\n" ++
    "# TYPE ops_console_committed_record gauge\n"

def Committed.documentComments : String :=
  "# HELP ops_console_committed_document A document version and digest the console committed; the value is when.\n" ++
    "# TYPE ops_console_committed_document gauge\n"

/-- The text exposition of everything still kept. -/
def Committed.render (c : Committed) : String :=
  recordComments ++ String.join (c.records.map Committed.Record.line) ++ documentComments ++
    String.join (c.documents.map Committed.Document.line)

/-! ### Escaping one character at a time -/

/-- A character of a label value, as it is written. -/
def escapeChar (c : Char) : List Char := if c = '\n' then ['\\', 'n'] else Quoted.escapeItem '\\' '"' c

/-- The three replacements escape each character on its own. -/
theorem toList_escapeLabel (v : String) : (escapeLabel v).toList = v.toList.flatMap escapeChar := by
  unfold escapeLabel
  rw [String.toList_ofList, Quoted.escape_eq_flatMap (by decide)]
  unfold Quoted.replace
  rw [List.flatMap_assoc]
  congr 1
  funext c
  unfold escapeChar Quoted.escapeItem
  by_cases hnewline : c = '\n'
  · rw [hnewline]
    decide
  · rw [if_neg hnewline]
    split
    · next hspecial => simp [List.flatMap_cons, hnewline]
    · simp [List.flatMap_cons, hnewline]

end Alaya.Console
