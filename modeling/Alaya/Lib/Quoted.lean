import Mathlib.Data.List.Basic

/-!
# Quoted texts

A text between two quotes, in which the quote and the escape mark are escaped.  It is written by replacing
one mark after the other, and read up to the first quote that is not escaped: the text comes back with
whatever followed it, so nothing in a text ends its own literal.
-/

namespace Quoted

variable {α : Type} [DecidableEq α]

/-- Every `a` of a text, replaced. -/
def replace (a : α) (by' : List α) (s : List α) : List α := s.flatMap fun c => if c = a then by' else [c]

/-- Escape a text: first the escape mark, then the quote. -/
def escape (mark quote : α) (s : List α) : List α := replace quote [mark, quote] (replace mark [mark, mark] s)

/-- One item as it is written. -/
def escapeItem (mark quote : α) (c : α) : List α := if c = mark ∨ c = quote then [mark, c] else [c]

/-- Read up to the quote that ends the literal; only the two escapes are known. -/
def read (mark quote : α) : List α → Option (List α × List α)
  | [] => none
  | [c] => if c = quote then some ([], []) else none
  | c :: d :: cs =>
    if c = quote then some ([], d :: cs)
    else if c = mark then
      if d = mark ∨ d = quote then (read mark quote cs).map fun (s, rest) => (d :: s, rest) else none
    else (read mark quote (d :: cs)).map fun (s, rest) => (c :: s, rest)

theorem read_quote (mark quote : α) (rest : List α) : read mark quote (quote :: rest) = some ([], rest) := by
  cases rest <;> simp [read]

theorem read_mark {mark quote : α} (h : mark ≠ quote) {c : α} (hc : c = mark ∨ c = quote) (cs : List α) :
    read mark quote (mark :: c :: cs) = (read mark quote cs).map fun (s, rest) => (c :: s, rest) := by
  rw [read, if_neg h, if_pos rfl, if_pos hc]

theorem read_other {mark quote c : α} (hmark : c ≠ mark) (hquote : c ≠ quote) {cs : List α} (hcs : cs ≠ []) :
    read mark quote (c :: cs) = (read mark quote cs).map fun (s, rest) => (c :: s, rest) := by
  cases cs with
  | nil => exact absurd rfl hcs
  | cons d cs => rw [read, if_neg hquote, if_neg hmark]

theorem replace_append (a : α) (by' s t : List α) : replace a by' (s ++ t) = replace a by' s ++ replace a by' t :=
  List.flatMap_append

/-- The two replacements escape each item on its own: no escape is escaped again. -/
theorem escape_eq_flatMap {mark quote : α} (h : mark ≠ quote) (s : List α) :
    escape mark quote s = s.flatMap (escapeItem mark quote) := by
  induction s with
  | nil => rfl
  | cons c s ih =>
    have hcons : ∀ (a : α) (by' : List α), replace a by' (c :: s) = replace a by' [c] ++ replace a by' s :=
      fun a by' => replace_append a by' [c] s
    rw [List.flatMap_cons, ← ih, escape, escape, hcons, replace_append]
    congr 1
    by_cases hmark : c = mark
    · subst hmark
      simp [replace, escapeItem, h]
    · by_cases hquote : c = quote
      · subst hquote
        simp [replace, escapeItem, hmark]
      · simp [replace, escapeItem, hmark, hquote]

/-- Reading a literal gives the text that was quoted and what follows the literal. -/
theorem read_escape {mark quote : α} (h : mark ≠ quote) (s rest : List α) :
    read mark quote (escape mark quote s ++ quote :: rest) = some (s, rest) := by
  rw [escape_eq_flatMap h]
  induction s with
  | nil => exact read_quote mark quote rest
  | cons c s ih =>
    rw [List.flatMap_cons, List.append_assoc]
    by_cases hspecial : c = mark ∨ c = quote
    · rw [escapeItem, if_pos hspecial, List.cons_append, List.cons_append, List.nil_append,
        read_mark h hspecial, ih]
      rfl
    · obtain ⟨hmark, hquote⟩ := not_or.mp hspecial
      rw [escapeItem, if_neg hspecial, List.cons_append, List.nil_append,
        read_other hmark hquote (by simp), ih]
      rfl

end Quoted
