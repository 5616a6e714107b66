import Mathlib.Data.List.DropRight
import Mathlib.Data.List.Basic

/-!
# Trimmed lists

`trim p` drops what satisfies `p` at both ends of a list.  A list that is split at a separator the trimming does
not touch has the same trimmed pieces before and after it is trimmed itself (`map_trim_splitOn`).
-/

namespace Trim

variable {α : Type} {p : α → Bool}

def trim (p : α → Bool) (cs : List α) : List α := ((cs.dropWhile p).reverse.dropWhile p).reverse

theorem trim_eq (cs : List α) : trim p cs = (cs.dropWhile p).rdropWhile p := rfl

theorem trim_cons {c : α} (hc : p c = true) (cs : List α) : trim p (c :: cs) = trim p cs := by
  rw [trim_eq, List.dropWhile_cons_of_pos hc, ← trim_eq]

theorem trim_concat {c : α} (hc : p c = true) (cs : List α) : trim p (cs ++ [c]) = trim p cs := by
  rw [trim_eq, trim_eq, List.dropWhile_append, List.dropWhile_cons_of_pos hc, List.dropWhile_nil]
  split
  · next hempty => rw [List.isEmpty_iff.mp hempty]
  · exact List.rdropWhile_concat_pos p _ _ hc

theorem trim_dropWhile (cs : List α) : trim p (cs.dropWhile p) = trim p cs := by
  rw [trim_eq, List.dropWhile_idempotent, ← trim_eq]

theorem trim_rdropWhile (cs : List α) : trim p (cs.rdropWhile p) = trim p cs := by
  induction cs using List.reverseRecOn with
  | nil => rfl
  | append_singleton cs c ih =>
    by_cases hc : p c = true
    · rw [List.rdropWhile_concat_pos p _ _ hc, ih, trim_concat hc]
    · rw [List.rdropWhile_concat_neg p _ _ hc]

@[simp] theorem trim_trim (cs : List α) : trim p (trim p cs) = trim p cs := by
  rw [trim_eq cs, trim_rdropWhile, trim_dropWhile, ← trim_eq]

variable [DecidableEq α] {sep : α}

theorem map_trim_dropWhile (hsep : p sep = false) (cs : List α) :
    ((cs.dropWhile p).splitOn sep).map (trim p) = (cs.splitOn sep).map (trim p) := by
  induction cs with
  | nil => rfl
  | cons c cs ih =>
    by_cases hc : p c = true
    · have hne : ¬(c == sep) = true := fun heq => by
        rw [beq_iff_eq.mp heq, hsep] at hc
        cases hc
      rw [List.dropWhile_cons_of_pos hc, ih, List.splitOn_cons_eq_if_modifyHead, if_neg hne]
      cases hpieces : cs.splitOn sep with
      | nil => rfl
      | cons q qs => rw [List.modifyHead_cons, List.map_cons, List.map_cons, trim_cons hc]
    · rw [List.dropWhile_cons_of_neg hc]

/-- A list is one piece, or its last piece follows the last separator. -/
theorem map_trim_concat {c : α} (hc : p c = true) (hsep : p sep = false) (cs : List α) :
    ((cs ++ [c]).splitOn sep).map (trim p) = (cs.splitOn sep).map (trim p) := by
  have hne : sep ≠ c := fun heq => by
    rw [heq, hc] at hsep
    cases hsep
  have hpiece : ∀ q : List α, sep ∉ q →
      ((q ++ [c]).splitOn sep).map (trim p) = (q.splitOn sep).map (trim p) := by
    intro q hq
    have hqc : sep ∉ q ++ [c] := by simp [hq, hne]
    rw [List.splitOn_eq_singleton hqc, List.splitOn_eq_singleton hq, List.map_singleton, List.map_singleton,
      trim_concat hc]
  by_cases hmem : sep ∈ cs
  · obtain ⟨after, before, hcs, hnot⟩ := List.eq_append_cons_of_mem (List.mem_reverse.mpr hmem)
    have hsplit : cs = before.reverse ++ sep :: after.reverse := by
      rw [← List.reverse_reverse cs, hcs]
      simp
    have hafter := hpiece after.reverse (by rwa [List.mem_reverse])
    rw [hsplit, List.append_assoc, List.cons_append, List.splitOn_append_cons_self, List.splitOn_append_cons_self,
      List.map_append, List.map_append, hafter]
  · exact hpiece cs hmem

theorem map_trim_rdropWhile (hsep : p sep = false) (cs : List α) :
    ((cs.rdropWhile p).splitOn sep).map (trim p) = (cs.splitOn sep).map (trim p) := by
  induction cs using List.reverseRecOn with
  | nil => rfl
  | append_singleton cs c ih =>
    by_cases hc : p c = true
    · rw [List.rdropWhile_concat_pos p _ _ hc, ih, map_trim_concat hc hsep]
    · rw [List.rdropWhile_concat_neg p _ _ hc]

/-- **Trimming a list leaves its trimmed pieces as they are.** -/
theorem map_trim_splitOn (hsep : p sep = false) (cs : List α) :
    ((trim p cs).splitOn sep).map (trim p) = (cs.splitOn sep).map (trim p) := by
  rw [trim_eq, map_trim_rdropWhile hsep, map_trim_dropWhile hsep]

end Trim
