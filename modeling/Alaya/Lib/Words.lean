import Mathlib.Data.List.Basic

/-!
# The words of a list

`words p` cuts a list at the elements that satisfy `p` and keeps the pieces that are not empty.  Joining words with
an element to cut at, and cutting again, gives the same words (`words_intercalate`).
-/

namespace Words

variable {α : Type} {p : α → Bool}

/-- The pieces between the elements to cut at, less the empty ones. -/
def words (p : α → Bool) (cs : List α) : List (List α) := (cs.splitOnP p).filter (· ≠ [])

/-- No piece holds an element to cut at. -/
theorem forall_mem_splitOnP (cs : List α) : ∀ w ∈ cs.splitOnP p, ∀ c ∈ w, p c = false := by
  induction cs with
  | nil => simp
  | cons c cs ih =>
    rw [List.splitOnP_cons_eq_if_modifyHead]
    split
    · intro w hw
      rcases List.mem_cons.mp hw with rfl | hw
      · exact nofun
      · exact ih w hw
    · next hc =>
      cases hpieces : cs.splitOnP p with
      | nil => exact absurd hpieces (List.splitOnP_ne_nil p cs)
      | cons q qs =>
        rw [hpieces] at ih
        intro w hw
        rw [List.modifyHead_cons] at hw
        rcases List.mem_cons.mp hw with rfl | hw
        · intro d hd
          rcases List.mem_cons.mp hd with rfl | hd
          · simpa using hc
          · exact ih q List.mem_cons_self d hd
        · exact ih w (List.mem_cons_of_mem _ hw)

theorem mem_words {cs w : List α} (h : w ∈ words p cs) : w ≠ [] ∧ ∀ c ∈ w, p c = false := by
  obtain ⟨hmem, hne⟩ := List.mem_filter.mp h
  exact ⟨of_decide_eq_true hne, forall_mem_splitOnP cs w hmem⟩

@[simp] theorem words_nil : words p [] = [] := by simp [words]

theorem words_of_free {w : List α} (hne : w ≠ []) (hfree : ∀ c ∈ w, p c = false) : words p w = [w] := by
  rw [words, List.splitOnP_eq_singleton hfree, List.filter_cons_of_pos (by simpa using hne), List.filter_nil]

theorem words_cons {sep : α} (hsep : p sep = true) (cs : List α) : words p (sep :: cs) = words p cs := by
  rw [words, List.splitOnP_cons_eq_if_modifyHead, if_pos hsep, List.filter_cons_of_neg (by simp), ← words]

theorem words_append_cons {w : List α} (hne : w ≠ []) (hfree : ∀ c ∈ w, p c = false) {sep : α} (hsep : p sep = true)
    (cs : List α) : words p (w ++ sep :: cs) = w :: words p cs := by
  rw [words, List.splitOnP_append_cons_of_forall_mem hfree sep hsep,
    List.filter_cons_of_pos (by simpa using hne), ← words]

/-- **Words that are joined are read back one by one.** -/
theorem words_intercalate {sep : α} (hsep : p sep = true) (ws : List (List α))
    (h : ∀ w ∈ ws, w ≠ [] ∧ ∀ c ∈ w, p c = false) : words p ([sep].intercalate ws) = ws := by
  induction ws with
  | nil => exact words_nil
  | cons w ws ih =>
    obtain ⟨hne, hfree⟩ := h w List.mem_cons_self
    have hrest := ih fun w' hw' => h w' (List.mem_cons_of_mem _ hw')
    cases ws with
    | nil => rw [List.intercalate_singleton, words_of_free hne hfree]
    | cons w' ws =>
      rw [List.intercalate_cons_cons, List.append_assoc, List.singleton_append, words_append_cons hne hfree hsep, hrest]

/-- The words of a list, joined and cut again. -/
theorem words_intercalate_words {sep : α} (hsep : p sep = true) (cs : List α) :
    words p ([sep].intercalate (words p cs)) = words p cs :=
  words_intercalate hsep _ fun _ hw => mem_words hw

end Words
