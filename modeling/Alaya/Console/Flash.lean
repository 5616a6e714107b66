import Alaya.Lib.Budget
import Alaya.Types.Citation

/-!
# Flash messages

A message rides a cookie as a JSON string, and a browser drops a cookie that is too long.  `flashText` makes it fit:
it weighs each character by what it costs in the string, and cuts a message that costs too much.
-/

namespace Alaya.Console

/-- The ceiling on a message, in bytes of its JSON string. -/
def maxFlashBytes : ℕ := 1800

/-- The bytes a character takes in a JSON string, where it is no control character. -/
def flashCost (c : Char) : ℕ := if c = '"' ∨ c = '\\' then 2 else c.utf8Size

/-- A message with its control characters made spaces. -/
def spaced (msg : String) : List Char := msg.toList.map fun c => if isControl c then ' ' else c

/-- `msg` as a flash carries it: without control characters, and cut where its JSON string would be too long. -/
def flashText (msg : String) : String :=
  let text := spaced msg
  if (text.map flashCost).sum ≤ maxFlashBytes then String.ofList text
  else String.ofList (Budget.within flashCost (maxFlashBytes - '…'.utf8Size) 0 text ++ ['…'])

/-! ### The JSON string -/

/-- A character as a JSON serializer writes it in a string. -/
def jsonEscape (c : Char) : List Char :=
  match c with
  | '"' => ['\\', '"']
  | '\\' => ['\\', '\\']
  | '\x08' => ['\\', 'b']
  | '\t' => ['\\', 't']
  | '\n' => ['\\', 'n']
  | '\x0c' => ['\\', 'f']
  | '\r' => ['\\', 'r']
  | c =>
    if c.toNat < 0x20 then ['\\', 'u', '0', '0', Nat.digitChar (c.toNat / 16), Nat.digitChar (c.toNat % 16)] else [c]

/-- The bytes of a text in a JSON string. -/
def jsonBodyLen (text : String) : ℕ := utf8Len (text.toList.flatMap jsonEscape)

theorem utf8Len_append (cs ds : List Char) : utf8Len (cs ++ ds) = utf8Len cs + utf8Len ds := by
  unfold utf8Len
  rw [List.map_append, List.sum_append]

theorem utf8Len_jsonEscape {c : Char} (h : isControl c = false) : utf8Len (jsonEscape c) = flashCost c := by
  have hlow : ¬c.toNat < 0x20 := by
    intro hlt
    have hcontrol : isControl c = true := by
      unfold isControl
      simp [Nat.le_of_lt_succ hlt]
    rw [h] at hcontrol
    cases hcontrol
  unfold jsonEscape
  split
  · rfl
  · rfl
  all_goals first
    | exact absurd h (by decide)
    | skip
  next hquote hslash _ _ _ _ _ =>
  rw [if_neg hlow]
  unfold flashCost
  rw [if_neg (by rintro (rfl | rfl); exacts [hquote rfl, hslash rfl])]
  exact Nat.add_zero _

/-- A text of no control character takes what its characters cost. -/
theorem jsonBodyLen_ofList {cs : List Char} (h : ∀ c ∈ cs, isControl c = false) :
    jsonBodyLen (String.ofList cs) = Budget.total flashCost cs := by
  unfold jsonBodyLen
  rw [String.toList_ofList]
  induction cs with
  | nil => rfl
  | cons c cs ih =>
    have hc := utf8Len_jsonEscape (h c List.mem_cons_self)
    have hcs := ih fun d hd => h d (List.mem_cons_of_mem _ hd)
    rw [List.flatMap_cons, utf8Len_append, Budget.total_cons, hc, hcs]

/-! ### What a flash carries -/

theorem control_spaced {msg : String} : ∀ c ∈ spaced msg, isControl c = false := by
  intro c hc
  obtain ⟨d, -, rfl⟩ := List.mem_map.mp hc
  by_cases hd : isControl d = true
  · rw [if_pos hd]
    rfl
  · rw [if_neg hd]
    exact Bool.eq_false_iff.mpr hd

/-- A text of no control character is what it is made. -/
theorem spaced_of_clean {cs : List Char} (h : ∀ c ∈ cs, isControl c = false) : spaced (String.ofList cs) = cs := by
  unfold spaced
  rw [String.toList_ofList]
  have hkept : cs.map (fun c => if isControl c then ' ' else c) = cs.map id :=
    List.map_congr_left fun c hc => if_neg (Bool.eq_false_iff.mp (h c hc))
  rw [hkept, List.map_id]

theorem clean_marked {cs head : List Char} (h : ∀ c ∈ cs, isControl c = false) (hhead : head <+: cs) :
    ∀ c ∈ head ++ ['…'], isControl c = false := by
  intro c hc
  rcases List.mem_append.mp hc with hc | hc
  · exact h c (hhead.subset hc)
  · obtain rfl := List.mem_singleton.mp hc
    rfl

theorem total_marked (head : List Char) :
    Budget.total flashCost (head ++ ['…']) = Budget.total flashCost head + 3 := Budget.total_append ..

theorem flashText_of_fits {msg : String} (h : Budget.total flashCost (spaced msg) ≤ maxFlashBytes) :
    flashText msg = String.ofList (spaced msg) := if_pos h

theorem flashText_of_over {msg : String} (h : maxFlashBytes < Budget.total flashCost (spaced msg)) :
    flashText msg =
      String.ofList (Budget.within flashCost (maxFlashBytes - '…'.utf8Size) 0 (spaced msg) ++ ['…']) :=
  if_neg (not_le.mpr h)

/-- A text that is clean and fits is left alone. -/
theorem flashText_of_clean {cs : List Char} (h : ∀ c ∈ cs, isControl c = false)
    (hfits : Budget.total flashCost cs ≤ maxFlashBytes) : flashText (String.ofList cs) = String.ofList cs := by
  have hspaced := spaced_of_clean h
  rw [flashText_of_fits (hspaced.symm ▸ hfits), hspaced]

/-- **A flash fits its cookie and stays readable**: it has no control character, its JSON string is within the
ceiling, and it is the message itself where that fits, and otherwise the longest start of it that leaves room for the
mark.  A flash carries itself. -/
theorem flashText_fits (msg : String) :
    ∃ text : List Char, text = msg.toList.map (fun c => if isControl c then ' ' else c) ∧
      (∀ c ∈ (flashText msg).toList, isControl c = false) ∧ jsonBodyLen (flashText msg) ≤ 1800 ∧
      (jsonBodyLen (String.ofList text) ≤ 1800 → flashText msg = String.ofList text) ∧
      (1800 < jsonBodyLen (String.ofList text) →
        ∃ head, head <+: text ∧ flashText msg = String.ofList (head ++ ['…']) ∧
          ∀ other, other <+: text → jsonBodyLen (String.ofList (other ++ ['…'])) ≤ 1800 → other <+: head) ∧
      flashText (flashText msg) = flashText msg := by
  refine ⟨spaced msg, rfl, ?_⟩
  have hclean : ∀ c ∈ spaced msg, isControl c = false := control_spaced
  rw [jsonBodyLen_ofList hclean]
  rcases le_or_gt (Budget.total flashCost (spaced msg)) maxFlashBytes with hfits | hover
  · have htext := flashText_of_fits hfits
    rw [htext]
    refine ⟨?_, ?_, fun _ => rfl, fun h => absurd h (not_lt.mpr hfits), flashText_of_clean hclean hfits⟩
    · rw [String.toList_ofList]
      exact hclean
    · rw [jsonBodyLen_ofList hclean]
      exact hfits
  · have htext := flashText_of_over hover
    obtain ⟨head, hhead⟩ : ∃ head, head = Budget.within flashCost (maxFlashBytes - '…'.utf8Size) 0 (spaced msg) :=
      ⟨_, rfl⟩
    have hstart : head <+: spaced msg := hhead ▸ Budget.within_isPrefix _
    have hmarked := clean_marked hclean hstart
    have hcost : Budget.total flashCost (head ++ ['…']) ≤ maxFlashBytes := by
      have hle : 0 + Budget.total flashCost head ≤ 1797 := hhead ▸ Budget.total_within_le (spaced msg) (Nat.zero_le _)
      rw [total_marked]
      show Budget.total flashCost head + 3 ≤ 1800
      omega
    rw [htext, ← hhead]
    refine ⟨?_, ?_, fun h => absurd h (not_le.mpr hover), fun _ => ⟨head, hstart, rfl, fun other hother hlen => ?_⟩,
      flashText_of_clean hmarked hcost⟩
    · rw [String.toList_ofList]
      exact hmarked
    · rw [jsonBodyLen_ofList hmarked]
      exact hcost
    · rw [jsonBodyLen_ofList (clean_marked hclean hother), total_marked] at hlen
      rw [hhead]
      apply Budget.isPrefix_within hother
      show 0 + Budget.total flashCost other ≤ 1797
      omega

/-- Every control character is a space. -/
example : flashText "line\tone\n" = "line one " := by decide +kernel

/-- A quote takes two bytes: of nine hundred and one of them, the mark leaves room for 898. -/
example : Budget.within flashCost (maxFlashBytes - '…'.utf8Size) 0 (List.replicate 901 '"') =
    List.replicate 898 '"' := by decide +kernel

end Alaya.Console
