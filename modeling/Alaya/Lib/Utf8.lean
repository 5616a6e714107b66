import Mathlib.Data.List.Basic

/-!
# The bytes of a text in UTF-8

A character's bytes begin with one that stands nowhere else, so the bytes of a text can be read from any place: where
the bytes of a nonempty word stand among those of a text, the word itself stands in the text, between characters.
-/

namespace Utf8

def encode (text : List Char) : List UInt8 := text.flatMap String.utf8EncodeChar

@[simp] theorem encode_nil : encode [] = [] := rfl

theorem encode_cons (c : Char) (text : List Char) : encode (c :: text) = String.utf8EncodeChar c ++ encode text :=
  List.flatMap_cons

theorem encode_append (before after : List Char) : encode (before ++ after) = encode before ++ encode after :=
  List.flatMap_append

theorem encodeChar_ne_nil (c : Char) : String.utf8EncodeChar c ≠ [] := by
  intro hnil
  have hlength := String.length_utf8EncodeChar c
  rw [hnil] at hlength
  exact absurd hlength (Nat.ne_of_lt c.utf8Size_pos)

theorem encode_eq_nil {text : List Char} (h : encode text = []) : text = [] := by
  cases text with
  | nil => rfl
  | cons c text =>
    rw [encode_cons] at h
    exact absurd (List.append_eq_nil_iff.mp h).1 (encodeChar_ne_nil c)

/-- The first byte of a text's bytes begins a character. -/
theorem firstByte_head? (text : List Char) : ∀ b ∈ (encode text).head?, b.IsUTF8FirstByte := by
  intro b hb
  cases text with
  | nil => cases hb
  | cons c text =>
    rw [encode_cons, List.head?_append_of_ne_nil _ (encodeChar_ne_nil c)] at hb
    have hpos : 0 < (String.utf8EncodeChar c).length := List.length_pos_iff.mpr (encodeChar_ne_nil c)
    rw [List.head?_eq_getElem?, List.getElem?_eq_getElem hpos] at hb
    cases hb
    exact UInt8.isUTF8FirstByte_getElem_utf8EncodeChar.mpr rfl

/-- What follows a byte of a character, inside it, does not begin a character. -/
theorem not_firstByte_of_inside {c : Char} {before after : List UInt8} {b : UInt8}
    (hchar : String.utf8EncodeChar c = before ++ b :: after) (hbefore : before ≠ []) : ¬b.IsUTF8FirstByte := by
  have hlt : before.length < (String.utf8EncodeChar c).length := by
    rw [hchar, List.length_append, List.length_cons]
    omega
  have hget : (String.utf8EncodeChar c)[before.length] = b := by
    simp only [hchar, List.getElem_append_right (Nat.le_refl _), Nat.sub_self, List.getElem_cons_zero]
  rw [← hget, UInt8.isUTF8FirstByte_getElem_utf8EncodeChar]
  exact fun hzero => hbefore (List.length_eq_zero_iff.mp hzero)

/-- Bytes that begin with a character's determine the character. -/
theorem encodeChar_append_inj {c d : Char} {rest rest' : List UInt8}
    (h : String.utf8EncodeChar c ++ rest = String.utf8EncodeChar d ++ rest') : c = d ∧ rest = rest' := by
  have hbytes : (String.utf8EncodeChar c).toByteArray ++ rest.toByteArray =
      (String.utf8EncodeChar d).toByteArray ++ rest'.toByteArray := by
    rw [← List.toByteArray_append, ← List.toByteArray_append, h]
  have hchar : c = d := by
    have hc := ByteArray.utf8DecodeChar?_utf8EncodeChar_append (b := rest.toByteArray) (c := c)
    rw [hbytes, ByteArray.utf8DecodeChar?_utf8EncodeChar_append] at hc
    exact (Option.some.inj hc).symm
  subst hchar
  exact ⟨rfl, List.append_cancel_left h⟩

/-- Bytes cut where no byte or one that begins a character follows are the bytes of a text cut between characters. -/
theorem exists_cut (text : List Char) :
    ∀ before after, encode text = before ++ after → (∀ b ∈ after.head?, b.IsUTF8FirstByte) →
      ∃ start rest, text = start ++ rest ∧ before = encode start ∧ after = encode rest := by
  induction text with
  | nil =>
    intro before after hbytes _
    obtain ⟨rfl, rfl⟩ := List.append_eq_nil_iff.mp hbytes.symm
    exact ⟨[], [], rfl, rfl, rfl⟩
  | cons c text ih =>
    intro before after hbytes hfirst
    by_cases hbefore : before = []
    · subst hbefore
      exact ⟨[], c :: text, rfl, rfl, hbytes.symm⟩
    rw [encode_cons] at hbytes
    obtain ⟨rest, hlonger, htext⟩ | ⟨inside, hchar, hafter⟩ := List.append_eq_append_iff.mp hbytes
    · obtain ⟨start, last, rfl, rfl, rfl⟩ := ih rest after htext hfirst
      exact ⟨c :: start, last, rfl, hlonger, rfl⟩
    -- the cut is inside the character or right after it
    · cases inside with
      | nil =>
        refine ⟨[c], text, rfl, ?_, hafter⟩
        rw [encode_cons, encode_nil, hchar, List.append_nil, List.append_nil]
      | cons b inside =>
        rw [hafter] at hfirst
        exact absurd (hfirst b rfl) (not_firstByte_of_inside hchar hbefore)

/-- Bytes that begin with a word's are those of a text that begins with the word. -/
theorem exists_rest (word : List Char) :
    ∀ text after, encode text = encode word ++ after → ∃ rest, text = word ++ rest ∧ after = encode rest := by
  induction word with
  | nil => exact fun text after hbytes => ⟨text, rfl, hbytes.symm⟩
  | cons c word ih =>
    intro text after hbytes
    cases text with
    | nil =>
      rw [encode_cons, List.append_assoc] at hbytes
      exact absurd (List.append_eq_nil_iff.mp hbytes.symm).1 (encodeChar_ne_nil c)
    | cons d text =>
      rw [encode_cons, encode_cons, List.append_assoc] at hbytes
      obtain ⟨rfl, htext⟩ := encodeChar_append_inj hbytes
      obtain ⟨rest, rfl, hafter⟩ := ih text after htext
      exact ⟨rest, rfl, hafter⟩

/-- The bytes of a nonempty word stand among those of a text only where the word stands in the text. -/
theorem encode_eq_around {text word : List Char} (hword : word ≠ []) {before after : List UInt8} :
    encode text = before ++ encode word ++ after ↔
      ∃ start rest, text = start ++ word ++ rest ∧ before = encode start ∧ after = encode rest := by
  constructor
  · intro hbytes
    rw [List.append_assoc] at hbytes
    have hne : encode word ≠ [] := fun hnil => hword (encode_eq_nil hnil)
    obtain ⟨start, last, rfl, hbefore, hlast⟩ := exists_cut text before (encode word ++ after) hbytes (by
      rw [List.head?_append_of_ne_nil _ hne]
      exact firstByte_head? word)
    obtain ⟨rest, rfl, hafter⟩ := exists_rest word last after hlast.symm
    exact ⟨start, rest, (List.append_assoc _ _ _).symm, hbefore, hafter⟩
  · rintro ⟨start, rest, rfl, rfl, rfl⟩
    rw [encode_append, encode_append]

/-! ### Characters of one byte -/

theorem encodeChar_ascii {c : Char} (h : c.toNat < 128) : String.utf8EncodeChar c = [c.val.toUInt8] := by
  refine String.utf8EncodeChar_eq_singleton (Char.utf8Size_eq_one_iff.mpr ?_)
  exact UInt32.le_iff_toNat_le.mpr (Nat.le_of_lt_succ h)

/-- Every byte of a longer character is above the one-byte ones. -/
theorem le_of_mem_encodeChar {c : Char} (h : 128 ≤ c.toNat) : ∀ b ∈ String.utf8EncodeChar c, 128 ≤ b.toNat := by
  intro b hb
  unfold String.utf8EncodeChar at hb
  have hc : ¬c.val.toNat ≤ 127 := Nat.not_le.mpr h
  simp only [hc, if_false] at hb
  split at hb
  · simp only [List.mem_cons, List.not_mem_nil, or_false] at hb
    rcases hb with rfl | rfl <;> simp only [UInt8.toNat_ofNat'] <;> omega
  · split at hb
    · simp only [List.mem_cons, List.not_mem_nil, or_false] at hb
      rcases hb with rfl | rfl | rfl <;> simp only [UInt8.toNat_ofNat'] <;> omega
    · simp only [List.mem_cons, List.not_mem_nil, or_false] at hb
      rcases hb with rfl | rfl | rfl | rfl <;> simp only [UInt8.toNat_ofNat'] <;> omega

end Utf8
