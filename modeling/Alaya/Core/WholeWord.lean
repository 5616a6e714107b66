import Alaya.Core.Interference
import Alaya.Lib.Utf8

/-!
# Whole words in a text of any script

`contains_word` looks for the bytes of a word and at the bytes beside them.  A match lies between characters, since no
byte that begins one stands inside another; a byte beside it is a letter or a digit only where the character there is
one of ASCII's, so a word that ends against a letter of another script counts as whole.
-/

namespace Alaya.Interference

/-- The runs of `size` bytes, in order; a size of zero panics. -/
def windows (size : ℕ) (bytes : List UInt8) : Option (List (List UInt8)) :=
  if size = 0 then none
  else some ((List.range (bytes.length + 1 - size)).map fun i => (bytes.drop i).take size)

/-- `contains_word` with the panic of an empty word; nothing where it panics. -/
def containsWordChecked (text word : String) : Option Bool :=
  let bytes := utf8Bytes text
  let wordBytes := utf8Bytes word
  let wordLen := wordBytes.length
  (windows wordLen bytes).map fun found =>
    found.zipIdx.any fun (window, i) =>
      window = wordBytes &&
        (i = 0 || !bytes[i - 1]?.any isAsciiAlphanumeric) &&
        (bytes.length ≤ i + wordLen || !bytes[i + wordLen]?.any isAsciiAlphanumeric)

/-- The characters that are letters or digits in Unicode, of which ASCII's own are the known ones. -/
structure Alphanumeric where
  isAlphanumeric : Char → Bool
  ascii : ∀ c : Char, c.toNat < 128 → isAlphanumeric c = c.isAlphanum

/-- A letter or a digit outside ASCII. -/
def Alphanumeric.isForeign (u : Alphanumeric) (c : Char) : Bool := 128 ≤ c.toNat && u.isAlphanumeric c

/-- `word` stands in `text` between `before` and `after`; nothing is beside it at an end. -/
def Between (text word : String) (before after : Option Char) : Prop :=
  ∃ start rest, text.toList = start ++ word.toList ++ rest ∧ start.getLast? = before ∧ rest.head? = after

/-- `word` stands somewhere in `text` with none of the characters beside it. -/
def StandsWhole (alphanumeric : Char → Bool) (text word : String) : Prop :=
  ∃ before after, Between text word before after ∧ before.any alphanumeric = false ∧ after.any alphanumeric = false

/-- `word` stands somewhere with no letter or digit of ASCII beside it, and wherever it does, one of another script
is. -/
def OnlyBesideForeign (u : Alphanumeric) (text word : String) : Prop :=
  StandsWhole Char.isAlphanum text word ∧
    ∀ before after, Between text word before after → before.any Char.isAlphanum = false →
      after.any Char.isAlphanum = false → before.any u.isForeign = true ∨ after.any u.isForeign = true

theorem utf8Bytes_eq_encode (text : String) : utf8Bytes text = Utf8.encode text.toList := rfl

theorem utf8Bytes_length_eq_zero {word : String} : (utf8Bytes word).length = 0 ↔ word = "" := by
  rw [utf8Bytes_eq_encode, List.length_eq_zero_iff, ← String.toList_eq_nil_iff]
  exact ⟨Utf8.encode_eq_nil, fun hnil => by rw [hnil, Utf8.encode_nil]⟩

theorem zipIdx_range (n : ℕ) : (List.range n).zipIdx = (List.range n).map fun i => (i, i) := by
  apply List.ext_getElem
  · rw [List.length_zipIdx, List.length_map]
  · intro i _ _
    rw [List.getElem_zipIdx, List.getElem_map, List.getElem_range, Nat.zero_add]

theorem containsWordChecked_eq (text word : String) :
    containsWordChecked text word = if word = "" then none else some (containsWord text word) := by
  unfold containsWordChecked windows
  simp only [utf8Bytes_length_eq_zero]
  split
  · rfl
  · rw [Option.map_some, List.zipIdx_map, List.any_map, zipIdx_range, List.any_map]
    rfl

/-! ### The character beside a byte -/

theorem isAlphanum_lt {c : Char} (h : c.isAlphanum = true) : c.toNat < 128 := by
  have hranges : (decide ('A'.val ≤ c.val ∧ c.val ≤ 'Z'.val) ||
      decide ('a'.val ≤ c.val) && decide (c.val ≤ 'z'.val) ||
      decide ('0'.val ≤ c.val) && decide (c.val ≤ '9'.val)) = true := h
  simp only [Bool.or_eq_true, Bool.and_eq_true, decide_eq_true_eq, UInt32.le_iff_toNat_le] at hranges
  have hZ : 'Z'.val.toNat = 90 := rfl
  have hz : 'z'.val.toNat = 122 := rfl
  have hnine : '9'.val.toNat = 57 := rfl
  show c.val.toNat < 128
  omega

theorem isAsciiAlphanumeric_lt {b : UInt8} (h : isAsciiAlphanumeric b = true) : b.toNat < 128 := by
  simp only [isAsciiAlphanumeric, Bool.or_eq_true, Bool.and_eq_true, decide_eq_true_eq, UInt8.le_iff_toNat_le] at h
  have hnine : UInt8.toNat 57 = 57 := rfl
  have hZ : UInt8.toNat 90 = 90 := rfl
  have hz : UInt8.toNat 122 = 122 := rfl
  omega

theorem isAsciiAlphanumeric_ofNat :
    ∀ n < 128, isAsciiAlphanumeric (Char.ofNat n).val.toUInt8 = (Char.ofNat n).isAlphanum := by
  decide

/-- Each byte of a character is a letter or a digit of ASCII where the character is. -/
theorem isAsciiAlphanumeric_byte {c : Char} {b : UInt8} (hb : b ∈ String.utf8EncodeChar c) :
    isAsciiAlphanumeric b = c.isAlphanum := by
  by_cases hc : c.toNat < 128
  · rw [Utf8.encodeChar_ascii hc, List.mem_singleton] at hb
    have hcode := isAsciiAlphanumeric_ofNat c.toNat hc
    rw [Char.ofNat_toNat] at hcode
    rw [hb, hcode]
  · have hbyte := Utf8.le_of_mem_encodeChar (Nat.not_lt.mp hc) b hb
    rw [Bool.eq_false_iff.mpr fun htrue => hc (isAlphanum_lt htrue),
      Bool.eq_false_iff.mpr fun htrue => absurd (isAsciiAlphanumeric_lt htrue) (Nat.not_lt.mpr hbyte)]

theorem any_getLast?_encode (text : List Char) :
    (Utf8.encode text).getLast?.any isAsciiAlphanumeric = text.getLast?.any Char.isAlphanum := by
  obtain rfl | ⟨start, c, rfl⟩ := text.eq_nil_or_concat'
  · rfl
  · have hne := Utf8.encodeChar_ne_nil c
    rw [Utf8.encode_append, Utf8.encode_cons, Utf8.encode_nil, List.append_nil,
      List.getLast?_append_of_ne_nil _ hne, List.getLast?_eq_some_getLast hne, List.getLast?_concat,
      Option.any_some, Option.any_some]
    exact isAsciiAlphanumeric_byte (List.getLast_mem hne)

theorem any_head?_encode (text : List Char) :
    (Utf8.encode text).head?.any isAsciiAlphanumeric = text.head?.any Char.isAlphanum := by
  cases text with
  | nil => rfl
  | cons c rest =>
    have hne := Utf8.encodeChar_ne_nil c
    rw [Utf8.encode_cons, List.head?_append_of_ne_nil _ hne, List.head?_eq_some_head hne, List.head?_cons,
      Option.any_some, Option.any_some]
    exact isAsciiAlphanumeric_byte (List.head_mem hne)

/-- The bytes find the word where it stands with no letter or digit of ASCII beside it. -/
theorem containsWord_iff_standsWhole {text word : String} (hword : word ≠ "") :
    containsWord text word = true ↔ StandsWhole Char.isAlphanum text word := by
  have hne : word.toList ≠ [] := fun hnil => hword (String.toList_eq_nil_iff.mp hnil)
  rw [containsWord_iff]
  simp only [utf8Bytes_eq_encode, Utf8.encode_eq_around hne, Boundary]
  constructor
  · rintro ⟨_, _, ⟨start, rest, htext, rfl, rfl⟩, hbefore, hafter⟩
    rw [any_getLast?_encode] at hbefore
    rw [any_head?_encode] at hafter
    exact ⟨_, _, ⟨start, rest, htext, rfl, rfl⟩, hbefore, hafter⟩
  · rintro ⟨_, _, ⟨start, rest, htext, rfl, rfl⟩, hbefore, hafter⟩
    refine ⟨_, _, ⟨start, rest, htext, rfl, rfl⟩, ?_, ?_⟩
    · rw [any_getLast?_encode]
      exact hbefore
    · rw [any_head?_encode]
      exact hafter

/-! ### Letters of any script -/

theorem Alphanumeric.any_eq_false (u : Alphanumeric) (c : Option Char) :
    c.any u.isAlphanumeric = false ↔ c.any Char.isAlphanum = false ∧ c.any u.isForeign = false := by
  cases c with
  | none => exact iff_of_true rfl ⟨rfl, rfl⟩
  | some c =>
    simp only [Option.any_some, Alphanumeric.isForeign, Bool.and_eq_false_iff, decide_eq_false_iff_not, Nat.not_le]
    constructor
    · intro hletter
      refine ⟨Bool.eq_false_iff.mpr fun hascii => ?_, .inr hletter⟩
      rw [u.ascii c (isAlphanum_lt hascii), hascii] at hletter
      cases hletter
    · rintro ⟨hascii, hlow | hletter⟩
      · rw [u.ascii c hlow]
        exact hascii
      · exact hletter

/-- A word stands whole where it stands apart from ASCII and not only beside another script. -/
theorem standsWhole_iff (u : Alphanumeric) (text word : String) :
    StandsWhole u.isAlphanumeric text word ↔
      StandsWhole Char.isAlphanum text word ∧ ¬OnlyBesideForeign u text word := by
  constructor
  · rintro ⟨before, after, hbetween, hbefore, hafter⟩
    obtain ⟨hbefore, hbeforeForeign⟩ := (u.any_eq_false before).mp hbefore
    obtain ⟨hafter, hafterForeign⟩ := (u.any_eq_false after).mp hafter
    refine ⟨⟨before, after, hbetween, hbefore, hafter⟩, fun ⟨_, hforeign⟩ => ?_⟩
    obtain htrue | htrue := hforeign before after hbetween hbefore hafter
    · exact Bool.false_ne_true (hbeforeForeign.symm.trans htrue)
    · exact Bool.false_ne_true (hafterForeign.symm.trans htrue)
  · rintro ⟨hascii, hnot⟩
    by_contra hwhole
    refine hnot ⟨hascii, fun before after hbetween hbefore hafter => ?_⟩
    by_contra hforeign
    rw [not_or, Bool.not_eq_true, Bool.not_eq_true] at hforeign
    exact hwhole ⟨before, after, hbetween, (u.any_eq_false before).mpr ⟨hbefore, hforeign.1⟩,
      (u.any_eq_false after).mpr ⟨hafter, hforeign.2⟩⟩

/-- The bytes of a word match only between characters. -/
theorem exists_start_of_window {text word : String} (hword : word ≠ "") {i : ℕ}
    (hwindow : ((utf8Bytes text).drop i).take (utf8Bytes word).length = utf8Bytes word) :
    ∃ start rest, text.toList = start ++ word.toList ++ rest ∧ i = (Utf8.encode start).length := by
  have hne : word.toList ≠ [] := fun hnil => hword (String.toList_eq_nil_iff.mp hnil)
  have hlt : i < (utf8Bytes text).length := by
    by_contra hle
    rw [List.drop_eq_nil_of_le (Nat.not_lt.mp hle), List.take_nil] at hwindow
    exact hne (Utf8.encode_eq_nil hwindow.symm)
  have hbytes : Utf8.encode text.toList = (utf8Bytes text).take i ++ Utf8.encode word.toList ++
      ((utf8Bytes text).drop i).drop (utf8Bytes word).length := by
    have hdrop := List.take_append_drop (utf8Bytes word).length ((utf8Bytes text).drop i)
    rw [hwindow] at hdrop
    rw [List.append_assoc, ← utf8Bytes_eq_encode word, hdrop, List.take_append_drop]
    rfl
  obtain ⟨start, rest, htext, hbefore, _⟩ := (Utf8.encode_eq_around hne).mp hbytes
  refine ⟨start, rest, htext, ?_⟩
  rw [← hbefore, List.length_take, Nat.min_eq_left hlt.le]

/-- `contains_word` answers, matches between characters only and finds exactly the words that stand whole in Unicode's
sense, unless the word is empty or each place of it that no letter or digit of ASCII touches is touched by one of
another script. -/
theorem containsWord_whole (u : Alphanumeric) (text word : String) :
    (∃ found, containsWordChecked text word = some found ∧
        (found = true ↔ StandsWhole u.isAlphanumeric text word) ∧
        ∀ i, ((utf8Bytes text).drop i).take (utf8Bytes word).length = utf8Bytes word →
          ∃ start rest, text.toList = start ++ word.toList ++ rest ∧ i = (utf8Bytes (String.ofList start)).length) ↔
      word ≠ "" ∧ ¬OnlyBesideForeign u text word := by
  rw [containsWordChecked_eq]
  by_cases hword : word = ""
  · rw [if_pos hword]
    exact iff_of_false (fun ⟨_, hnone, _⟩ => by cases hnone) fun h => h.1 hword
  rw [if_neg hword, standsWhole_iff, ← containsWord_iff_standsWhole hword]
  constructor
  · rintro ⟨found, hsome, hfound, _⟩
    rw [← Option.some.inj hsome] at hfound
    exact ⟨hword, fun honly => (hfound.mp ((containsWord_iff_standsWhole hword).mpr honly.1)).2 honly⟩
  · rintro ⟨_, honly⟩
    refine ⟨_, rfl, (and_iff_left honly).symm, fun i hwindow => ?_⟩
    obtain ⟨start, rest, htext, hlength⟩ := exists_start_of_window hword hwindow
    refine ⟨start, rest, htext, ?_⟩
    rw [utf8Bytes_eq_encode, String.toList_ofList]
    exact hlength

/-- Unicode's letters and digits up to U+00FF, the others left out. -/
def latin : Alphanumeric where
  isAlphanumeric c :=
    c.isAlphanum || [0xAA, 0xB2, 0xB3, 0xB5, 0xB9, 0xBA, 0xBC, 0xBD, 0xBE].contains c.toNat ||
      (0xC0 ≤ c.toNat && c.toNat ≤ 0xFF && c.toNat != 0xD7 && c.toNat != 0xF7)
  ascii c hlow := by
    have hnone : [0xAA, 0xB2, 0xB3, 0xB5, 0xB9, 0xBA, 0xBC, 0xBD, 0xBE].contains c.toNat = false := by
      rw [Bool.eq_false_iff, ne_eq, List.contains_iff_mem]
      simp only [List.mem_cons, List.not_mem_nil, or_false]
      omega
    have hletter : decide (0xC0 ≤ c.toNat) = false := decide_eq_false (by omega)
    rw [hnone, hletter, Bool.or_false, Bool.false_and, Bool.false_and, Bool.false_and, Bool.or_false]

/-- "no" is found in "noël", of which it is only a part. -/
theorem containsWord_noel : containsWordChecked "noël" "no" = some true ∧
    ¬StandsWhole latin.isAlphanumeric "noël" "no" := by
  refine ⟨by decide, ?_⟩
  rintro ⟨_, _, ⟨start, rest, htext, rfl, rfl⟩, _, hafter⟩
  have hletters : ['n', 'o', 'ë', 'l'] = start ++ (['n', 'o'] ++ rest) := by
    rw [← List.append_assoc]
    exact htext
  cases start with
  | nil =>
    obtain rfl : ['ë', 'l'] = rest := (List.cons.inj (List.cons.inj hletters).2).2
    exact absurd hafter (by decide)
  | cons c start =>
    have hn : 'n' ∈ ['o', 'ë', 'l'] := by
      rw [(List.cons.inj hletters).2]
      exact List.mem_append_right _ List.mem_cons_self
    exact absurd hn (by decide)

end Alaya.Interference
