import Alaya.Lib.Lines
import Alaya.Types.Citation

/-!
# The grammar of citations

What `validateCitations` accepts, as data: a `UrlCitation` or a `RepoCitation`, each with its parts and what is
required of them, and the text it stands for.  A string is accepted exactly if it is the text of a citation
(`citation_accepted_iff`), and no two citations have one text (`Reading.text_injective`).

The path of a repository citation may hold colons.  What makes its readings unique is that a path without a span
behind it does not end in a segment of digits and dashes: such a segment, an empty one included, is the span.
-/

namespace Alaya

open Json

/-! ### Splits -/

theorem splitOnce_eq_none {sep : Char} {cs : List Char} : splitOnce sep cs = none ↔ sep ∉ cs := by
  induction cs with
  | nil => exact ⟨fun _ => List.not_mem_nil, fun _ => rfl⟩
  | cons c cs ih =>
    unfold splitOnce
    rw [List.mem_cons, not_or]
    split_ifs with hc
    · exact ⟨fun h => (nomatch h), fun h => absurd hc.symm h.1⟩
    · rw [Option.map_eq_none_iff, ih]
      exact ⟨fun h => ⟨fun heq => hc heq.symm, h⟩, fun h => h.2⟩

theorem splitOnce_eq_some {sep : Char} {cs before after : List Char} :
    splitOnce sep cs = some (before, after) ↔ cs = before ++ sep :: after ∧ sep ∉ before := by
  induction cs generalizing before with
  | nil => exact ⟨fun h => (nomatch h), fun h => absurd h.1.symm (by simp)⟩
  | cons c cs ih =>
    unfold splitOnce
    split_ifs with hc
    · subst hc
      cases before with
      | nil => simp
      | cons b before =>
        refine ⟨fun h => (by simp at h), fun h => ?_⟩
        rw [List.cons_append, List.cons_eq_cons] at h
        exact absurd (h.1.1 ▸ List.mem_cons_self) h.2
    · rw [Option.map_eq_some_iff]
      constructor
      · rintro ⟨⟨before', after'⟩, hsplit, heq⟩
        obtain ⟨rfl, rfl⟩ := Prod.mk.inj heq
        obtain ⟨rfl, hnot⟩ := ih.mp hsplit
        exact ⟨rfl, fun hmem => (List.mem_cons.mp hmem).elim (fun h => hc h.symm) hnot⟩
      · rintro ⟨heq, hnot⟩
        cases before with
        | nil => exact absurd (List.cons.inj heq).1 hc
        | cons b before =>
          obtain ⟨rfl, hrest⟩ := List.cons.inj heq
          exact ⟨(before, after), ih.mpr ⟨hrest, fun hmem => hnot (List.mem_cons_of_mem _ hmem)⟩, rfl⟩

theorem rsplitOnce_eq_none {sep : Char} {cs : List Char} : rsplitOnce sep cs = none ↔ sep ∉ cs := by
  unfold rsplitOnce
  rw [Option.map_eq_none_iff, splitOnce_eq_none, List.mem_reverse]

theorem rsplitOnce_eq_some {sep : Char} {cs before after : List Char} :
    rsplitOnce sep cs = some (before, after) ↔ cs = before ++ sep :: after ∧ sep ∉ after := by
  unfold rsplitOnce
  rw [Option.map_eq_some_iff]
  constructor
  · rintro ⟨⟨after', before'⟩, hsplit, heq⟩
    obtain ⟨rfl, rfl⟩ := Prod.mk.inj heq
    obtain ⟨hcs, hnot⟩ := splitOnce_eq_some.mp hsplit
    refine ⟨?_, by rwa [List.mem_reverse]⟩
    rw [← List.reverse_reverse cs, hcs]
    simp
  · rintro ⟨rfl, hnot⟩
    refine ⟨(after.reverse, before.reverse), splitOnce_eq_some.mpr ⟨by simp, by rwa [List.mem_reverse]⟩, by simp⟩

theorem stripPrefix_eq_some {start cs rest : List Char} :
    stripPrefix start cs = some rest ↔ cs = start ++ rest := by
  induction start generalizing cs with
  | nil => exact ⟨fun h => Option.some.inj h, fun h => congrArg some h⟩
  | cons p start ih =>
    cases cs with
    | nil => exact ⟨fun h => (nomatch h), fun h => nomatch h⟩
    | cons c cs =>
      unfold stripPrefix
      rw [List.cons_append, List.cons_eq_cons]
      split_ifs with hc
      · rw [ih]
        exact ⟨fun h => ⟨hc.symm, h⟩, fun h => h.2⟩
      · exact ⟨fun h => (nomatch h), fun h => absurd h.1.symm hc⟩

/-- A text is cut in one way at a last separator. -/
theorem rsplit_unique {sep : Char} {a b a' b' : List Char} (hb : sep ∉ b) (hb' : sep ∉ b')
    (h : a ++ sep :: b = a' ++ sep :: b') : a = a' ∧ b = b' := by
  have hleft : rsplitOnce sep (a ++ sep :: b) = some (a, b) := rsplitOnce_eq_some.mpr ⟨rfl, hb⟩
  rw [rsplitOnce_eq_some.mpr ⟨h, hb'⟩] at hleft
  exact Prod.mk.inj (Option.some.inj hleft.symm)

/-! ### Characters -/

/-- A printed ASCII character other than a blank is neither whitespace nor control. -/
theorem printed_of_range {c : Char} (hlow : 0x21 ≤ c.toNat) (hhigh : c.toNat ≤ 0x7E) :
    isWhitespace c = false ∧ isControl c = false := by
  constructor
  · unfold isWhitespace
    simp only [Bool.or_eq_false_iff, decide_eq_false_iff_not]
    omega
  · unfold isControl
    simp only [Bool.or_eq_false_iff, decide_eq_false_iff_not]
    omega

theorem toNat_le_of_le {c d : Char} (h : c ≤ d) : c.toNat ≤ d.toNat := UInt32.le_iff_toNat_le.mp h

theorem range_of_alphanumeric {c : Char} (h : isAsciiAlphanumeric c = true) : 0x30 ≤ c.toNat ∧ c.toNat ≤ 0x7A := by
  simp only [isAsciiAlphanumeric, isAsciiDigit, isAsciiUppercase, isAsciiLowercase, Bool.or_eq_true,
    decide_eq_true_eq] at h
  rcases h with (h | h) | h
  all_goals
    have hlow := toNat_le_of_le h.1
    have hhigh := toNat_le_of_le h.2
    simp only [Char.reduceToNat] at hlow hhigh
    omega

/-- A character of a host or a port. -/
def isHostChar (c : Char) : Bool :=
  isAsciiAlphanumeric c || c = '-' || c = '.' || c = ':' || c = '[' || c = ']'

theorem printed_of_host {c : Char} (h : isHostChar c = true) : isWhitespace c = false ∧ isControl c = false := by
  simp only [isHostChar, Bool.or_eq_true, decide_eq_true_eq] at h
  rcases h with ((((h | rfl) | rfl) | rfl) | rfl) | rfl
  · obtain ⟨hlow, hhigh⟩ := range_of_alphanumeric h
    exact printed_of_range (by omega) (by omega)
  all_goals decide

theorem isToken_iff {cs : List Char} :
    isToken cs = true ↔ cs ≠ [] ∧ ∀ c ∈ cs, isWhitespace c = false ∧ isControl c = false := by
  unfold isToken
  simp

/-! ### URLs -/

/-- What ends an authority. -/
def endsAuthority (c : Char) : Bool := c = '/' || c = '?' || c = '#'

/-- `https://` with an authority of host and port characters, and nothing behind it or what starts with `/`, `?` or
`#`. -/
structure UrlCitation where
  authority : List Char
  rest : List Char
  nonempty : authority ≠ []
  host : ∀ c ∈ authority, isHostChar c = true
  start : ∀ c ∈ rest.head?, endsAuthority c = true
  printed : ∀ c ∈ rest, isWhitespace c = false ∧ isControl c = false

namespace UrlCitation

def text (u : UrlCitation) : List Char := "https://".toList ++ (u.authority ++ u.rest)

theorem not_ends_of_host {c : Char} (h : isHostChar c = true) : endsAuthority c = false := by
  simp only [isHostChar, Bool.or_eq_true, decide_eq_true_eq] at h
  rcases h with ((((h | rfl) | rfl) | rfl) | rfl) | rfl
  · obtain ⟨hlow, hhigh⟩ := range_of_alphanumeric h
    unfold endsAuthority
    simp only [Bool.or_eq_false_iff, decide_eq_false_iff_not]
    refine ⟨⟨?_, ?_⟩, ?_⟩
    all_goals
      rintro rfl
      revert h
      decide
  all_goals decide

/-- The authority is what comes before the first character that ends it. -/
theorem takeWhile_authority (u : UrlCitation) :
    (u.authority ++ u.rest).takeWhile (fun c => !endsAuthority c) = u.authority ∧
      (u.authority ++ u.rest).dropWhile (fun c => !endsAuthority c) = u.rest := by
  have hall : ∀ c ∈ u.authority, (!endsAuthority c) = true := fun c hc => by
    rw [not_ends_of_host (u.host c hc)]
    rfl
  have hrest : u.rest.takeWhile (fun c => !endsAuthority c) = [] ∧ u.rest.dropWhile (fun c => !endsAuthority c) = u.rest := by
    have hstart := u.start
    cases hcs : u.rest with
    | nil => exact ⟨rfl, rfl⟩
    | cons c cs =>
      rw [hcs] at hstart
      have hc : endsAuthority c = true := hstart c rfl
      simp [hc]
  rw [List.takeWhile_append_of_pos hall, List.dropWhile_append_of_pos hall, hrest.1, hrest.2, List.append_nil]
  exact ⟨rfl, rfl⟩

theorem text_injective : Function.Injective text := by
  intro u v h
  have hbody : u.authority ++ u.rest = v.authority ++ v.rest := List.append_cancel_left h
  obtain ⟨hauthority, hrest⟩ := u.takeWhile_authority
  obtain ⟨hauthority', hrest'⟩ := v.takeWhile_authority
  rw [hbody] at hauthority hrest
  cases u
  cases v
  obtain rfl := hauthority.symm.trans hauthority'
  obtain rfl := hrest.symm.trans hrest'
  rfl

end UrlCitation

theorem isUrlCitation_iff {cs : List Char} : isUrlCitation cs = true ↔ ∃ u : UrlCitation, u.text = cs := by
  unfold isUrlCitation
  constructor
  · intro h
    split at h
    · cases h
    · next rest hrest =>
      obtain rfl := stripPrefix_eq_some.mp hrest
      simp only [Bool.and_eq_true, decide_eq_true_eq] at h
      obtain ⟨⟨htoken, hnonempty⟩, hhost⟩ := h
      have hprinted := (isToken_iff.mp htoken).2
      refine ⟨⟨rest.takeWhile fun c => !endsAuthority c, rest.dropWhile fun c => !endsAuthority c, hnonempty,
        List.all_eq_true.mp hhost, fun c hc => ?_, fun c hc => hprinted c ((List.dropWhile_sublist _).subset hc)⟩, ?_⟩
      · have := List.head?_dropWhile_not (fun c => !endsAuthority c) rest
        rw [hc] at this
        simpa using this
      · unfold UrlCitation.text
        rw [List.takeWhile_append_dropWhile]
  · rintro ⟨u, rfl⟩
    have hstrip : stripPrefix "https://".toList u.text = some (u.authority ++ u.rest) := stripPrefix_eq_some.mpr rfl
    rw [hstrip]
    have hauthority := u.takeWhile_authority.1
    unfold endsAuthority at hauthority
    simp only [hauthority, Bool.and_eq_true, decide_eq_true_eq]
    refine ⟨⟨isToken_iff.mpr ⟨fun h => u.nonempty (List.append_eq_nil_iff.mp h).1, fun c hc => ?_⟩, u.nonempty⟩,
      List.all_eq_true.mpr u.host⟩
    exact (List.mem_append.mp hc).elim (fun h => printed_of_host (u.host c h)) (u.printed c)

/-! ### Line spans -/

/-- The number a string of decimal digits denotes. -/
def decimalValue (cs : List Char) : ℕ := cs.foldl (fun n c => 10 * n + (c.toNat - '0'.toNat)) 0

theorem parseU64_of_digits {cs : List Char} (hnonempty : cs ≠ []) (hdigits : cs.all isAsciiDigit = true) :
    parseU64 cs = if decimalValue cs < 2 ^ 64 then some (decimalValue cs) else none := by
  unfold parseU64 decimalValue
  rw [if_pos ⟨hnonempty, hdigits⟩]

/-- Decimal digits of a number from 1 that fits 64 bits. -/
structure LineNumber (cs : List Char) : Prop where
  nonempty : cs ≠ []
  digits : ∀ c ∈ cs, isAsciiDigit c = true
  pos : 1 ≤ decimalValue cs
  fits : decimalValue cs < 2 ^ 64

theorem LineNumber.parse {cs : List Char} (h : LineNumber cs) : parseU64 cs = some (decimalValue cs) := by
  rw [parseU64_of_digits h.nonempty (List.all_eq_true.mpr h.digits), if_pos h.fits]

theorem isLine_iff {cs : List Char} : isLine cs = true ↔ LineNumber cs := by
  unfold isLine
  simp only [Bool.and_eq_true, decide_eq_true_eq]
  constructor
  · rintro ⟨⟨hnonempty, hdigits⟩, hvalue⟩
    rw [parseU64_of_digits hnonempty hdigits] at hvalue
    split_ifs at hvalue with hfits
    exact ⟨hnonempty, List.all_eq_true.mp hdigits, of_decide_eq_true hvalue, hfits⟩
  · intro h
    rw [h.parse]
    exact ⟨⟨h.nonempty, List.all_eq_true.mpr h.digits⟩, decide_eq_true h.pos⟩

theorem not_mem_of_digits {cs : List Char} (h : ∀ c ∈ cs, isAsciiDigit c = true) {sep : Char}
    (hsep : isAsciiDigit sep = false) : sep ∉ cs := fun hmem => by
  rw [h sep hmem] at hsep
  cases hsep

/-- A line, or two in their order. -/
structure LineSpan where
  first : List Char
  last : Option (List Char)
  first_line : LineNumber first
  last_line : ∀ n ∈ last, LineNumber n
  ordered : ∀ n ∈ last, decimalValue first ≤ decimalValue n

/-- A character of a span. -/
def isSpanChar (c : Char) : Bool := isAsciiDigit c || c = '-'

namespace LineSpan

def text (s : LineSpan) : List Char := s.first ++ s.last.elim [] fun n => '-' :: n

theorem spanChar_text (s : LineSpan) : ∀ c ∈ s.text, isSpanChar c = true := by
  intro c hc
  unfold isSpanChar
  rw [Bool.or_eq_true, decide_eq_true_eq]
  rcases List.mem_append.mp hc with hc | hc
  · exact .inl (s.first_line.digits c hc)
  · cases hlast : s.last with
    | none =>
      rw [hlast] at hc
      exact absurd hc List.not_mem_nil
    | some n =>
      rw [hlast] at hc
      exact (List.mem_cons.mp hc).elim .inr fun h => .inl ((s.last_line n hlast).digits c h)

theorem not_dash_first (s : LineSpan) : '-' ∉ s.first := not_mem_of_digits s.first_line.digits (by decide)

theorem text_injective : Function.Injective text := by
  rintro ⟨first, last, hfirst, hlast, hordered⟩ ⟨first', last', hfirst', hlast', hordered'⟩ h
  have hdash : '-' ∉ first := not_mem_of_digits hfirst.digits (by decide)
  have hdash' : '-' ∉ first' := not_mem_of_digits hfirst'.digits (by decide)
  simp only [text] at h
  cases last with
  | none =>
    cases last' with
    | none =>
      obtain rfl : first = first' := by simpa using h
      rfl
    | some n' =>
      rw [Option.elim_none, List.append_nil, Option.elim_some] at h
      exact absurd (h ▸ List.mem_append_right _ List.mem_cons_self) hdash
  | some n =>
    cases last' with
    | none =>
      rw [Option.elim_none, List.append_nil, Option.elim_some] at h
      exact absurd (h ▸ List.mem_append_right _ List.mem_cons_self) hdash'
    | some n' =>
      obtain ⟨rfl, rfl⟩ := Lines.field_inj hdash hdash' h
      rfl

end LineSpan

theorem isLineSpan_iff {cs : List Char} : isLineSpan cs = true ↔ ∃ s : LineSpan, s.text = cs := by
  unfold isLineSpan
  constructor
  · intro h
    split at h
    · exact ⟨⟨cs, none, isLine_iff.mp h, fun _ hn => (nomatch hn), fun _ hn => (nomatch hn)⟩, List.append_nil cs⟩
    · next a b hsplit =>
      simp only [Bool.and_eq_true] at h
      obtain ⟨⟨ha, hb⟩, hordered⟩ := h
      have ha := isLine_iff.mp ha
      have hb := isLine_iff.mp hb
      rw [ha.parse, hb.parse] at hordered
      refine ⟨⟨a, some b, ha, fun n hn => ?_, fun n hn => ?_⟩, (splitOnce_eq_some.mp hsplit).1.symm⟩
      · obtain rfl := Option.mem_some.mp hn
        exact hb
      · obtain rfl := Option.mem_some.mp hn
        exact of_decide_eq_true hordered
  · rintro ⟨s, rfl⟩
    unfold LineSpan.text
    cases hlast : s.last with
    | none =>
      rw [Option.elim_none, List.append_nil, splitOnce_eq_none.mpr s.not_dash_first]
      exact isLine_iff.mpr s.first_line
    | some n =>
      have hline := s.last_line n hlast
      rw [Option.elim_some, splitOnce_eq_some.mpr ⟨rfl, s.not_dash_first⟩]
      simp only [s.first_line.parse, hline.parse, Bool.and_eq_true]
      exact ⟨⟨isLine_iff.mpr s.first_line, isLine_iff.mpr hline⟩, decide_eq_true (s.ordered n hlast)⟩

/-! ### Repository citations -/

/-- A path and the span behind it.  The segment after the last colon of what is located is the span where it holds
only digits and dashes. -/
structure Located where
  path : List Char
  span : Option LineSpan
  token : isToken path = true
  path_end : span = none → ∀ before last, path = before ++ ':' :: last → ¬∀ c ∈ last, isSpanChar c = true

namespace Located

def text (l : Located) : List Char := l.path ++ l.span.elim [] fun s => ':' :: s.text

theorem not_colon {cs : List Char} (h : ∀ c ∈ cs, isSpanChar c = true) : ':' ∉ cs := fun hmem =>
  absurd (h ':' hmem) (by decide)

/-- A path without a span is not a path with one. -/
theorem path_ne {l l' : Located} (hnone : l.span = none) {s : LineSpan} : l.path ≠ l'.path ++ ':' :: s.text :=
  fun h => l.path_end hnone _ _ h s.spanChar_text

theorem text_injective : Function.Injective text := by
  intro l l' h
  unfold text at h
  cases hspan : l.span with
  | none =>
    cases hspan' : l'.span with
    | none =>
      rw [hspan, hspan', Option.elim_none, List.append_nil, List.append_nil] at h
      cases l
      cases l'
      cases hspan
      cases hspan'
      cases h
      rfl
    | some s' =>
      rw [hspan, hspan', Option.elim_none, List.append_nil, Option.elim_some] at h
      exact absurd h (path_ne hspan)
  | some s =>
    cases hspan' : l'.span with
    | none =>
      rw [hspan, hspan', Option.elim_none, List.append_nil, Option.elim_some] at h
      exact absurd h.symm (path_ne hspan')
    | some s' =>
      rw [hspan, hspan', Option.elim_some, Option.elim_some] at h
      obtain ⟨hpath, htext⟩ := rsplit_unique (not_colon s.spanChar_text) (not_colon s'.spanChar_text) h
      obtain rfl := LineSpan.text_injective htext
      cases l
      cases l'
      cases hspan
      cases hspan'
      cases hpath
      rfl

/-- A last segment of digits and dashes is the span. -/
theorem span_of_text (l : Located) {before last : List Char} (hlast : ∀ c ∈ last, isSpanChar c = true)
    (h : l.text = before ++ ':' :: last) : ∃ s, l.span = some s ∧ l.path = before ∧ s.text = last := by
  unfold text at h
  cases hspan : l.span with
  | none =>
    rw [hspan, Option.elim_none, List.append_nil] at h
    exact absurd hlast (l.path_end hspan before last h)
  | some s =>
    rw [hspan, Option.elim_some] at h
    obtain ⟨hpath, htext⟩ := rsplit_unique (not_colon s.spanChar_text) (not_colon hlast) h
    exact ⟨s, rfl, hpath, htext⟩

end Located

theorem isLocated_iff {cs : List Char} : isLocated cs = true ↔ ∃ l : Located, l.text = cs := by
  unfold isLocated
  constructor
  · intro h
    split at h
    · next path span hsplit =>
      obtain ⟨rfl, hcolon⟩ := rsplitOnce_eq_some.mp hsplit
      split at h
      · next hspan =>
        obtain ⟨hline, htoken⟩ := Bool.and_eq_true_iff.mp h
        obtain ⟨s, rfl⟩ := isLineSpan_iff.mp hline
        exact ⟨⟨path, some s, htoken, fun hnone => (nomatch hnone)⟩, rfl⟩
      · next hspan =>
        refine ⟨⟨path ++ ':' :: span, none, h, fun _ before last heq hlast => hspan ?_⟩, List.append_nil _⟩
        obtain ⟨-, rfl⟩ := rsplit_unique hcolon (Located.not_colon hlast) heq
        exact List.all_eq_true.mpr hlast
    · next hsplit =>
      refine ⟨⟨cs, none, h, fun _ before last heq _ => ?_⟩, List.append_nil cs⟩
      exact rsplitOnce_eq_none.mp hsplit (heq ▸ List.mem_append_right _ List.mem_cons_self)
  · rintro ⟨l, rfl⟩
    unfold Located.text
    cases hspan : l.span with
    | none =>
      rw [Option.elim_none, List.append_nil]
      split
      · next path span hsplit =>
        have hlast : ¬span.all isSpanChar = true := fun hall =>
          l.path_end hspan path span (rsplitOnce_eq_some.mp hsplit).1 (List.all_eq_true.mp hall)
        exact (if_neg hlast).trans l.token
      · exact l.token
    | some s =>
      have hsplit : rsplitOnce ':' (l.path ++ ':' :: s.text) = some (l.path, s.text) :=
        rsplitOnce_eq_some.mpr ⟨rfl, Located.not_colon s.spanChar_text⟩
      have hall : s.text.all isSpanChar = true := List.all_eq_true.mpr s.spanChar_text
      rw [Option.elim_some, hsplit]
      exact (if_pos hall).trans (Bool.and_eq_true_iff.mpr ⟨isLineSpan_iff.mpr ⟨s, rfl⟩, l.token⟩)

/-- `<owner>/<repo>@<sha>:<path>[:<line>[-<line>]]`. -/
structure RepoCitation where
  owner : List Char
  name : List Char
  sha : List Char
  located : Located
  owner_ident : isIdent owner = true
  name_ident : isIdent name = true
  sha_hex : ∀ c ∈ sha, isAsciiHexdigit c = true
  sha_length : 7 ≤ sha.length ∧ sha.length ≤ 40

theorem not_mem_of_ident {cs : List Char} (h : isIdent cs = true) {sep : Char}
    (hsep : (isAsciiAlphanumeric sep || sep = '-' || sep = '_' || sep = '.') = false) : sep ∉ cs := fun hmem => by
  have hall := List.all_eq_true.mp (Bool.and_eq_true_iff.mp h).2 sep hmem
  rw [hsep] at hall
  cases hall

theorem utf8Size_of_hex {c : Char} (h : isAsciiHexdigit c = true) : c.utf8Size = 1 := by
  have hle : c.toNat ≤ 127 := by
    simp only [isAsciiHexdigit, isAsciiDigit, Bool.or_eq_true, decide_eq_true_eq] at h
    rcases h with (h | h) | h
    all_goals
      have hhigh := toNat_le_of_le h.2
      simp only [Char.reduceToNat] at hhigh
      omega
  exact Char.utf8Size_eq_one_iff.mpr (UInt32.le_iff_toNat_le.mpr hle)

/-- A hexadecimal text has as many bytes as characters. -/
theorem utf8Len_of_hex {cs : List Char} (h : ∀ c ∈ cs, isAsciiHexdigit c = true) : utf8Len cs = cs.length := by
  unfold utf8Len
  rw [List.map_congr_left fun c hc => utf8Size_of_hex (h c hc)]
  simp

namespace RepoCitation

def text (r : RepoCitation) : List Char := (r.owner ++ '/' :: r.name) ++ '@' :: (r.sha ++ ':' :: r.located.text)

theorem not_slash (r : RepoCitation) : '/' ∉ r.owner := not_mem_of_ident r.owner_ident (by decide)

theorem not_at (r : RepoCitation) : '@' ∉ r.owner ++ '/' :: r.name := by
  rw [List.mem_append, List.mem_cons, not_or, not_or]
  exact ⟨not_mem_of_ident r.owner_ident (by decide), by decide, not_mem_of_ident r.name_ident (by decide)⟩

theorem not_colon (r : RepoCitation) : ':' ∉ r.sha := fun hmem => absurd (r.sha_hex ':' hmem) (by decide)

theorem text_injective : Function.Injective text := by
  intro r r' h
  obtain ⟨hrepo, hrest⟩ := Lines.field_inj r.not_at r'.not_at h
  obtain ⟨howner, hname⟩ := Lines.field_inj r.not_slash r'.not_slash hrepo
  obtain ⟨hsha, hlocated⟩ := Lines.field_inj r.not_colon r'.not_colon hrest
  have hlocated := Located.text_injective hlocated
  cases r
  cases r'
  cases howner
  cases hname
  cases hsha
  cases hlocated
  rfl

end RepoCitation

theorem isRepoCitation_iff {cs : List Char} : isRepoCitation cs = true ↔ ∃ r : RepoCitation, r.text = cs := by
  unfold isRepoCitation
  constructor
  · intro h
    split at h
    · cases h
    · next repo rest hat =>
      obtain ⟨rfl, -⟩ := splitOnce_eq_some.mp hat
      split at h
      · cases h
      · next owner name hslash =>
        obtain ⟨rfl, -⟩ := splitOnce_eq_some.mp hslash
        simp only [Bool.and_eq_true] at h
        obtain ⟨⟨howner, hname⟩, h⟩ := h
        split at h
        · cases h
        · next sha located hcolon =>
          obtain ⟨rfl, -⟩ := splitOnce_eq_some.mp hcolon
          simp only [Bool.and_eq_true, decide_eq_true_eq, List.all_eq_true] at h
          obtain ⟨⟨hlength, hhex⟩, hlocated⟩ := h
          obtain ⟨l, rfl⟩ := isLocated_iff.mp hlocated
          rw [utf8Len_of_hex hhex] at hlength
          exact ⟨⟨owner, name, sha, l, howner, hname, hhex, hlength⟩, rfl⟩
  · rintro ⟨r, rfl⟩
    unfold RepoCitation.text
    rw [splitOnce_eq_some.mpr ⟨rfl, r.not_at⟩]
    dsimp only
    rw [splitOnce_eq_some.mpr ⟨rfl, r.not_slash⟩]
    dsimp only
    rw [splitOnce_eq_some.mpr ⟨rfl, r.not_colon⟩]
    simp only [Bool.and_eq_true, decide_eq_true_eq, List.all_eq_true, utf8Len_of_hex r.sha_hex]
    exact ⟨⟨r.owner_ident, r.name_ident⟩, ⟨r.sha_length, r.sha_hex⟩, isLocated_iff.mpr ⟨r.located, rfl⟩⟩

/-! ### Citations -/

/-- A way to read a citation. -/
inductive Reading where
  | url (u : UrlCitation)
  | repo (r : RepoCitation)

namespace Reading

def text : Reading → List Char
  | url u => u.text
  | repo r => r.text

/-- A URL has a colon before its first slash, and an identifier has none. -/
theorem url_ne_owner (u : UrlCitation) {owner rest : List Char} (howner : isIdent owner = true) :
    u.text ≠ owner ++ '/' :: rest := by
  intro h
  have hslash : '/' ∉ "https:".toList := by decide
  have hsplit : "https:".toList ++ '/' :: '/' :: (u.authority ++ u.rest) = owner ++ '/' :: rest := h
  obtain ⟨rfl, -⟩ := Lines.field_inj hslash (not_mem_of_ident howner (by decide)) hsplit
  revert howner
  decide

theorem url_ne_repo (u : UrlCitation) (r : RepoCitation) : u.text ≠ r.text := by
  unfold RepoCitation.text
  rw [List.append_assoc, List.cons_append]
  exact url_ne_owner u r.owner_ident

theorem text_injective : Function.Injective text := by
  intro a b h
  cases a with
  | url u =>
    cases b with
    | url v => exact congrArg url (UrlCitation.text_injective h)
    | repo r => exact absurd h (url_ne_repo u r)
  | repo r =>
    cases b with
    | url v => exact absurd h.symm (url_ne_repo v r)
    | repo r' => exact congrArg repo (RepoCitation.text_injective h)

end Reading

theorem validateCitations_one (c : String) : validateCitations (.array [.string c]) = .ok () ↔
    c.length ≤ maxCitationLen ∧ (isUrlCitation c.toList = true ∨ isRepoCitation c.toList = true) := by
  have hone : validateCitations (.array [.string c]) = validateCitation 0 (.string c) := by
    show (validateCitation 0 (.string c) >>= fun _ => .ok ()) = _
    cases validateCitation 0 (.string c) <;> rfl
  rw [hone]
  unfold validateCitation
  dsimp only [Value.asStr]
  split_ifs with hlong hneither
  · exact ⟨fun h => (nomatch h), fun h => absurd h.1 (Nat.not_le.mpr hlong)⟩
  · rw [Bool.and_eq_true, Bool.not_eq_true', Bool.not_eq_true'] at hneither
    refine ⟨fun h => (nomatch h), fun h => ?_⟩
    rw [hneither.1, hneither.2] at h
    exact h.2.elim (fun h => (nomatch h)) fun h => (nomatch h)
  · refine ⟨fun _ => ⟨Nat.not_lt.mp hlong, ?_⟩, fun _ => rfl⟩
    rw [Bool.and_eq_true, Bool.not_eq_true', Bool.not_eq_true', not_and_or, Bool.not_eq_false, Bool.not_eq_false]
      at hneither
    exact hneither

/-- **The citations that are accepted are those that can be read, each in one way.**  What follows the last colon of
a repository citation's location and holds only digits and dashes is its span: it is accepted only where it is a
line or two in their order. -/
theorem citation_accepted_iff (c : String) :
    (validateCitations (.array [.string c]) = .ok () ↔
      c.length ≤ maxCitationLen ∧ ∃ r : Reading, r.text = c.toList) ∧
    (∀ r r' : Reading, r.text = c.toList → r'.text = c.toList → r = r') ∧
    ∀ owner name sha before last : List Char, isIdent owner = true → '@' ∉ name → ':' ∉ sha →
      (∀ d ∈ last, isSpanChar d = true) →
      c.toList = (owner ++ '/' :: name) ++ '@' :: (sha ++ ':' :: (before ++ ':' :: last)) →
      validateCitations (.array [.string c]) = .ok () →
      ∃ (r : RepoCitation) (s : LineSpan), r.text = c.toList ∧ r.located.path = before ∧ r.located.span = some s ∧
        s.text = last := by
  have haccepted : validateCitations (.array [.string c]) = .ok () ↔
      c.length ≤ maxCitationLen ∧ ∃ r : Reading, r.text = c.toList := by
    rw [validateCitations_one, isUrlCitation_iff, isRepoCitation_iff]
    refine and_congr_right fun _ => ⟨?_, ?_⟩
    · rintro (⟨u, hu⟩ | ⟨r, hr⟩)
      exacts [⟨.url u, hu⟩, ⟨.repo r, hr⟩]
    · rintro ⟨u | r, h⟩
      exacts [.inl ⟨u, h⟩, .inr ⟨r, h⟩]
  refine ⟨haccepted, fun r r' hr hr' => Reading.text_injective (hr.trans hr'.symm), ?_⟩
  intro owner name sha before last howner hname hsha hlast htext hok
  obtain ⟨-, reading, hreading⟩ := haccepted.mp hok
  cases reading with
  | url u =>
    rw [htext, List.append_assoc, List.cons_append] at hreading
    exact absurd hreading (Reading.url_ne_owner u howner)
  | repo r =>
    have hat : '@' ∉ owner ++ '/' :: name := by
      rw [List.mem_append, List.mem_cons, not_or, not_or]
      exact ⟨not_mem_of_ident howner (by decide), by decide, hname⟩
    obtain ⟨-, hrest⟩ := Lines.field_inj r.not_at hat (hreading.trans htext)
    obtain ⟨-, hlocated⟩ := Lines.field_inj r.not_colon hsha hrest
    obtain ⟨s, hspan, hpath, rfl⟩ := r.located.span_of_text hlast hlocated
    exact ⟨r, s, hreading, hpath, hspan, rfl⟩

end Alaya
