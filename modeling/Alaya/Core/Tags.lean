import Alaya.Lib.Trim
import Alaya.Types.Citation

/-!
# Tags as a request gives them

`deserializeTags` takes a JSON array of strings, the text of one, or a text with commas, and keeps the trimmed
tags, none of them empty, each where it occurs first.  The three forms of one list give the same tags
(`tags_canonical`).  How `serde_json` reads a text as an array of strings is a parameter.
-/

namespace Alaya

open Json

/-- The strings that are neither empty nor seen before. -/
def keepFirst (seen : List String) : List String → List String
  | [] => []
  | s :: rest => if s ≠ "" ∧ s ∉ seen then s :: keepFirst (s :: seen) rest else keepFirst seen rest

/-- Trim, and keep the first of equal tags. -/
def dedupTags (iter : List String) : Option (List String) :=
  let v := keepFirst [] (iter.map trim)
  if v.isEmpty then none else some v

/-- No form of a request's tags. -/
def tagsUntagged : String := "data did not match any variant of untagged enum StringOrVec"

/-- Accept `["a","b"]`, `"a, b"`, or `null`. -/
def deserializeTags (fromStr : String → Option (List String)) : Value → Except String (Option (List String))
  | .null => .ok none
  | .array items => match items.mapM Value.asStr with
    | some v => .ok (dedupTags v)
    | none => .error tagsUntagged
  | .string s =>
    let t := trim s
    -- A text that starts like an array and is none is split all the same.
    match if t.toList.head? = some '[' then fromStr t else none with
    | some v => .ok (dedupTags v)
    | none => .ok (dedupTags ((t.toList.splitOn ',').map String.ofList))
  | _ => .error tagsUntagged

/-- What is relied on of the reader of JSON: an array starts with its bracket, and blanks around it mean nothing. -/
structure ReadsArrays (fromStr : String → Option (List String)) : Prop where
  opens : ∀ text v, fromStr text = some v → (trim text).toList.head? = some '['
  blanks : ∀ text v, fromStr text = some v → fromStr (trim text) = some v

/-- A text that holds the tags between its commas, with blanks around them. -/
def HoldsTags (tags : List String) (text : String) : Prop :=
  ∃ pieces : List (List Char), text.toList = [','].intercalate pieces ∧ (∀ q ∈ pieces, ',' ∉ q) ∧
    pieces.map (fun q => trim (String.ofList q)) = tags.map trim

/-- A text that is read as an array of tags. -/
def LooksLikeArray (fromStr : String → Option (List String)) (text : String) : Prop :=
  (trim text).toList.head? = some '[' ∧ (fromStr (trim text)).isSome = true

/-! ### Trimmed texts -/

theorem trim_eq (s : String) : trim s = String.ofList (Trim.trim isWhitespace s.toList) := rfl

@[simp] theorem trim_trim (s : String) : trim (trim s) = trim s := by
  rw [trim_eq, trim_eq, String.toList_ofList, Trim.trim_trim]

/-- The pieces of a text, trimmed, are those of the trimmed text. -/
theorem map_trim_pieces (s : String) : (((trim s).toList.splitOn ',').map String.ofList).map trim =
    ((s.toList.splitOn ',').map String.ofList).map trim := by
  have hmap : ∀ pieces : List (List Char), (pieces.map String.ofList).map trim =
      (pieces.map (Trim.trim isWhitespace)).map String.ofList := by
    intro pieces
    rw [List.map_map, List.map_map]
    refine List.map_congr_left fun q _ => ?_
    show trim (String.ofList q) = _
    rw [trim_eq, String.toList_ofList]
    rfl
  rw [hmap, hmap, trim_eq, String.toList_ofList, Trim.map_trim_splitOn (by decide)]

/-! ### The first of equal strings -/

theorem mem_keepFirst {seen strings : List String} {t : String} :
    t ∈ keepFirst seen strings ↔ t ≠ "" ∧ t ∉ seen ∧ t ∈ strings := by
  induction strings generalizing seen with
  | nil => simp [keepFirst]
  | cons s rest ih =>
    unfold keepFirst
    split_ifs with hs
    · rw [List.mem_cons, ih, List.mem_cons, List.mem_cons]
      by_cases heq : t = s
      · subst heq
        exact ⟨fun _ => ⟨hs.1, hs.2, .inl rfl⟩, fun _ => .inl rfl⟩
      · simp only [heq, false_or]
    · rw [ih, List.mem_cons]
      constructor
      · exact fun h => ⟨h.1, h.2.1, .inr h.2.2⟩
      · rintro ⟨hempty, hseen, rfl | hrest⟩
        exacts [absurd ⟨hempty, hseen⟩ hs, ⟨hempty, hseen, hrest⟩]

/-- What is kept stands in the order of the first occurrences. -/
theorem pairwise_keepFirst (seen strings : List String) :
    (keepFirst seen strings).Pairwise fun a b => strings.idxOf a < strings.idxOf b := by
  induction strings generalizing seen with
  | nil => exact List.Pairwise.nil
  | cons s rest ih =>
    have hshift : ∀ {a : String}, a ≠ s → (s :: rest).idxOf a = rest.idxOf a + 1 := fun hne =>
      List.idxOf_cons_ne _ hne.symm
    unfold keepFirst
    split_ifs with hs
    · have hne : ∀ {a : String}, a ∈ keepFirst (s :: seen) rest → a ≠ s := fun ha heq =>
        (mem_keepFirst.mp ha).2.1 (heq ▸ List.mem_cons_self)
      refine List.pairwise_cons.mpr ⟨fun b hb => ?_, (ih _).imp_of_mem fun ha hb hlt => ?_⟩
      · rw [List.idxOf_cons_self, hshift (hne hb)]
        exact Nat.succ_pos _
      · rw [hshift (hne ha), hshift (hne hb)]
        exact Nat.succ_lt_succ hlt
    · have hne : ∀ {a : String}, a ∈ keepFirst seen rest → a ≠ s := fun ha heq =>
        hs (heq ▸ ⟨(mem_keepFirst.mp ha).1, (mem_keepFirst.mp ha).2.1⟩)
      refine (ih _).imp_of_mem fun ha hb hlt => ?_
      rw [hshift (hne ha), hshift (hne hb)]
      exact Nat.succ_lt_succ hlt

theorem nodup_keepFirst (seen strings : List String) : (keepFirst seen strings).Nodup :=
  (pairwise_keepFirst seen strings).imp fun hlt heq => by
    rw [heq] at hlt
    exact Nat.lt_irrefl _ hlt

/-- Strings that are all kept. -/
theorem keepFirst_eq_self {seen strings : List String} (hempty : "" ∉ strings) (hnodup : strings.Nodup)
    (hseen : ∀ t ∈ strings, t ∉ seen) : keepFirst seen strings = strings := by
  induction strings generalizing seen with
  | nil => rfl
  | cons s rest ih =>
    rw [List.mem_cons, not_or] at hempty
    obtain ⟨hs, hrest⟩ := List.nodup_cons.mp hnodup
    unfold keepFirst
    rw [if_pos ⟨fun h => hempty.1 h.symm, hseen s List.mem_cons_self⟩, ih hempty.2 hrest]
    intro t ht
    rw [List.mem_cons, not_or]
    exact ⟨fun heq => hs (heq ▸ ht), hseen t (List.mem_cons_of_mem _ ht)⟩

/-! ### The three forms -/

theorem getD_dedupTags (tags : List String) : (dedupTags tags).getD [] = keepFirst [] (tags.map trim) := by
  unfold dedupTags
  dsimp only
  split_ifs with hempty
  · exact (List.isEmpty_iff.mp hempty).symm
  · rfl

/-- Without a tag there is no list. -/
theorem dedupTags_ne (tags : List String) : dedupTags tags ≠ some [] := by
  unfold dedupTags
  dsimp only
  split_ifs with hempty
  · exact nofun
  · exact fun h => hempty (List.isEmpty_iff.mpr (Option.some.inj h))

theorem dedupTags_eq_of_getD {tags tags' : List String} (h : (dedupTags tags).getD [] = (dedupTags tags').getD []) :
    dedupTags tags = dedupTags tags' := by
  have hne := dedupTags_ne tags
  have hne' := dedupTags_ne tags'
  cases ho : dedupTags tags with
  | none =>
    cases ho' : dedupTags tags' with
    | none => rfl
    | some v' =>
      rw [ho, ho'] at h
      exact absurd (ho'.trans (congrArg some h.symm)) hne'
  | some v =>
    cases ho' : dedupTags tags' with
    | none =>
      rw [ho, ho'] at h
      exact absurd (ho.trans (congrArg some h)) hne
    | some v' =>
      rw [ho, ho'] at h
      exact congrArg some h

/-- The tags of a list depend on its trimmed strings. -/
theorem dedupTags_congr {tags tags' : List String} (h : tags.map trim = tags'.map trim) :
    dedupTags tags = dedupTags tags' := by
  unfold dedupTags
  rw [h]

theorem deserializeTags_array (fromStr : String → Option (List String)) (tags : List String) :
    deserializeTags fromStr (.ofStrings tags) = .ok (dedupTags tags) := by
  have hread : (tags.map Value.string).mapM Value.asStr = some tags := by
    induction tags with
    | nil => rfl
    | cons s rest ih => simp [ih]
  unfold deserializeTags Value.ofStrings
  dsimp only
  rw [hread]

theorem deserializeTags_text {fromStr : String → Option (List String)} (hfrom : ReadsArrays fromStr) {text : String}
    {tags : List String} (h : fromStr text = some tags) :
    deserializeTags fromStr (.string text) = .ok (dedupTags tags) := by
  unfold deserializeTags
  dsimp only
  rw [if_pos (hfrom.opens text tags h), hfrom.blanks text tags h]

theorem deserializeTags_commas {fromStr : String → Option (List String)} {text : String} {tags : List String}
    (hholds : HoldsTags tags text) (hlooks : ¬LooksLikeArray fromStr text) :
    deserializeTags fromStr (.string text) = .ok (dedupTags tags) := by
  have hnone : (if (trim text).toList.head? = some '[' then fromStr (trim text) else none) = none := by
    split_ifs with hopen
    · exact Option.not_isSome_iff_eq_none.mp fun hsome => hlooks ⟨hopen, hsome⟩
    · rfl
  unfold deserializeTags
  dsimp only
  rw [hnone]
  obtain ⟨pieces, htext, hcomma, htags⟩ := hholds
  refine congrArg Except.ok ?_
  cases hpieces : pieces with
  | nil =>
    -- The empty text has one piece, an empty one.
    rw [hpieces] at htext htags
    obtain rfl : tags = [] := List.map_eq_nil_iff.mp htags.symm
    obtain rfl : text = "" := String.toList_injective htext
    rfl
  | cons q qs =>
    refine dedupTags_congr ?_
    rw [map_trim_pieces, htext, List.splitOn_intercalate ',' hcomma (by rw [hpieces]; exact List.cons_ne_nil _ _),
      List.map_map, ← htags]
    rfl

/-- **Tags are normal, and the same in each form.**  What is kept of a list of tags is trimmed, not empty, each
tag once and in the order of the first occurrences; a normal list is kept as it is; and the text of the list as a
JSON array, or with commas between the tags, gives the same tags. -/
theorem tags_canonical {fromStr : String → Option (List String)} (hfrom : ReadsArrays fromStr) (tags : List String) :
    ∃ result : Option (List String), deserializeTags fromStr (.ofStrings tags) = .ok result ∧ result ≠ some [] ∧
      (∀ t ∈ result.getD [], trim t = t ∧ t ≠ "") ∧ (result.getD []).Nodup ∧
      (∀ t, t ∈ result.getD [] ↔ t ≠ "" ∧ t ∈ tags.map trim) ∧
      ((result.getD []).Pairwise fun a b => (tags.map trim).idxOf a < (tags.map trim).idxOf b) ∧
      ((∀ t ∈ tags, trim t = t ∧ t ≠ "") → tags.Nodup → result.getD [] = tags) ∧
      deserializeTags fromStr (.ofStrings (result.getD [])) = .ok result ∧
      (∀ text, fromStr text = some tags → deserializeTags fromStr (.string text) = .ok result) ∧
      ∀ text, HoldsTags tags text → ¬LooksLikeArray fromStr text →
        deserializeTags fromStr (.string text) = .ok result := by
  have hmem : ∀ t, t ∈ (dedupTags tags).getD [] ↔ t ≠ "" ∧ t ∈ tags.map trim := by
    intro t
    rw [getD_dedupTags, mem_keepFirst]
    exact ⟨fun h => ⟨h.1, h.2.2⟩, fun h => ⟨h.1, List.not_mem_nil, h.2⟩⟩
  have hnormal : ∀ t ∈ (dedupTags tags).getD [], trim t = t ∧ t ≠ "" := by
    intro t ht
    obtain ⟨hempty, htags⟩ := (hmem t).mp ht
    obtain ⟨s, -, rfl⟩ := List.mem_map.mp htags
    exact ⟨trim_trim s, hempty⟩
  have hnodup : ((dedupTags tags).getD []).Nodup := by
    rw [getD_dedupTags]
    exact nodup_keepFirst _ _
  have hkept : ∀ tags : List String, (∀ t ∈ tags, trim t = t ∧ t ≠ "") → tags.Nodup →
      (dedupTags tags).getD [] = tags := by
    intro tags htags hnodup
    have htrim : tags.map trim = tags := (List.map_congr_left fun t ht => (htags t ht).1).trans (List.map_id _)
    rw [getD_dedupTags, htrim]
    exact keepFirst_eq_self (fun h => (htags "" h).2 rfl) hnodup fun _ _ => List.not_mem_nil
  refine ⟨dedupTags tags, deserializeTags_array fromStr tags, dedupTags_ne tags, hnormal, hnodup, hmem, ?order,
    hkept tags, ?again, fun text htext => deserializeTags_text hfrom htext,
    fun text hholds hlooks => deserializeTags_commas hholds hlooks⟩
  case order =>
    rw [getD_dedupTags]
    exact pairwise_keepFirst _ _
  case again =>
    rw [deserializeTags_array]
    exact congrArg Except.ok (dedupTags_eq_of_getD (hkept _ hnormal hnodup))

/-- The reader of one array. -/
def readsPair (text : String) : Option (List String) :=
  if trim text = "[\"b\", \" a\", \"b\"]" then some ["b", " a", "b"] else none

theorem readsPair_arrays : ReadsArrays readsPair where
  opens text v h := by
    unfold readsPair at h
    split_ifs at h with htrim
    rw [htrim]
    rfl
  blanks text v h := by
    unfold readsPair at h ⊢
    rwa [trim_trim]

/-- The three forms of a list with a blank and a repeat. -/
theorem tags_canonical_pair : ∃ result : Option (List String),
    deserializeTags readsPair (.ofStrings ["b", " a", "b"]) = .ok result ∧
    deserializeTags readsPair (.string " [\"b\", \" a\", \"b\"]") = .ok result ∧
    deserializeTags readsPair (.string "b, a,b ") = .ok result := by
  obtain ⟨result, hresult, -, -, -, -, -, -, -, htext, hcommas⟩ := tags_canonical readsPair_arrays ["b", " a", "b"]
  refine ⟨result, hresult, htext _ (by decide +kernel), hcommas _ ⟨["b".toList, " a".toList, "b ".toList], ?_, ?_, ?_⟩ ?_⟩
  · decide
  · decide
  · decide +kernel
  · exact fun h => absurd h.1 (by decide +kernel)

end Alaya
