import Alaya.Backends.Points
import Alaya.Lib.Run
import Alaya.Types.Error
import Mathlib.Data.Finset.Card

/-!
# The keyword backfill

A call scrolls through the points without a keyword vector and writes the vector of those with content, page
by page, while others delete and store memories.  The collection sets no vector of a point that is gone and
answers the whole request with a 404 then, after writing the rest; the call tries the points one by one.

Point ids are ordered, and there are finitely many of them.
-/

namespace Alaya

open Json Labelled

/-- The memories a backfill reads and writes in one request. -/
def keywordFillBatch : ℕ := 64

/-- A point with both its vectors; the keyword vector by the text its term weights are of. -/
structure StoredPoint where
  payload : Payload
  dense : List ℚ
  keyword : Option String

/-- The text a point is indexed by. -/
def StoredPoint.content (p : StoredPoint) : Option String := (p.payload.get "content").bind Value.asStr

abbrev Collection (ι : Type) := ι → Option StoredPoint

variable {ι : Type}

namespace Collection

/-- A point with content and no keyword vector. -/
def Fillable (c : Collection ι) (id : ι) : Prop :=
  ∃ p, c id = some p ∧ p.keyword = none ∧ p.content ≠ none

/-- The points of a request that are there. -/
def present (c : Collection ι) (points : List (ι × String)) : List ι :=
  (points.filter fun x => (c x.1).isSome).map Prod.fst

theorem mem_present {points : List (ι × String)} {id : ι} :
    id ∈ present c points ↔ id ∈ points.map Prod.fst ∧ (c id).isSome := by
  unfold present
  simp only [List.mem_map, List.mem_filter]
  constructor
  · rintro ⟨x, ⟨hx, hsome⟩, rfl⟩
    exact ⟨⟨x, hx, rfl⟩, hsome⟩
  · rintro ⟨⟨x, hx, rfl⟩, hsome⟩
    exact ⟨x, ⟨hx, hsome⟩, rfl⟩

end Collection

/-- The points of a page with content, and their texts. -/
def documents (page : List (ι × StoredPoint)) : List (ι × String) :=
  page.filterMap fun x => x.2.content.map fun text => (x.1, text)

theorem sublist_documents (page : List (ι × StoredPoint)) :
    ((documents page).map Prod.fst).Sublist (page.map Prod.fst) := by
  induction page with
  | nil => exact .slnil
  | cons x page ih =>
    unfold documents at ih ⊢
    cases hx : x.2.content with
    | none =>
      rw [List.filterMap_cons_none (by rw [hx]; rfl), List.map_cons]
      exact ih.cons _
    | some text =>
      rw [List.filterMap_cons_some (by rw [hx]; rfl), List.map_cons, List.map_cons]
      exact ih.cons_cons _

theorem mem_documents {page : List (ι × StoredPoint)} {id : ι} (h : id ∈ (documents page).map Prod.fst) :
    ∃ p, (id, p) ∈ page ∧ p.content ≠ none := by
  obtain ⟨y, hy, rfl⟩ := List.mem_map.mp h
  obtain ⟨x, hx, hdoc⟩ := List.mem_filterMap.mp hy
  obtain ⟨text, htext, rfl⟩ := Option.map_eq_some_iff.mp hdoc
  exact ⟨x.2, hx, by rw [htext]; exact Option.some_ne_none _⟩

theorem documents_of_mem {page : List (ι × StoredPoint)} {id : ι} {p : StoredPoint} (h : (id, p) ∈ page)
    (hcontent : p.content ≠ none) : id ∈ (documents page).map Prod.fst := by
  obtain ⟨text, htext⟩ := Option.ne_none_iff_exists'.mp hcontent
  exact List.mem_map.mpr ⟨(id, text), List.mem_filterMap.mpr ⟨(id, p), h, by rw [htext]; rfl⟩, rfl⟩

theorem length_documents_le (page : List (ι × StoredPoint)) : (documents page).length ≤ page.length :=
  List.length_filterMap_le _ _

/-! ### A call, and the others -/

/-- Where a call is: about to scroll from an offset, about to write the points of a page, trying them one by
one, or back with the number it wrote. -/
inductive FillPhase (ι : Type) where
  | scrolling (offset : Option ι) (written : ℕ)
  | writing (points : List (ι × String)) (next : Option ι) (written : ℕ)
  | retrying (left : List (ι × String)) (next : Option ι) (written : ℕ)
  | returned (result : Except AlayaError ℕ)

/-- What happens, with the points whose vector a request of the call set. -/
inductive FillEvent (ι : Type) where
  | scrolled
  | wrote (ids : List ι)
  | failed (ids : List ι)
  | deleted (id : ι)
  | stored (id : ι) (payload : Payload) (dense : List ℚ) (content : String)

/-- An exchange of the call with the collection. -/
def FillEvent.own : FillEvent ι → Bool
  | scrolled | wrote _ | failed _ => true
  | _ => false

/-- The points whose vector a run of a call set, each time it did. -/
def wroteIds (tr : List (FillEvent ι)) : List ι :=
  tr.flatMap fun
    | .wrote ids | .failed ids => ids
    | _ => []

/-- The points the others deleted in a run. -/
def deletedIds (tr : List (FillEvent ι)) : List ι :=
  tr.flatMap fun
    | .deleted id => [id]
    | _ => []

theorem wroteIds_concat (tr : List (FillEvent ι)) (e : FillEvent ι) :
    wroteIds (tr ++ [e]) = wroteIds tr ++ wroteIds [e] := List.flatMap_append

theorem deletedIds_concat (tr : List (FillEvent ι)) (e : FillEvent ι) :
    deletedIds (tr ++ [e]) = deletedIds tr ++ deletedIds [e] := List.flatMap_append

structure FillWorld (ι : Type) where
  collection : Collection ι
  phase : FillPhase ι

variable [LinearOrder ι]

/-- What the others do: a stored memory carries every vector. -/
inductive OtherStep (c : Collection ι) : FillEvent ι → Collection ι → Prop
  | deleted (id : ι) : OtherStep c (.deleted id) (Function.update c id none)
  | stored (id : ι) (payload : Payload) (dense : List ℚ) (content : String) :
      OtherStep c (.stored id payload dense content) (Function.update c id (some ⟨payload, dense, some content⟩))

namespace Collection

/-- Set the keyword vectors of the points that are there. -/
def setKeywords (points : List (ι × String)) (c : Collection ι) : Collection ι := fun id =>
  (c id).map fun p =>
    match points.find? fun x => x.1 = id with
    | some (_, text) => { p with keyword := some text }
    | none => p

end Collection

/-- A page of the points without a keyword vector: those from the offset on, in the order of their ids, and
the offset of the page after it. -/
structure LackingPage (c : Collection ι) (offset : Option ι) (limit : ℕ) (page : List (ι × StoredPoint))
    (next : Option ι) : Prop where
  sorted : (page.map Prod.fst).Pairwise (· < ·)
  found : ∀ x ∈ page, c x.1 = some x.2 ∧ x.2.keyword = none ∧ ∀ o, offset = some o → o ≤ x.1
  length_le : page.length ≤ limit
  complete : ∀ id p, c id = some p → p.keyword = none → (∀ o, offset = some o → o ≤ id) →
    (∀ n, next = some n → id < n) → (id, p) ∈ page
  more : ∀ n, next = some n → page.length = limit ∧ ∀ x ∈ page, x.1 < n

namespace FillPhase

/-- After the points of a page: the loop goes on while there is a page left and the limit is not reached. -/
def advance (limit written : ℕ) (next : Option ι) : FillPhase ι :=
  match next with
  | some n => if written < limit then scrolling (some n) written else returned (.ok written)
  | none => returned (.ok written)

/-- After a page: no request is made for no point. -/
def afterPage (limit written : ℕ) (points : List (ι × String)) (next : Option ι) : FillPhase ι :=
  if points = [] then advance limit written next else writing points next written

def afterRetry (limit written : ℕ) (left : List (ι × String)) (next : Option ι) : FillPhase ι :=
  if left = [] then advance limit written next else retrying left next written

end FillPhase

namespace FillWorld

open Collection FillPhase

def start (limit : ℕ) (c : Collection ι) : FillWorld ι :=
  ⟨c, if 0 < limit then scrolling none 0 else returned (.ok 0)⟩

/-- One request of a call, or one step of the others.  A request that fails may have set some of its
vectors. -/
inductive Step (limit : ℕ) : FillWorld ι → FillEvent ι → FillWorld ι → Prop
  | scrolled {c : Collection ι} {offset next : Option ι} {written : ℕ} {page : List (ι × StoredPoint)} :
      LackingPage c offset (min keywordFillBatch (limit - written)) page next →
      Step limit ⟨c, scrolling offset written⟩ .scrolled ⟨c, afterPage limit written (documents page) next⟩
  | scrollFails {c : Collection ι} {offset : Option ι} {written : ℕ} (e : AlayaError) :
      Step limit ⟨c, scrolling offset written⟩ (.failed []) ⟨c, returned (.error e)⟩
  | wrote {c : Collection ι} {points : List (ι × String)} {next : Option ι} {written : ℕ} :
      (∀ x ∈ points, (c x.1).isSome) →
      Step limit ⟨c, writing points next written⟩ (.wrote (points.map Prod.fst))
        ⟨setKeywords points c, advance limit (written + points.length) next⟩
  | gone {c : Collection ι} {points : List (ι × String)} {next : Option ι} {written : ℕ} :
      (∃ x ∈ points, c x.1 = none) →
      Step limit ⟨c, writing points next written⟩ (.wrote (present c points))
        ⟨setKeywords points c, retrying points next written⟩
  | writeFails {c : Collection ι} {points some' : List (ι × String)} {next : Option ι} {written : ℕ}
      (e : AlayaError) : some' ⊆ points →
      Step limit ⟨c, writing points next written⟩ (.failed (present c some'))
        ⟨setKeywords some' c, returned (.error e)⟩
  | retried {c : Collection ι} {x : ι × String} {left : List (ι × String)} {next : Option ι} {written : ℕ} :
      (c x.1).isSome →
      Step limit ⟨c, retrying (x :: left) next written⟩ (.wrote [x.1])
        ⟨setKeywords [x] c, afterRetry limit (written + 1) left next⟩
  | skipped {c : Collection ι} {x : ι × String} {left : List (ι × String)} {next : Option ι} {written : ℕ} :
      c x.1 = none →
      Step limit ⟨c, retrying (x :: left) next written⟩ (.wrote []) ⟨c, afterRetry limit written left next⟩
  | retryFails {c : Collection ι} {x : ι × String} {left some' : List (ι × String)} {next : Option ι}
      {written : ℕ} (e : AlayaError) : some' ⊆ [x] →
      Step limit ⟨c, retrying (x :: left) next written⟩ (.failed (present c some'))
        ⟨setKeywords some' c, returned (.error e)⟩
  | other {c c' : Collection ι} {e : FillEvent ι} (phase : FillPhase ι) : OtherStep c e c' →
      Step limit ⟨c, phase⟩ e ⟨c', phase⟩

end FillWorld

/-! ### One request -/

namespace Collection

variable {c c' : Collection ι}

theorem isSome_setKeywords (points : List (ι × String)) (id : ι) :
    (setKeywords points c id).isSome = (c id).isSome := by
  rw [setKeywords, Option.isSome_map]

/-- A request sets no vector but the keyword vector, and no payload. -/
theorem visible_setKeywords (points : List (ι × String)) (id : ι) :
    (setKeywords points c id).map (fun p => (p.payload, p.dense)) =
      (c id).map fun p => (p.payload, p.dense) := by
  rw [setKeywords, Option.map_map]
  congr 1
  funext p
  rw [Function.comp_apply]
  split <;> rfl

/-- What is still to be filled was before, and was not among the points of the request. -/
theorem Fillable.of_setKeywords {points : List (ι × String)} {id : ι} (h : Fillable (setKeywords points c) id) :
    Fillable c id ∧ id ∉ points.map Prod.fst := by
  obtain ⟨p, hp, hkeyword, hcontent⟩ := h
  obtain ⟨q, hq, rfl⟩ := Option.map_eq_some_iff.mp hp
  cases hfind : points.find? fun x => x.1 = id with
  | some x =>
    rw [hfind] at hkeyword
    cases hkeyword
  | none =>
    rw [hfind] at hkeyword hcontent
    refine ⟨⟨q, hq, hkeyword, hcontent⟩, fun hmem => ?_⟩
    obtain ⟨x, hx, heq⟩ := List.mem_map.mp hmem
    exact List.find?_eq_none.mp hfind x hx (decide_eq_true heq)

theorem Fillable.of_other {e : FillEvent ι} {id : ι} (h : OtherStep c e c') (hid : Fillable c' id) :
    Fillable c id := by
  obtain ⟨p, hp, hkeyword, hcontent⟩ := hid
  cases h with
  | deleted gone =>
    by_cases heq : id = gone
    · rw [heq, Function.update_self] at hp
      cases hp
    · rw [Function.update_of_ne heq] at hp
      exact ⟨p, hp, hkeyword, hcontent⟩
  | stored new payload dense content =>
    by_cases heq : id = new
    · rw [heq, Function.update_self] at hp
      obtain rfl := Option.some.inj hp
      cases hkeyword
    · rw [Function.update_of_ne heq] at hp
      exact ⟨p, hp, hkeyword, hcontent⟩

end Collection

/-- The ids below an offset: none before the first page. -/
def Passed (offset : Option ι) (id : ι) : Prop := ∃ o, offset = some o ∧ id < o

/-- The ids a page left behind: all of them when there is no page after it. -/
def Behind (next : Option ι) (id : ι) : Prop := ∀ n, next = some n → id < n

/-! ### What a call keeps

The points it has counted were to be filled when it began and are not any more; those still to be filled are
ahead of its cursor, or among the points of the page it is about to write.
-/

open Collection

/-- The points counted so far, those of the page that are not counted yet, which of them may still be to be
filled, and the ids the cursor has passed. -/
structure Kept (c₀ : Collection ι) (tr : List (FillEvent ι)) (c : Collection ι) (counted : Finset ι)
    (batch unwritten : List ι) (passed : ι → Prop) : Prop where
  nodup : batch.Nodup
  ahead : ∀ id, Fillable c id → Fillable c₀ id ∧ (id ∈ unwritten ∨ ¬passed id)
  done : ∀ id ∈ counted, Fillable c₀ id ∧ ¬Fillable c id ∧ passed id ∧ id ∉ batch
  pending : ∀ id ∈ batch, Fillable c₀ id ∧ passed id
  wrote : ∀ id ∈ wroteIds tr, id ∈ deletedIds tr ∨ (c id).isSome ∧ (id ∈ counted ∨ id ∈ batch)

namespace Kept

variable {c₀ c c' : Collection ι} {tr : List (FillEvent ι)} {counted : Finset ι} {batch unwritten : List ι}
  {passed : ι → Prop}

theorem start (c : Collection ι) : Kept c [] c ∅ [] [] (Passed none) where
  nodup := List.nodup_nil
  ahead := by
    intro id h
    refine ⟨h, .inr ?_⟩
    rintro ⟨o, ho, -⟩
    cases ho
  done := by simp
  pending := by simp
  wrote := by simp [wroteIds]

/-- The points the call set and nobody deleted are counted, or of its page. -/
theorem card_le (h : Kept c₀ tr c counted batch unwritten passed) :
    ((wroteIds tr).toFinset \ (deletedIds tr).toFinset).card ≤ counted.card + batch.length := by
  have hsub : (wroteIds tr).toFinset \ (deletedIds tr).toFinset ⊆ counted ∪ batch.toFinset := by
    intro id hid
    obtain ⟨hwrote, hdeleted⟩ := Finset.mem_sdiff.mp hid
    rw [List.mem_toFinset] at hwrote hdeleted
    rw [Finset.mem_union, List.mem_toFinset]
    exact ((h.wrote id hwrote).resolve_left hdeleted).2
  calc ((wroteIds tr).toFinset \ (deletedIds tr).toFinset).card
      ≤ (counted ∪ batch.toFinset).card := Finset.card_le_card hsub
    _ ≤ counted.card + batch.toFinset.card := Finset.card_union_le _ _
    _ ≤ counted.card + batch.length := Nat.add_le_add_left (List.toFinset_card_le batch) _

/-- A step of the others keeps it. -/
theorem other (h : Kept c₀ tr c counted batch unwritten passed) {e : FillEvent ι} (he : OtherStep c e c') :
    Kept c₀ (tr ++ [e]) c' counted batch unwritten passed where
  nodup := h.nodup
  ahead := fun id hid => h.ahead id (hid.of_other he)
  done := by
    intro id hid
    obtain ⟨hwas, hnow, hpassed, hbatch⟩ := h.done id hid
    exact ⟨hwas, fun hfill => hnow (hfill.of_other he), hpassed, hbatch⟩
  pending := h.pending
  wrote := by
    intro id hid
    rw [wroteIds_concat, List.mem_append] at hid
    rw [deletedIds_concat, List.mem_append]
    cases he with
    | deleted gone =>
      rcases h.wrote id (hid.resolve_right (by simp [wroteIds])) with hdeleted | ⟨hthere, hours⟩
      · exact .inl (.inl hdeleted)
      · by_cases heq : id = gone
        · exact .inl (.inr (by simp [deletedIds, heq]))
        · exact .inr ⟨by rwa [Function.update_of_ne heq], hours⟩
    | stored new payload dense content =>
      rcases h.wrote id (hid.resolve_right (by simp [wroteIds])) with hdeleted | ⟨hthere, hours⟩
      · exact .inl (.inl hdeleted)
      · by_cases heq : id = new
        · exact .inr ⟨by rw [heq, Function.update_self]; rfl, hours⟩
        · exact .inr ⟨by rwa [Function.update_of_ne heq], hours⟩

/-- A request that sets the vectors of some points settles the first points of the page. -/
theorem set {settled left : List ι} {e : FillEvent ι}
    (h : Kept c₀ tr c counted (settled ++ left) unwritten passed) (points : List (ι × String))
    (unwritten' : List ι)
    (hids : ∀ id ∈ wroteIds [e], (c id).isSome ∧ id ∈ settled ++ left) (hdeleted : deletedIds [e] = [])
    (hsettled : ∀ id ∈ settled, id ∈ points.map Prod.fst)
    (hunwritten : ∀ id ∈ unwritten, id ∈ unwritten' ∨ id ∈ points.map Prod.fst) :
    Kept c₀ (tr ++ [e]) (setKeywords points c) (counted ∪ settled.toFinset) left unwritten' passed where
  nodup := (List.nodup_append.mp h.nodup).2.1
  ahead := by
    intro id hid
    obtain ⟨hwas, hnot⟩ := hid.of_setKeywords
    obtain ⟨hfirst, hwhere⟩ := h.ahead id hwas
    exact ⟨hfirst, hwhere.imp_left fun hmem => (hunwritten id hmem).resolve_right hnot⟩
  done := by
    intro id hid
    rcases Finset.mem_union.mp hid with hold | hnew
    · obtain ⟨hwas, hnow, hpassed, hnot⟩ := h.done id hold
      exact ⟨hwas, fun hfill => hnow hfill.of_setKeywords.1, hpassed, fun hb => hnot (List.mem_append_right _ hb)⟩
    · have hmem := List.mem_toFinset.mp hnew
      obtain ⟨hwas, hpassed⟩ := h.pending id (List.mem_append_left _ hmem)
      exact ⟨hwas, fun hfill => hfill.of_setKeywords.2 (hsettled id hmem), hpassed,
        fun hb => (List.nodup_append.mp h.nodup).2.2 id hmem id hb rfl⟩
  pending := fun id hid => h.pending id (List.mem_append_right _ hid)
  wrote := by
    intro id hid
    have hfiled : id ∈ settled ++ left → id ∈ counted ∪ settled.toFinset ∨ id ∈ left := by
      intro hmem
      rcases List.mem_append.mp hmem with hset | hleft
      · exact .inl (Finset.mem_union_right _ (List.mem_toFinset.mpr hset))
      · exact .inr hleft
    rw [wroteIds_concat, List.mem_append] at hid
    rw [deletedIds_concat, hdeleted, List.append_nil, isSome_setKeywords]
    rcases hid with hold | hnew
    · rcases h.wrote id hold with hgone | ⟨hthere, hcount | hmem⟩
      · exact .inl hgone
      · exact .inr ⟨hthere, .inl (Finset.mem_union_left _ hcount)⟩
      · exact .inr ⟨hthere, hfiled hmem⟩
    · exact .inr ⟨(hids id hnew).1, hfiled (hids id hnew).2⟩

/-- The points settled are new. -/
theorem card_settled {settled left : List ι} (h : Kept c₀ tr c counted (settled ++ left) unwritten passed) :
    (counted ∪ settled.toFinset).card = counted.card + settled.length := by
  have hdisjoint : Disjoint counted settled.toFinset := by
    refine Finset.disjoint_left.mpr fun id hcounted hsettled => ?_
    exact (h.done id hcounted).2.2.2 (List.mem_append_left _ (List.mem_toFinset.mp hsettled))
  rw [Finset.card_union_of_disjoint hdisjoint, List.toFinset_card_of_nodup (List.nodup_append.mp h.nodup).1]

omit [LinearOrder ι] in
/-- A point of the page that is gone is dropped. -/
theorem skip {id : ι} {left : List ι} {e : FillEvent ι} (h : Kept c₀ tr c counted (id :: left) [] passed)
    (hgone : c id = none) (hids : wroteIds [e] = []) (hdeleted : deletedIds [e] = []) :
    Kept c₀ (tr ++ [e]) c counted left [] passed where
  nodup := (List.nodup_cons.mp h.nodup).2
  ahead := h.ahead
  done := by
    intro id' hid
    obtain ⟨hwas, hnow, hpassed, hnot⟩ := h.done id' hid
    exact ⟨hwas, hnow, hpassed, fun hmem => hnot (List.mem_cons_of_mem _ hmem)⟩
  pending := fun id' hid => h.pending id' (List.mem_cons_of_mem _ hid)
  wrote := by
    intro id' hid
    rw [wroteIds_concat, hids, List.append_nil] at hid
    rw [deletedIds_concat, hdeleted, List.append_nil]
    refine (h.wrote id' hid).imp_right fun hthere => ⟨hthere.1, hthere.2.imp_right fun hmem => ?_⟩
    refine (List.mem_cons.mp hmem).resolve_left ?_
    rintro rfl
    rw [hgone] at hthere
    exact absurd hthere.1 (by decide)

/-- A page is what the call writes next: it leaves no point to be filled behind. -/
theorem page {offset next : Option ι} {limit : ℕ} {page : List (ι × StoredPoint)} {e : FillEvent ι}
    (h : Kept c₀ tr c counted [] [] (Passed offset)) (hpage : LackingPage c offset limit page next)
    (hlimit : 0 < limit) (hids : wroteIds [e] = []) (hdeleted : deletedIds [e] = []) :
    Kept c₀ (tr ++ [e]) c counted ((documents page).map Prod.fst) ((documents page).map Prod.fst)
      (Behind next) where
  nodup := (hpage.sorted.sublist (sublist_documents page)).imp fun hlt => hlt.ne
  ahead := by
    intro id hid
    obtain ⟨hfirst, hwhere⟩ := h.ahead id hid
    obtain ⟨p, hp, hkeyword, hcontent⟩ := hid
    refine ⟨hfirst, ?_⟩
    by_cases hbehind : Behind next id
    · refine .inl (documents_of_mem (hpage.complete id p hp hkeyword (fun o ho => ?_) hbehind) hcontent)
      refine not_lt.mp fun hlt => (hwhere.resolve_left List.not_mem_nil) ⟨o, ho, hlt⟩
    · exact .inr hbehind
  done := by
    intro id hid
    obtain ⟨hwas, hnow, ⟨o, ho, hlt⟩, -⟩ := h.done id hid
    refine ⟨hwas, hnow, fun n hn => ?_, fun hmem => ?_⟩
    · obtain ⟨hlength, hbelow⟩ := hpage.more n hn
      obtain ⟨x, hx⟩ := List.exists_mem_of_length_pos (hlength ▸ hlimit)
      exact hlt.trans (lt_of_le_of_lt ((hpage.found x hx).2.2 o ho) (hbelow x hx))
    · obtain ⟨p, hp, -⟩ := mem_documents hmem
      exact absurd ((hpage.found _ hp).2.2 o ho) (not_le.mpr hlt)
  pending := by
    intro id hid
    obtain ⟨p, hp, hcontent⟩ := mem_documents hid
    obtain ⟨hfound, hkeyword, -⟩ := hpage.found _ hp
    exact ⟨(h.ahead id ⟨p, hfound, hkeyword, hcontent⟩).1, fun n hn => (hpage.more n hn).2 _ hp⟩
  wrote := by
    intro id hid
    rw [wroteIds_concat, hids, List.append_nil] at hid
    rw [deletedIds_concat, hdeleted, List.append_nil]
    refine (h.wrote id hid).imp_right fun hthere => ⟨hthere.1, hthere.2.imp_right ?_⟩
    exact fun hmem => absurd hmem List.not_mem_nil

end Kept

theorem behind_some (n : ι) : Behind (some n) = Passed (some n) := by
  funext id
  refine propext ⟨fun h => ⟨n, rfl, h n rfl⟩, ?_⟩
  rintro ⟨o, ho, hlt⟩ m hm
  obtain rfl := Option.some.inj ho
  exact Option.some.inj hm ▸ hlt

/-- Where a call stands: what it keeps, and how many points it may still write. -/
def Tracked (limit : ℕ) (c₀ : Collection ι) (tr : List (FillEvent ι)) (w : FillWorld ι) : Prop :=
  match w.phase with
  | .scrolling offset n => n < limit ∧
      ∃ counted, counted.card = n ∧ Kept c₀ tr w.collection counted [] [] (Passed offset)
  | .writing points next n => n + points.length ≤ limit ∧
      ∃ counted, counted.card = n ∧
        Kept c₀ tr w.collection counted (points.map Prod.fst) (points.map Prod.fst) (Behind next)
  | .retrying left next n => n + left.length ≤ limit ∧ left ≠ [] ∧
      ∃ counted, counted.card = n ∧ Kept c₀ tr w.collection counted (left.map Prod.fst) [] (Behind next)
  | .returned (.ok n) => n ≤ limit ∧
      ∃ counted passed, counted.card = n ∧ Kept c₀ tr w.collection counted [] [] passed ∧
        (n < limit → ∀ id, passed id)
  | .returned (.error _) =>
      ∃ counted batch unwritten passed, counted.card + batch.length ≤ limit ∧
        Kept c₀ tr w.collection counted batch unwritten passed

namespace Tracked

open FillWorld FillPhase

variable {limit : ℕ} {c₀ : Collection ι} {tr : List (FillEvent ι)}

theorem start (limit : ℕ) (c : Collection ι) : Tracked limit c [] (FillWorld.start limit c) := by
  unfold FillWorld.start
  by_cases hlimit : 0 < limit
  · rw [if_pos hlimit]
    exact ⟨hlimit, ∅, rfl, Kept.start c⟩
  · rw [if_neg hlimit]
    exact ⟨Nat.zero_le _, ∅, Passed none, rfl, Kept.start c, fun h => absurd h hlimit⟩

theorem advance {c : Collection ι} {next : Option ι} {counted : Finset ι} {n : ℕ} (hn : n ≤ limit)
    (hcard : counted.card = n) (h : Kept c₀ tr c counted [] [] (Behind next)) :
    Tracked limit c₀ tr ⟨c, FillPhase.advance limit n next⟩ := by
  cases next with
  | none => exact ⟨hn, counted, Behind none, hcard, h, fun _ id m hm => nomatch hm⟩
  | some m =>
    rw [behind_some] at h
    unfold FillPhase.advance
    by_cases hlt : n < limit
    · dsimp only
      rw [if_pos hlt]
      exact ⟨hlt, counted, hcard, h⟩
    · dsimp only
      rw [if_neg hlt]
      exact ⟨hn, counted, Passed (some m), hcard, h, fun hlt' => absurd hlt' hlt⟩

theorem afterRetry {c : Collection ι} {left : List (ι × String)} {next : Option ι} {counted : Finset ι} {n : ℕ}
    (hn : n + left.length ≤ limit) (hcard : counted.card = n)
    (h : Kept c₀ tr c counted (left.map Prod.fst) [] (Behind next)) :
    Tracked limit c₀ tr ⟨c, FillPhase.afterRetry limit n left next⟩ := by
  unfold FillPhase.afterRetry
  by_cases hleft : left = []
  · subst hleft
    rw [if_pos rfl]
    exact advance hn hcard h
  · rw [if_neg hleft]
    exact ⟨hn, hleft, counted, hcard, h⟩

/-- One step of the call or of the others keeps where the call stands. -/
theorem step {w w' : FillWorld ι} {e : FillEvent ι} (h : Tracked limit c₀ tr w) (hstep : Step limit w e w') :
    Tracked limit c₀ (tr ++ [e]) w' := by
  cases hstep with
  | @scrolled c offset next n page hpage =>
    obtain ⟨hn, counted, hcard, hkept⟩ := h
    have hpositive : 0 < min keywordFillBatch (limit - n) :=
      Nat.lt_min.mpr ⟨by decide, Nat.sub_pos_of_lt hn⟩
    have hfit : n + (documents page).length ≤ limit := by
      have hdocuments := length_documents_le page
      have hpageLe := hpage.length_le.trans (Nat.min_le_right _ _)
      omega
    have hnext := hkept.page (e := .scrolled) hpage hpositive rfl rfl
    unfold FillPhase.afterPage
    by_cases hempty : documents page = []
    · rw [if_pos hempty]
      rw [hempty] at hnext
      exact advance hn.le hcard hnext
    · rw [if_neg hempty]
      exact ⟨hfit, counted, hcard, hnext⟩
  | @scrollFails c offset n err =>
    obtain ⟨hn, counted, hcard, hkept⟩ := h
    refine ⟨counted, [], [], Passed offset, hcard.le.trans hn.le, ?_⟩
    exact { hkept with wrote := by simpa [wroteIds, deletedIds] using hkept.wrote }
  | @wrote c points next n hpresent =>
    obtain ⟨hn, counted, hcard, hkept⟩ := h
    have hall : Kept c₀ tr c counted (points.map Prod.fst ++ []) (points.map Prod.fst) (Behind next) := by
      rwa [List.append_nil]
    refine advance hn ?_ (hall.set points [] (e := .wrote _) (fun id hid => ?_) rfl (fun _ hid => hid) fun _ => .inr)
    · rw [hall.card_settled, hcard, List.length_map]
    · rw [wroteIds, List.flatMap_singleton] at hid
      obtain ⟨x, hx, rfl⟩ := List.mem_map.mp hid
      exact ⟨hpresent x hx, by rwa [List.append_nil]⟩
  | @gone c points next n hgone =>
    obtain ⟨x, hx, -⟩ := hgone
    obtain ⟨hn, counted, hcard, hkept⟩ := h
    have hnone : Kept c₀ tr c counted ([] ++ points.map Prod.fst) (points.map Prod.fst) (Behind next) := hkept
    refine ⟨hn, List.ne_nil_of_mem hx, counted, hcard, ?_⟩
    have hset := hnone.set points [] (e := .wrote (present c points))
      (fun id hid => ?_) rfl (by simp) fun _ => .inr
    · simpa using hset
    · rw [wroteIds, List.flatMap_singleton] at hid
      exact (mem_present.mp hid).symm
  | @writeFails c points some' next n err hsub =>
    obtain ⟨hn, counted, hcard, hkept⟩ := h
    refine ⟨counted, points.map Prod.fst, points.map Prod.fst, Behind next, ?_, ?_⟩
    · rw [hcard, List.length_map]
      exact hn
    have hnone : Kept c₀ tr c counted ([] ++ points.map Prod.fst) (points.map Prod.fst) (Behind next) := hkept
    have hset := hnone.set some' _ (e := .failed (present c some')) (fun id hid => ?_) rfl (by simp)
      fun _ => .inl
    · simpa using hset
    · rw [wroteIds, List.flatMap_singleton] at hid
      obtain ⟨hmem, hsome⟩ := mem_present.mp hid
      exact ⟨hsome, List.map_subset _ hsub hmem⟩
  | @retried c x left next n hpresent =>
    obtain ⟨hn, -, counted, hcard, hkept⟩ := h
    have hone : Kept c₀ tr c counted ([x.1] ++ left.map Prod.fst) [] (Behind next) := hkept
    refine afterRetry (by rw [List.length_cons] at hn; omega) ?_
      (hone.set [x] [] (e := .wrote [x.1]) (fun id hid => ?_) rfl (by simp) (by simp))
    · rw [hone.card_settled, hcard, List.length_singleton]
    · obtain rfl : id = x.1 := by simpa [wroteIds] using hid
      exact ⟨hpresent, by simp⟩
  | @skipped c x left next n hgone =>
    obtain ⟨hn, -, counted, hcard, hkept⟩ := h
    refine afterRetry (by rw [List.length_cons] at hn; omega) hcard ?_
    exact hkept.skip hgone rfl rfl
  | @retryFails c x left some' next n err hsub =>
    obtain ⟨hn, -, counted, hcard, hkept⟩ := h
    refine ⟨counted, (x :: left).map Prod.fst, [], Behind next, by rw [hcard, List.length_map]; exact hn, ?_⟩
    have hnone : Kept c₀ tr c counted ([] ++ (x :: left).map Prod.fst) [] (Behind next) := hkept
    have hset := hnone.set some' [] (e := .failed (present c some'))
      (fun id hid => ?_) rfl (by simp) (by simp)
    · simpa using hset
    · rw [wroteIds, List.flatMap_singleton] at hid
      obtain ⟨hmem, hsome⟩ := mem_present.mp hid
      refine ⟨hsome, List.map_subset _ (fun y hy => ?_) hmem⟩
      exact List.mem_cons.mpr (.inl (List.mem_singleton.mp (hsub hy)))
  | @other c c' e phase he =>
    cases phase with
    | scrolling offset n =>
      obtain ⟨hn, counted, hcard, hkept⟩ := h
      exact ⟨hn, counted, hcard, hkept.other he⟩
    | writing points next n =>
      obtain ⟨hn, counted, hcard, hkept⟩ := h
      exact ⟨hn, counted, hcard, hkept.other he⟩
    | retrying left next n =>
      obtain ⟨hn, hleft, counted, hcard, hkept⟩ := h
      exact ⟨hn, hleft, counted, hcard, hkept.other he⟩
    | returned result =>
      cases result with
      | ok n =>
        obtain ⟨hn, counted, passed, hcard, hkept, hall⟩ := h
        exact ⟨hn, counted, passed, hcard, hkept.other he, hall⟩
      | error err =>
        obtain ⟨counted, batch, unwritten, passed, hle, hkept⟩ := h
        exact ⟨counted, batch, unwritten, passed, hle, hkept.other he⟩

theorem run {w : FillWorld ι} (h : Run (Step limit) (FillWorld.start limit c₀) tr w) : Tracked limit c₀ tr w :=
  h.invariant (Tracked limit c₀) (start limit c₀) fun _ _ _ _ _ htracked hstep => htracked.step hstep

/-- What the call set and nobody deleted, wherever it stands. -/
theorem card_le {w : FillWorld ι} (h : Tracked limit c₀ tr w) :
    ((wroteIds tr).toFinset \ (deletedIds tr).toFinset).card ≤ limit := by
  obtain ⟨c, phase⟩ := w
  match phase, h with
  | .scrolling offset n, ⟨hn, counted, hcard, hkept⟩ => exact hkept.card_le.trans (hcard.le.trans hn.le)
  | .writing points next n, ⟨hn, counted, hcard, hkept⟩ =>
    exact hkept.card_le.trans (by rw [hcard, List.length_map]; exact hn)
  | .retrying left next n, ⟨hn, _, counted, hcard, hkept⟩ =>
    exact hkept.card_le.trans (by rw [hcard, List.length_map]; exact hn)
  | .returned (.ok n), ⟨hn, counted, passed, hcard, hkept, _⟩ => exact hkept.card_le.trans (hcard.le.trans hn)
  | .returned (.error _), ⟨counted, batch, unwritten, passed, hle, hkept⟩ => exact hkept.card_le.trans hle

end Tracked

end Alaya
