import Alaya.Backends.Transport
import Alaya.Types.Float
import Mathlib.Data.List.Nodup
import Mathlib.Data.List.Perm.Subperm

/-!
# The cross-encoder behind an endpoint

One request asks for the scores of some texts, and the answer lists them in any order, each with the index of its
text.  They are put back in the order of the texts, and an answer is used only when every text got one score.
-/

namespace Alaya

open Json

/-! ### Scores in the order of the texts -/

/-- The scores as far as they are known, and which texts have one. -/
structure ScoreSlots (σ : Type) where
  scores : List σ
  seen : List Bool

def rerankOutOfRange (n index : ℕ) : AlayaError :=
  .rerank ("rerank index " ++ toString index ++ " out of range for " ++ toString n ++ " texts")

def rerankDuplicate (index : ℕ) : AlayaError :=
  .rerank ("rerank returned duplicate index " ++ toString index ++ " (would silently overwrite)")

section Remap

variable {σ : Type} (n : ℕ)

/-- Place one item; `none` is an index out of bounds, which panics. -/
def placeScore (slots : ScoreSlots σ) (item : ℕ × σ) : Option (Except AlayaError (ScoreSlots σ)) :=
  if n ≤ item.1 then some (.error (rerankOutOfRange n item.1))
  else
    match slots.seen[item.1]? with
    | none => none
    | some true => some (.error (rerankDuplicate item.1))
    | some false =>
      if item.1 < slots.scores.length then
        some (.ok ⟨slots.scores.set item.1 item.2, slots.seen.set item.1 true⟩)
      else none

def placeScores (slots : ScoreSlots σ) : List (ℕ × σ) → Option (Except AlayaError (ScoreSlots σ))
  | [] => some (.ok slots)
  | item :: items =>
    match placeScore n slots item with
    | some (.ok slots) => placeScores slots items
    | some (.error e) => some (.error e)
    | none => none

/-- The scores of `n` texts from the items of an answer; every slot starts as `zero`. -/
def remapScores (zero : σ) (parsed : List (ℕ × σ)) : Option (Except AlayaError (List σ)) :=
  if parsed.length ≠ n then
    some (.error (.rerank ("rerank returned " ++ toString parsed.length ++ " scores for " ++ toString n ++ " texts")))
  else (placeScores n ⟨List.replicate n zero, List.replicate n false⟩ parsed).map fun placed =>
    placed.map ScoreSlots.scores

end Remap

/-! ### The client -/

/-- A single that is no NaN. -/
inductive Single where
  | finite (x : ℚ)
  | infinite (negative : Bool)
  deriving DecidableEq

/-- The single nearest to a number. -/
def Single.ofRat (x : ℚ) : Single :=
  match toSingle x with
  | some y => .finite y
  | none => .infinite (x < 0)

/-- `f32` from a JSON number of any kind. -/
def readSingle : Value → Option Single
  | .number (.posInt n) => some (.ofRat n.toNat)
  | .number (.negInt n) => some (.ofRat n.toInt)
  | .number (.float x) => some (.ofRat x)
  | _ => none

/-- `RerankItem`. -/
def readRerankItem (v : Value) : Option (ℕ × Single) := do
  if shaped 2 v then
    let index ← required v "index" 0 Value.asU64
    let score ← required v "score" 1 readSingle
    return (index.toNat, score)
  else none

/-- A `/rerank` request. -/
structure RerankRequest where
  url : String
  query : String
  texts : List String
  truncate : Bool := true
  rawScores : Bool := false

structure RerankClient where
  baseUrl : String
  topN : ℕ

namespace RerankClient

variable (texts : Texts) (client : RerankClient)

/-- What the client asks for the scores of some texts. -/
def request (query : String) (docs : List String) : RerankRequest :=
  { url := client.baseUrl ++ "/rerank", query, texts := docs }

/-- The items of an answer, or why it has none. -/
def items : HttpReply → Except AlayaError (List (ℕ × Single))
  | .failed _ message => .error (.rerank message)
  | .replied status _ body =>
    if !isSuccess status then
      .error (.rerank ("rerank API returned " ++ texts.status status ++ ": " ++ errorBody texts body))
    else
      match body with
      | .error message => .error (.rerank ("failed to parse response: " ++ message))
      | .ok bytes =>
        match (texts.fromSlice bytes).bind (readArray readRerankItem) with
        | some parsed => .ok parsed
        | none => .error (.rerank ("failed to parse response: " ++ texts.bodyError bytes))

/-- The scores of some texts; `none` is a panic. -/
def rerank (endpoint : RerankRequest → HttpReply) (query : String) (docs : List String) :
    Option (Except AlayaError (List Single)) :=
  if docs = [] then some (.ok [])
  else
    match items texts (endpoint (client.request query docs)) with
    | .error e => some (.error e)
    | .ok parsed => remapScores docs.length (.finite 0) parsed

end RerankClient

/-! ### Every text once -/

section Remap

variable {σ : Type} {n : ℕ} {zero : σ}

/-- The slots after the items `done`. -/
structure ScoreSlots.Holds (n : ℕ) (done : List (ℕ × σ)) (slots : ScoreSlots σ) : Prop where
  scores_length : slots.scores.length = n
  seen_length : slots.seen.length = n
  seen : ∀ i < n, slots.seen[i]? = some true ↔ i ∈ done.map Prod.fst
  nodup : (done.map Prod.fst).Nodup
  placed : ∀ item ∈ done, slots.scores[item.1]? = some item.2

theorem ScoreSlots.Holds.start (n : ℕ) (zero : σ) :
    ScoreSlots.Holds n [] ⟨List.replicate n zero, List.replicate n false⟩ where
  scores_length := List.length_replicate
  seen_length := List.length_replicate
  seen i hi := by simp [hi]
  nodup := List.nodup_nil
  placed := nofun

theorem ScoreSlots.Holds.lt {done : List (ℕ × σ)} {slots : ScoreSlots σ} (h : slots.Holds n done) {item : ℕ × σ}
    (hitem : item ∈ done) : item.1 < n := by
  obtain ⟨hlt, -⟩ := List.getElem?_eq_some_iff.mp (h.placed item hitem)
  rwa [h.scores_length] at hlt

/-- One item is refused when its index is out of range or taken, and placed otherwise. -/
theorem placeScore_spec {done : List (ℕ × σ)} {slots : ScoreSlots σ} (h : slots.Holds n done) (item : ℕ × σ) :
    (n ≤ item.1 ∧ placeScore n slots item = some (.error (rerankOutOfRange n item.1))) ∨
      (item.1 < n ∧ item.1 ∈ done.map Prod.fst ∧ placeScore n slots item = some (.error (rerankDuplicate item.1))) ∨
      (item.1 < n ∧ item.1 ∉ done.map Prod.fst ∧
        placeScore n slots item = some (.ok ⟨slots.scores.set item.1 item.2, slots.seen.set item.1 true⟩)) := by
  unfold placeScore
  by_cases hrange : n ≤ item.1
  · exact .inl ⟨hrange, if_pos hrange⟩
  · have hlt : item.1 < n := not_le.mp hrange
    have hseen : item.1 < slots.seen.length := h.seen_length ▸ hlt
    have hscore : item.1 < slots.scores.length := h.scores_length ▸ hlt
    have htaken := h.seen item.1 hlt
    rw [if_neg hrange]
    rw [List.getElem?_eq_getElem hseen] at htaken ⊢
    cases hslot : slots.seen[item.1] with
    | true => exact .inr (.inl ⟨hlt, htaken.mp (congrArg some hslot), rfl⟩)
    | false =>
      have hfresh : item.1 ∉ done.map Prod.fst := by
        intro hmem
        have hsome := htaken.mpr hmem
        rw [hslot] at hsome
        cases hsome
      exact .inr (.inr ⟨hlt, hfresh, if_pos hscore⟩)

/-- A placed item is one of those the slots hold. -/
theorem ScoreSlots.Holds.place {done : List (ℕ × σ)} {slots : ScoreSlots σ} (h : slots.Holds n done) {item : ℕ × σ}
    (hlt : item.1 < n) (hfresh : item.1 ∉ done.map Prod.fst) :
    ScoreSlots.Holds n (done ++ [item]) ⟨slots.scores.set item.1 item.2, slots.seen.set item.1 true⟩ where
  scores_length := List.length_set.trans h.scores_length
  seen_length := List.length_set.trans h.seen_length
  seen i hi := by
    rw [List.map_append, List.mem_append, ← h.seen i hi, List.getElem?_set]
    by_cases heq : item.1 = i
    · simp [heq, h.seen_length, hi]
    · simp [heq, Ne.symm heq]
  nodup := by
    rw [List.map_append]
    refine List.nodup_append.mpr ⟨h.nodup, List.nodup_singleton _, ?_⟩
    rintro i hi j hj rfl
    exact hfresh (List.mem_singleton.mp hj ▸ hi)
  placed other hother := by
    rcases List.mem_append.mp hother with hold | hnew
    · have hne : item.1 ≠ other.1 := fun heq => hfresh (heq ▸ List.mem_map_of_mem hold)
      show (slots.scores.set item.1 item.2)[other.1]? = some other.2
      rw [List.getElem?_set_ne hne]
      exact h.placed other hold
    · obtain rfl := List.mem_singleton.mp hnew
      exact List.getElem?_set_self (h.scores_length ▸ hlt)

/-- The loop ends with every item placed, or refuses one. -/
theorem placeScores_spec (items : List (ℕ × σ)) {done : List (ℕ × σ)} {slots : ScoreSlots σ} (h : slots.Holds n done) :
    (∃ e, placeScores n slots items = some (.error (.rerank e)) ∧
      ((∃ item ∈ items, n ≤ item.1) ∨ ¬((done ++ items).map Prod.fst).Nodup)) ∨
      ∃ slots', placeScores n slots items = some (.ok slots') ∧ slots'.Holds n (done ++ items) := by
  induction items generalizing done slots with
  | nil =>
    rw [List.append_nil]
    exact .inr ⟨slots, rfl, h⟩
  | cons item items ih =>
    unfold placeScores
    rcases placeScore_spec h item with ⟨hrange, hplace⟩ | ⟨-, htaken, hplace⟩ | ⟨hlt, hfresh, hplace⟩
    · rw [hplace]
      exact .inl ⟨_, rfl, .inl ⟨item, List.mem_cons_self, hrange⟩⟩
    · rw [hplace]
      refine .inl ⟨_, rfl, .inr fun hnodup => ?_⟩
      rw [List.map_append, List.map_cons] at hnodup
      exact (List.nodup_append.mp hnodup).2.2 item.1 htaken item.1 List.mem_cons_self rfl
    · rw [hplace]
      have hrest := ih (h.place hlt hfresh)
      rw [List.append_assoc, List.singleton_append] at hrest
      exact hrest.imp (fun ⟨e, hplaced, hwhy⟩ => ⟨e, hplaced, hwhy.imp_left fun ⟨other, hmem, hrange⟩ =>
        ⟨other, List.mem_cons_of_mem _ hmem, hrange⟩⟩) id

/-- `n` indices below `n` without a repeat are all of them. -/
theorem perm_range_iff {is : List ℕ} : is.Perm (List.range n) ↔ is.length = n ∧ (∀ i ∈ is, i < n) ∧ is.Nodup := by
  constructor
  · intro h
    refine ⟨h.length_eq.trans List.length_range, fun i hi => ?_, h.nodup_iff.mpr List.nodup_range⟩
    exact List.mem_range.mp (h.mem_iff.mp hi)
  · rintro ⟨hlength, hlt, hnodup⟩
    have hsub : is ⊆ List.range n := fun i hi => List.mem_range.mpr (hlt i hi)
    apply (List.subperm_of_subset hnodup hsub).perm_of_length_le
    rw [List.length_range, hlength]

/-- **An answer is used when it scores every text once**, and then every text gets the score of its item. -/
theorem remapScores_spec (zero : σ) (parsed : List (ℕ × σ)) :
    (∃ scores, remapScores n zero parsed = some (.ok scores) ∧ (parsed.map Prod.fst).Perm (List.range n) ∧
      ∀ i score, scores[i]? = some score ↔ (i, score) ∈ parsed) ∨
      ∃ e, remapScores n zero parsed = some (.error (.rerank e)) ∧ ¬(parsed.map Prod.fst).Perm (List.range n) := by
  unfold remapScores
  by_cases hlength : parsed.length = n
  · rw [if_neg (not_not.mpr hlength)]
    rcases placeScores_spec parsed (.start n zero) with ⟨e, hplaced, hwhy⟩ | ⟨slots, hplaced, hholds⟩
    · rw [hplaced]
      refine .inr ⟨e, rfl, fun hperm => ?_⟩
      obtain ⟨-, hlt, hnodup⟩ := perm_range_iff.mp hperm
      rcases hwhy with ⟨item, hitem, hrange⟩ | hrepeat
      · exact absurd (hlt item.1 (List.mem_map_of_mem hitem)) (not_lt.mpr hrange)
      · exact hrepeat hnodup
    · rw [hplaced]
      rw [List.nil_append] at hholds
      have hperm : (parsed.map Prod.fst).Perm (List.range n) := by
        refine perm_range_iff.mpr ⟨(List.length_map _).trans hlength, fun i hi => ?_, hholds.nodup⟩
        obtain ⟨item, hitem, rfl⟩ := List.mem_map.mp hi
        exact hholds.lt hitem
      refine .inl ⟨slots.scores, rfl, hperm, fun i score => ⟨fun hscore => ?_, fun hitem => hholds.placed _ hitem⟩⟩
      -- every slot is filled: its index is among the `n` that were placed
      obtain ⟨hi, -⟩ := List.getElem?_eq_some_iff.mp hscore
      rw [hholds.scores_length] at hi
      obtain ⟨item, hitem, rfl⟩ := List.mem_map.mp (hperm.mem_iff.mpr (List.mem_range.mpr hi))
      obtain rfl := Option.some.inj ((hholds.placed item hitem).symm.trans hscore)
      exact hitem
  · rw [if_pos hlength]
    exact .inr ⟨_, rfl, fun hperm => hlength ((List.length_map _).symm.trans (perm_range_iff.mp hperm).1)⟩

end Remap

namespace RerankClient

/-- The items the endpoint returned; none where it was not asked or returned none. -/
def returned (texts : Texts) (client : RerankClient) (endpoint : RerankRequest → HttpReply) (query : String)
    (docs : List String) : Option (List (ℕ × Single)) :=
  if docs = [] then none else (items texts (endpoint (client.request query docs))).toOption

/-- Without items there is an error of the client's own. -/
theorem error_of_items {texts : Texts} {reply : HttpReply} {e : AlayaError} (h : items texts reply = .error e) :
    ∃ message, e = .rerank message := by
  unfold items at h
  split at h
  · cases h
    exact ⟨_, rfl⟩
  · split at h
    · cases h
      exact ⟨_, rfl⟩
    · split at h
      · cases h
        exact ⟨_, rfl⟩
      · split at h
        · cases h
        · cases h
          exact ⟨_, rfl⟩

/-- A value spells an item: an index and a number, each in its own field. -/
structure SpellsItem (v : Value) (item : ℕ × Single) : Prop where
  shape : shaped 2 v = true
  index_field : ∃ i : UInt64, field v "index" 0 = some (some (.number (.posInt i))) ∧ i.toNat = item.1
  score_field : ∃ x, field v "score" 1 = some (some x) ∧ readSingle x = some item.2

theorem reads_rerankItem : Reads SpellsItem readRerankItem := by
  intro v item
  have hindex : ∀ i, required v "index" 0 Value.asU64 = some i ↔ field v "index" 0 = some (some (.number (.posInt i))) := by
    intro i
    rw [reads_asU64.required_iff]
    simp [IsCount]
  unfold readRerankItem
  split
  · next hshape =>
    constructor
    · intro h
      obtain ⟨i, hi, h⟩ := Option.bind_eq_some_iff.mp h
      obtain ⟨score, hscore, h⟩ := Option.bind_eq_some_iff.mp h
      obtain rfl := Option.some.inj h
      exact ⟨hshape, ⟨i, (hindex i).mp hi, rfl⟩, required_eq_some_iff.mp hscore⟩
    · rintro ⟨-, ⟨i, hi, hitem⟩, hscore⟩
      rw [(hindex i).mpr hi, required_eq_some_iff.mpr hscore]
      exact congrArg some (Prod.ext hitem rfl)
  · next hshape => exact ⟨nofun, fun h => absurd h.shape hshape⟩

/-- **The items of a reply are those its body spells**, where its status is a success. -/
theorem items_eq_ok_iff {texts : Texts} {reply : HttpReply} {parsed : List (ℕ × Single)} :
    items texts reply = .ok parsed ↔ ∃ v, reply.Carries texts v ∧ EachItem SpellsItem v parsed := by
  constructor
  · intro h
    unfold items at h
    split at h
    · cases h
    · next status retryAfter body =>
      split at h
      · cases h
      · next hstatus =>
        split at h
        · cases h
        · next bytes =>
          split at h
          · next parsed' hparsed =>
            obtain rfl := Except.ok.inj h
            obtain ⟨v, hv, hitems⟩ := Option.bind_eq_some_iff.mp hparsed
            have hrange : 200 ≤ status ∧ status < 300 := by simpa [isSuccess] using hstatus
            exact ⟨v, ⟨status, retryAfter, bytes, rfl, hrange.1, hrange.2, hv⟩, (reads_rerankItem.eachItem v _).mp hitems⟩
          · cases h
  · rintro ⟨v, ⟨status, retryAfter, bytes, rfl, hlower, hupper, hv⟩, hitems⟩
    have hsuccess : isSuccess status = true := by simp [isSuccess, hlower, hupper]
    unfold items
    dsimp only
    rw [hsuccess, if_neg (by decide), hv, Option.bind_some, (reads_rerankItem.eachItem v _).mpr hitems]

/-- **A rerank answer is used only when it scores every text exactly once.**  The client never panics; for texts it
is `ok` exactly when the indices returned are those of the texts in some order, and then the score of each text is
the one of its item.  Without texts nothing is asked. -/
theorem rerank_ok_iff (texts : Texts) (client : RerankClient) (endpoint : RerankRequest → HttpReply) (query : String)
    (docs : List String) :
    ∃ result, client.rerank texts endpoint query docs = some result ∧
      (∀ e, result = .error e → ∃ message, e = .rerank message) ∧
      ∀ scores, result = .ok scores ↔ (docs = [] ∧ scores = []) ∨
        ∃ parsed, client.returned texts endpoint query docs = some parsed ∧
          (parsed.map Prod.fst).Perm (List.range docs.length) ∧
          ∀ i score, scores[i]? = some score ↔ (i, score) ∈ parsed := by
  unfold rerank returned
  by_cases hdocs : docs = []
  · rw [if_pos hdocs, if_pos hdocs]
    refine ⟨_, rfl, nofun, fun scores => ⟨fun h => .inl ⟨hdocs, (Except.ok.inj h).symm⟩, ?_⟩⟩
    rintro (⟨-, rfl⟩ | ⟨parsed, hnone, -⟩)
    · rfl
    · cases hnone
  · rw [if_neg hdocs, if_neg hdocs]
    cases hitems : items texts (endpoint (client.request query docs)) with
    | error e =>
      obtain ⟨message, rfl⟩ := error_of_items hitems
      refine ⟨_, rfl, fun e h => ⟨message, (Except.error.inj h).symm⟩, fun scores => ⟨nofun, ?_⟩⟩
      rintro (⟨hnil, -⟩ | ⟨parsed, hnone, -⟩)
      · exact absurd hnil hdocs
      · cases hnone
    | ok parsed =>
      dsimp only
      rcases remapScores_spec (n := docs.length) (Single.finite 0) parsed with
        ⟨placed, hplaced, hperm, hscores⟩ | ⟨message, hrefused, hnot⟩
      · refine ⟨_, hplaced, nofun, fun scores => ⟨?_, ?_⟩⟩
        · rintro ⟨⟩
          exact .inr ⟨parsed, rfl, hperm, hscores⟩
        · rintro (⟨hnil, -⟩ | ⟨other, hother, -, hsame⟩)
          · exact absurd hnil hdocs
          · obtain rfl := Option.some.inj hother
            refine congrArg Except.ok (List.ext_getElem? fun i => Option.ext fun score => ?_)
            exact (hscores i score).trans (hsame i score).symm
      · refine ⟨_, hrefused, fun e h => ⟨message, (Except.error.inj h).symm⟩, fun scores => ⟨nofun, ?_⟩⟩
        rintro (⟨hnil, -⟩ | ⟨other, hother, hperm, -⟩)
        · exact absurd hnil hdocs
        · obtain rfl := Option.some.inj hother
          exact absurd hperm hnot

/-! ### Two texts, scored in the other order -/

def twoScores : List UInt8 := "[\x7b\"index\":1,\"score\":0.25\x7d,\x7b\"score\":3,\"index\":0\x7d]".toUTF8.toList

def twoScored : List Value :=
  [.object [("index", .number (.posInt 1)), ("score", .number (.float (1 / 4)))],
    .object [("score", .number (.posInt 3)), ("index", .number (.posInt 0))]]

/-- A reader of that body. -/
def twoTexts : Texts where
  fromStr _ := none
  fromSlice bytes := if bytes = twoScores then some (.array twoScored) else none
  lossy _ := ""
  bodyError _ := "error decoding response body"
  verdictError _ := ""
  status _ := "200 OK"
  debug s := s
  float _ := ""

/-- The score of a text is that of the item with its index. -/
theorem rerank_ok_iff_swapped (client : RerankClient) (query : String) :
    client.rerank twoTexts (fun _ => .replied 200 none (.ok twoScores)) query ["old", "new"] =
      some (.ok [.ofRat 3, .ofRat (1 / 4)]) := by
  have hitems : items twoTexts (.replied 200 none (.ok twoScores)) = .ok [(1, .ofRat (1 / 4)), (0, .ofRat 3)] := by
    refine items_eq_ok_iff.mpr ⟨_, ⟨200, none, twoScores, rfl, by decide, by decide, if_pos rfl⟩, twoScored, rfl, ?_⟩
    exact .cons ⟨rfl, ⟨1, rfl, rfl⟩, _, rfl, rfl⟩ (.cons ⟨rfl, ⟨0, rfl, rfl⟩, _, rfl, rfl⟩ .nil)
  obtain ⟨result, hresult, -, hok⟩ := rerank_ok_iff twoTexts client
    (fun _ => .replied 200 none (.ok twoScores)) query ["old", "new"]
  rw [hresult, (hok _).mpr (.inr ⟨_, congrArg Except.toOption hitems, ?_, ?_⟩)]
  · decide
  · intro i score
    rcases i with _ | _ | i <;> simp [eq_comm]

end RerankClient

end Alaya
