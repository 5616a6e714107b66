import Alaya.Backends.Embedding
import Alaya.Bridge.ForHashes
import Alaya.Core.Contradictions
import Alaya.Lib.Greatest

/-!
# The newer memories beside a result

`addNewerRelated` lists under each result of a page the newer memories the judge picked over it.  The refs of
the page are asked of the bridge in chunks, the candidates of a result are the survivors its refs name, each
with its greatest confidence, and a candidate is listed while its stored memory is live and newer.
-/

namespace Alaya

open Json

namespace NewerRelated

/-- A result, as far as the pointer needs it. -/
structure Hit where
  hash : String
  createdAt : ℚ
  superseded : Bool

def Hit.fromResult (m : Memory) : Hit := ⟨m.contentHash, m.createdAt, m.isSuperseded⟩

/-- The other memories whose pair is settled: one settled edge settles the pair, whichever way it points. -/
def settled (refs : List ContradictionRef) : List String :=
  (refs.filter fun r => r.resolved || r.endpointSuperseded).map ContradictionRef.contradictsHash

/-- The survivor a ref names, with the judge's confidence. -/
def qualifying (settled : List String) (min : ℚ) (r : ContradictionRef) : Option (String × ℚ) :=
  match r.verdict with
  | none => none
  | some v =>
    if v.verdict ≠ .supersession ∨ v.verdictConfidence < min ∨ v.verdictSurvivor ≠ some r.contradictsHash ∨
        r.contradictsHash ∈ settled then none
    else some (r.contradictsHash, v.verdictConfidence)

/-- The survivors the graph alone qualifies, each with its highest confidence. -/
def graphCandidates (refs : List ContradictionRef) (min : ℚ) : List (String × ℚ) :=
  Greatest.collect (refs.filterMap (qualifying (settled refs) min))

/-- Highest confidence first, ties by hash. -/
def rank (p : String × ℚ) : ℚᵒᵈ ×ₗ String := toLex (OrderDual.toDual p.2, p.1)

/-- Whether a candidate is stored, live and newer than the result. -/
def listable (hit : Hit) (survivors : String → Option Memory) (p : String × ℚ) : Bool :=
  (survivors p.1).any fun m => !m.isSuperseded && decide (hit.createdAt < m.createdAt)

/-- The pointer of a result. -/
def pointer (hit : Hit) (candidates : List (String × ℚ)) (survivors : String → Option Memory) :
    List (String × ℚ) :=
  if hit.superseded then []
  else (candidates.filter (listable hit survivors)).mergeSort fun p q => rank p ≤ rank q

end NewerRelated

open NewerRelated

def newerRelatedChunk : ℕ := 500

/-- How the bridge answers the `i`th request of a page. -/
abbrev AskRefs := ℕ → List String → Except AlayaError (String → Option (List ContradictionRef))

namespace MemoryService

/-- One request; its answers take the place of earlier ones. -/
def readSlice (ask : AskRefs) (refs : String → Option (List ContradictionRef)) (slice : List String × ℕ) :
    Except AlayaError (String → Option (List ContradictionRef)) := do
  let body ← ask slice.2 slice.1
  return fun h => (body h).or (refs h)

/-- The refs of a page. -/
def readRefs (ask : AskRefs) (slices : List (List String × ℕ)) :
    Except AlayaError (String → Option (List ContradictionRef)) :=
  slices.foldlM (readSlice ask) fun _ => none

/-- The pointer of each result's hash; a later result of one hash takes the place of an earlier. -/
def newerRelatedFor (ask : AskRefs) (points : Points) (split : List String → List (List String)) (min : ℚ)
    (results : List Memory) : Except AlayaError (String → Option (List (String × ℚ))) := do
  let hits := (results.map Hit.fromResult).filter fun h => !h.superseded
  let refs ← readRefs ask (split (hits.map Hit.hash)).zipIdx
  let candidates := (hits.map fun h => (h, graphCandidates ((refs h.hash).getD []) min)).filter
    fun c => !c.2.isEmpty
  if candidates.isEmpty then return fun _ => none
  let wanted := ((candidates.flatMap fun c => c.2.map Prod.fst).mergeSort fun h h' => h ≤ h').dedup
  let survivors := lookupMemory (← getBatch points wanted)
  return fun hash => (candidates.reverse.find? fun c => c.1.hash = hash).map fun c => pointer c.1 c.2 survivors

/-- The results with what is listed under each; after a failed lookup, with nothing. -/
def addNewerRelated (found : Except AlayaError (String → Option (List (String × ℚ)))) (results : List Memory) :
    List (Memory × List (String × ℚ)) :=
  match found with
  | .error _ => results.map fun m => (m, [])
  | .ok found => results.map fun m => (m, (found m.contentHash).getD [])

end MemoryService

/-! ### What the graph qualifies -/

namespace ContradictsEdge

/-- The edge is between the two memories, in either direction. -/
def Joins (e : ContradictsEdge) (h s : String) : Prop := (e.a = h ∧ e.b = s) ∨ (e.a = s ∧ e.b = h)

/-- The judge picked `s` this confidently; an absent confidence reads as zero. -/
def Picks (e : ContradictsEdge) (s : String) (c : ℚ) : Prop :=
  e.verdict = .string "supersession" ∧ e.verdictSurvivor = .string s ∧ e.verdictConfidence.asF64.getD 0 = c

theorem joins_iff {e : ContradictsEdge} {h s : String} :
    (e.a = h ∨ e.b = h) ∧ e.other h = s ↔ e.Joins h s := by
  unfold other Joins
  by_cases ha : e.a = h
  · rw [if_pos ha]
    constructor
    · rintro ⟨-, hb⟩
      exact .inl ⟨ha, hb⟩
    · rintro (⟨-, hb⟩ | ⟨hs, hb⟩)
      · exact ⟨.inl ha, hb⟩
      · exact ⟨.inl ha, hb.trans (ha.symm.trans hs)⟩
  · rw [if_neg ha]
    constructor
    · rintro ⟨hside, hs⟩
      exact .inr ⟨hs, hside.resolve_left ha⟩
    · rintro (⟨h', -⟩ | ⟨hs, hb⟩)
      · exact absurd h' ha
      · exact ⟨.inr hb, hs⟩

end ContradictsEdge

theorem parse_eq_supersession {s : String} : Verdict.parse s = some .supersession ↔ s = "supersession" := by
  constructor
  · intro h
    have := List.find?_some h
    exact (of_decide_eq_true this).symm
  · rintro rfl
    decide

/-- What a row's verdict columns say of a survivor. -/
theorem rowVerdict_picks {g : EdgeStore} {e : ContradictsEdge} {s : String} {c : ℚ} :
    (∃ v, Bridge.rowVerdict (g.columns e) = some v ∧ v.verdict = .supersession ∧ v.verdictSurvivor = some s ∧
      v.verdictConfidence = c) ↔ e.Picks s c := by
  have hrow : Bridge.rowVerdict (g.columns e) = (e.verdict.asStr.bind Verdict.parse).map fun verdict =>
      { verdict, verdictSurvivor := e.verdictSurvivor.asStr
        verdictReason := e.verdictReason.asStr.getD ""
        verdictConfidence := e.verdictConfidence.asF64.getD 0
        verdictModel := e.verdictModel.asStr.getD ""
        judgedAt := e.judgedAt.asF64.getD 0 } := by
    unfold Bridge.rowVerdict
    show (e.verdict.asStr.bind fun s => (Verdict.parse s).bind _) = _
    cases e.verdict.asStr with
    | none => rfl
    | some text =>
      show (Verdict.parse text).bind _ = (Verdict.parse text).map _
      cases Verdict.parse text <;> rfl
  rw [hrow, ContradictsEdge.Picks, ← Value.asStr_eq_some, ← Value.asStr_eq_some]
  constructor
  · rintro ⟨v, hv, hverdict, hsurvivor, hconfidence⟩
    obtain ⟨verdict, hparse, rfl⟩ := Option.map_eq_some_iff.mp hv
    obtain ⟨text, htext, hparse⟩ := Option.bind_eq_some_iff.mp hparse
    obtain rfl : verdict = .supersession := hverdict
    rw [parse_eq_supersession.mp hparse] at htext
    exact ⟨htext, hsurvivor, hconfidence⟩
  · rintro ⟨hverdict, hsurvivor, hconfidence⟩
    rw [hverdict]
    exact ⟨_, rfl, rfl, hsurvivor, hconfidence⟩

/-- What the graph says for listing `s` under `h`. -/
structure Qualified (g : EdgeStore) (min : ℚ) (h s : String) (c : ℚ) : Prop where
  picked : ∃ e ∈ g.contradicts, e.Joins h s ∧ e.Picks s c
  confident : min ≤ c
  greatest : ∀ e ∈ g.contradicts, ∀ c', e.Joins h s → e.Picks s c' → c' ≤ c
  /-- No stamp of any value, on an edge in either direction. -/
  unresolved : ∀ e ∈ g.contradicts, e.Joins h s → e.resolution = .null
  live : ¬g.Superseded h ∧ ¬g.Superseded s

/-- The refs are the edges of `h` from its side. -/
def RefsOf (g : EdgeStore) (h : String) (refs : List ContradictionRef) : Prop :=
  ∀ r, r ∈ refs ↔ ∃ e ∈ g.contradicts, (e.a = h ∨ e.b = h) ∧ e.ref g h = some r

section

variable {g : EdgeStore} {h s : String} {c min : ℚ} {refs : List ContradictionRef}

theorem mem_settled (hrefs : RefsOf g h refs) : s ∈ settled refs ↔
    ∃ e ∈ g.contradicts, e.Joins h s ∧ (e.resolution ≠ .null ∨ g.Superseded h ∨ g.Superseded s) := by
  have hnull : ∀ v : Value, (!v.isNull) = true ↔ v ≠ .null := by
    intro v
    cases v <;> simp [Value.isNull]
  have hends : ∀ e : ContradictsEdge, e.Joins h s →
      (g.Superseded e.a ∨ g.Superseded e.b ↔ g.Superseded h ∨ g.Superseded s) := by
    rintro e (⟨rfl, rfl⟩ | ⟨rfl, rfl⟩)
    · exact Iff.rfl
    · exact or_comm
  unfold settled
  constructor
  · intro hs
    obtain ⟨r, hr, hother⟩ := List.mem_map.mp hs
    obtain ⟨hmem, hflags⟩ := List.mem_filter.mp hr
    obtain ⟨e, he, hside, href⟩ := (hrefs r).mp hmem
    obtain ⟨r', href', hhash, -, hresolved, hsuperseded⟩ := ref_spec he h
    obtain rfl := Option.some.inj (href'.symm.trans href)
    have hjoins := ContradictsEdge.joins_iff.mp ⟨hside, hhash.symm.trans hother⟩
    refine ⟨e, he, hjoins, ?_⟩
    rw [Bool.or_eq_true, hresolved, hnull, hsuperseded, hends e hjoins] at hflags
    exact hflags
  · rintro ⟨e, he, hjoins, hwhy⟩
    obtain ⟨hside, hother⟩ := ContradictsEdge.joins_iff.mpr hjoins
    obtain ⟨r, href, hhash, -, hresolved, hsuperseded⟩ := ref_spec he h
    refine List.mem_map.mpr ⟨r, List.mem_filter.mpr ⟨(hrefs r).mpr ⟨e, he, hside, href⟩, ?_⟩, hhash.trans hother⟩
    rw [Bool.or_eq_true, hresolved, hnull, hsuperseded, hends e hjoins]
    exact hwhy

theorem qualifying_eq_some {listed : List String} {r : ContradictionRef} :
    qualifying listed min r = some (s, c) ↔ r.contradictsHash = s ∧ s ∉ listed ∧ min ≤ c ∧
      ∃ v, r.verdict = some v ∧ v.verdict = .supersession ∧ v.verdictSurvivor = some s ∧ v.verdictConfidence = c := by
  unfold qualifying
  cases r.verdict with
  | none => simp
  | some v =>
    dsimp only
    constructor
    · intro h
      split at h
      · cases h
      · next hnot =>
        simp only [not_or, not_not, not_lt] at hnot
        obtain ⟨hverdict, hmin, hsurvivor, hlisted⟩ := hnot
        obtain ⟨rfl, rfl⟩ := Prod.mk.inj (Option.some.inj h)
        exact ⟨rfl, hlisted, hmin, v, rfl, hverdict, hsurvivor, rfl⟩
    · rintro ⟨rfl, hlisted, hmin, v', hv', hverdict, hsurvivor, rfl⟩
      obtain rfl := Option.some.inj hv'
      rw [if_neg]
      simp only [not_or, not_not, not_lt]
      exact ⟨hverdict, hmin, hsurvivor, hlisted⟩

/-- **The candidates of a memory** are what the graph qualifies, each with its greatest confidence. -/
theorem mem_graphCandidates (hrefs : RefsOf g h refs) :
    (s, c) ∈ graphCandidates refs min ↔ Qualified g min h s c := by
  have hmem : ∀ c, (s, c) ∈ refs.filterMap (qualifying (settled refs) min) ↔
      (∃ e ∈ g.contradicts, e.Joins h s ∧ e.Picks s c) ∧ min ≤ c ∧ s ∉ settled refs := by
    intro c
    rw [List.mem_filterMap]
    constructor
    · rintro ⟨r, hr, hq⟩
      obtain ⟨hother, hnot, hmin, hpicks⟩ := qualifying_eq_some.mp hq
      obtain ⟨e, he, hside, href⟩ := (hrefs r).mp hr
      obtain ⟨r', href', hhash, hverdict, -⟩ := ref_spec he h
      obtain rfl := Option.some.inj (href'.symm.trans href)
      rw [hverdict] at hpicks
      exact ⟨⟨e, he, ContradictsEdge.joins_iff.mp ⟨hside, hhash.symm.trans hother⟩, rowVerdict_picks.mp hpicks⟩,
        hmin, hnot⟩
    · rintro ⟨⟨e, he, hjoins, hpicks⟩, hmin, hnot⟩
      obtain ⟨hside, hother⟩ := ContradictsEdge.joins_iff.mpr hjoins
      obtain ⟨r, href, hhash, hverdict, -⟩ := ref_spec he h
      refine ⟨r, (hrefs r).mpr ⟨e, he, hside, href⟩, qualifying_eq_some.mpr ⟨hhash.trans hother, hnot, hmin, ?_⟩⟩
      rw [hverdict]
      exact rowVerdict_picks.mpr hpicks
  unfold graphCandidates
  rw [Greatest.mem_collect, hmem]
  constructor
  · rintro ⟨⟨⟨e, he, hjoins, hpicks⟩, hmin, hnot⟩, hgreatest⟩
    have hopen : ∀ e ∈ g.contradicts, e.Joins h s → e.resolution = .null ∧ ¬(g.Superseded h ∨ g.Superseded s) := by
      intro e' he' hjoins'
      have hnone := fun hwhy => hnot ((mem_settled hrefs).mpr ⟨e', he', hjoins', hwhy⟩)
      exact ⟨not_not.mp fun hstamp => hnone (.inl hstamp), fun hsuperseded => hnone (.inr hsuperseded)⟩
    refine ⟨⟨e, he, hjoins, hpicks⟩, hmin, fun e' he' c' hjoins' hpicks' => ?_,
      fun e' he' hjoins' => (hopen e' he' hjoins').1, not_or.mp (hopen e he hjoins).2⟩
    by_cases hc' : min ≤ c'
    · exact hgreatest c' ((hmem c').mpr ⟨⟨e', he', hjoins', hpicks'⟩, hc', hnot⟩)
    · exact (not_le.mp hc').le.trans hmin
  · rintro ⟨hpicked, hmin, hgreatest, hopen, hlive⟩
    refine ⟨⟨hpicked, hmin, fun hs => ?_⟩, fun c' hc' => ?_⟩
    · obtain ⟨e, he, hjoins, hstamp | hsuperseded⟩ := (mem_settled hrefs).mp hs
      · exact hstamp (hopen e he hjoins)
      · exact hsuperseded.elim hlive.1 hlive.2
    · obtain ⟨⟨e, he, hjoins, hpicks⟩, -⟩ := (hmem c').mp hc'
      exact hgreatest e he c' hjoins hpicks

end

/-! ### What a page reads -/

/-- The points of the collection: each holds a memory under the id of its hash. -/
structure MemoryPoints where
  points : Points
  keyed : ∀ id p m, points id = some p → parsePayload p = some m → hashToUuid m.contentHash = .ok id

/-- The memory is stored under its hash. -/
def MemoryPoints.Stored (v : MemoryPoints) (s : String) (m : Memory) : Prop :=
  ∃ id p, v.points id = some p ∧ parsePayload p = some m ∧ m.contentHash = s

/-- The bridge answers each request from the rows of its edges, in any order. -/
def AsksBridge (g : EdgeStore) (ask : AskRefs) : Prop :=
  ∀ i hashes, ∃ rows : List (List Value), rows.Perm (g.getContradictionsForHashes hashes) ∧
    ask i hashes = (Bridge.forHashes hashes rows).map contradictionRefs

/-- A way to split the hashes of a page into requests the bridge accepts. -/
def Splits (split : List String → List (List String)) : Prop :=
  ∀ hashes, (split hashes).flatten = hashes ∧ ∀ slice ∈ split hashes, slice.length ≤ Bridge.maxForHashes

theorem splits_chunks : Splits (chunks newerRelatedChunk) := by
  refine fun hashes => ⟨flatten_chunks (by decide) hashes, fun slice hslice => ?_⟩
  obtain ⟨i, -, rfl⟩ := List.mem_map.mp hslice
  exact List.length_take_le _ _

section

variable {g : EdgeStore} {ask : AskRefs} {v : MemoryPoints}

/-- A request answers the edges of its hashes, and no other hash. -/
theorem ask_spec (hask : AsksBridge g ask) (i : ℕ) {hashes : List String}
    (hfew : hashes.length ≤ Bridge.maxForHashes) :
    ∃ body, ask i hashes = .ok body ∧ (∀ h ∈ hashes, ∃ refs, body h = some refs ∧ RefsOf g h refs) ∧
      ∀ h ∉ hashes, body h = none := by
  obtain ⟨rows, hrows, hanswer⟩ := hask i hashes
  obtain ⟨body, hbody, hrefs⟩ := refs_spec hfew hrows
  rw [hbody] at hanswer
  refine ⟨contradictionRefs body, hanswer, hrefs, fun h hh => ?_⟩
  rw [contradictionRefs, Bridge.forHashes_eq_none hbody hh]
  rfl

/-- The refs a page asks for in slices are those of every hash of a slice. -/
theorem readSlices_spec (hask : AsksBridge g ask) {slices : List (List String × ℕ)}
    (hfew : ∀ slice ∈ slices, slice.1.length ≤ Bridge.maxForHashes)
    (refs : String → Option (List ContradictionRef)) :
    ∃ refs', slices.foldlM (MemoryService.readSlice ask) refs = .ok refs' ∧
      ∀ h, h ∈ (slices.map Prod.fst).flatten ∨ (∃ listed, refs h = some listed ∧ RefsOf g h listed) →
        ∃ listed, refs' h = some listed ∧ RefsOf g h listed := by
  induction slices generalizing refs with
  | nil => exact ⟨refs, rfl, fun h hh => hh.resolve_left (List.not_mem_nil)⟩
  | cons slice slices ih =>
    obtain ⟨body, hbody, hthere, hnone⟩ := ask_spec hask slice.2 (hfew slice List.mem_cons_self)
    obtain ⟨refs', hfold, hrefs⟩ := ih (fun slice hs => hfew slice (List.mem_cons_of_mem _ hs))
      fun h => (body h).or (refs h)
    refine ⟨refs', ?_, fun h hh => ?_⟩
    · rw [List.foldlM_cons, MemoryService.readSlice, hbody]
      exact hfold
    · rw [List.map_cons, List.flatten_cons, List.mem_append, or_assoc] at hh
      by_cases hmem : h ∈ slice.1
      · obtain ⟨listed, hlisted, hof⟩ := hthere h hmem
        exact hrefs h (.inr ⟨listed, by rw [hlisted]; rfl, hof⟩)
      · refine hrefs h ((hh.resolve_left hmem).imp_right fun ⟨listed, hlisted, hof⟩ => ⟨listed, ?_, hof⟩)
        rw [hnone h hmem, hlisted]
        rfl

theorem mem_ids {hashes : List String} {ids : List PointId} (h : hashes.mapM hashToUuid = .ok ids)
    {s : String} (hs : s ∈ hashes) {id : PointId} (hid : hashToUuid s = .ok id) : id ∈ ids := by
  obtain ⟨id', hmem, hid'⟩ := Rows.exists_mem_zip_of_mapM h hs
  obtain rfl := Except.ok.inj (hid.symm.trans hid')
  exact (List.of_mem_zip hmem).2

/-- A batch of well-formed hashes answers what is stored under each. -/
theorem lookup_getBatch (v : MemoryPoints) {hashes : List String} (hvalid : ∀ s ∈ hashes, validateContentHash s) :
    ∃ batch, getBatch v.points hashes = .ok batch ∧
      ∀ s ∈ hashes, ∀ m, MemoryService.lookupMemory batch s = some m ↔ v.Stored s m := by
  obtain ⟨batch, hbatch⟩ := exists_getBatch v.points hvalid
  obtain ⟨ids, hids, hread⟩ := bind_eq_ok.mp hbatch
  obtain rfl := Except.ok.inj hread
  refine ⟨_, hbatch, fun s hs m => ?_⟩
  have hmem : ∀ m, m ∈ (ids.filterMap fun id => (v.points id).bind parsePayload) ↔
      ∃ id ∈ ids, ∃ p, v.points id = some p ∧ parsePayload p = some m := by
    intro m
    simp only [List.mem_filterMap, Option.bind_eq_some_iff]
  unfold MemoryService.lookupMemory
  constructor
  · intro hfind
    obtain ⟨id, -, p, hpoint, hparse⟩ := (hmem m).mp (List.mem_reverse.mp (List.mem_of_find?_eq_some hfind))
    exact ⟨id, p, hpoint, hparse, by simpa using List.find?_some hfind⟩
  · rintro ⟨id, p, hpoint, hparse, hhash⟩
    have hid : hashToUuid s = .ok id := by
      rw [← hhash]
      exact v.keyed id p m hpoint hparse
    have hin := List.mem_reverse.mpr ((hmem m).mpr ⟨id, mem_ids hids hs hid, p, hpoint, hparse⟩)
    cases hfind : (ids.filterMap fun id => (v.points id).bind parsePayload).reverse.find?
        fun m => m.contentHash = s with
    | none =>
      have := List.find?_eq_none.mp hfind m hin
      simp [hhash] at this
    | some m' =>
      obtain ⟨id', -, p', hpoint', hparse'⟩ := (hmem m').mp (List.mem_reverse.mp (List.mem_of_find?_eq_some hfind))
      have hhash' : m'.contentHash = s := by simpa using List.find?_some hfind
      have hid' := v.keyed id' p' m' hpoint' hparse'
      rw [hhash', hid] at hid'
      obtain rfl := Except.ok.inj hid'
      obtain rfl := Option.some.inj (hpoint'.symm.trans hpoint)
      exact hparse'.symm.trans hparse

end

/-! ### What is listed -/

/-- The copy of a memory that a page's pointer reads: the last one without a marker. -/
def liveCopy (results : List Memory) (h : String) : Option Memory :=
  results.reverse.find? fun m => !m.isSuperseded && decide (m.contentHash = h)

/-- **The specification of a pointer.**  The live copy of `h` on the page has `s` listed exactly when the graph
qualifies it and it is stored, live and newer; each `s` once, highest confidence first. -/
structure Listing (g : EdgeStore) (v : MemoryPoints) (min : ℚ) (results : List Memory) (h : String)
    (out : List (String × ℚ)) : Prop where
  mem : ∀ s c, (s, c) ∈ out ↔ ∃ k, liveCopy results h = some k ∧ Qualified g min h s c ∧
    ∃ m, v.Stored s m ∧ m.isSuperseded = false ∧ k.createdAt < m.createdAt
  nodup : (out.map Prod.fst).Nodup
  sorted : out.Pairwise fun p q => rank p ≤ rank q

theorem rank_inj {p q : String × ℚ} (h : rank p = rank q) : p = q := by
  obtain ⟨hconfidence, hhash⟩ := Prod.mk.inj (toLex.injective h)
  exact Prod.ext hhash (OrderDual.toDual.injective hconfidence)

theorem Listing.unique {g : EdgeStore} {v : MemoryPoints} {min : ℚ} {results : List Memory} {h : String}
    {out out' : List (String × ℚ)} (hout : Listing g v min results h out) (hout' : Listing g v min results h out') :
    out = out' := by
  have hperm : out.Perm out' := (List.perm_ext_iff_of_nodup hout.nodup.of_map hout'.nodup.of_map).mpr
    fun p => (hout.mem p.1 p.2).trans (hout'.mem p.1 p.2).symm
  exact hperm.eq_of_pairwise (fun p q _ _ hpq hqp => rank_inj (le_antisymm hpq hqp)) hout.sorted hout'.sorted

/-- A pointer lists the listable candidates, in the order of their ranks. -/
theorem pointer_spec {hit : Hit} (hlive : hit.superseded = false) {candidates : List (String × ℚ)}
    (hnodup : (candidates.map Prod.fst).Nodup) (survivors : String → Option Memory) :
    (∀ p, p ∈ pointer hit candidates survivors ↔ p ∈ candidates ∧ listable hit survivors p = true) ∧
      ((pointer hit candidates survivors).map Prod.fst).Nodup ∧
      (pointer hit candidates survivors).Pairwise fun p q => rank p ≤ rank q := by
  rw [pointer, if_neg (by simp [hlive])]
  refine ⟨fun p => by rw [List.mem_mergeSort, List.mem_filter], ?_, ?_⟩
  · rw [((List.mergeSort_perm _ _).map Prod.fst).nodup_iff]
    exact hnodup.sublist (List.filter_sublist.map Prod.fst)
  · exact Rows.pairwise_mergeSort_key rank _

section

variable {g : EdgeStore} {ask : AskRefs} {v : MemoryPoints} {min : ℚ} {results : List Memory}
  {split : List String → List (List String)}

theorem Qualified.valid {h s : String} {c : ℚ} (hq : Qualified g min h s c) : validateContentHash s := by
  obtain ⟨e, he, ⟨-, rfl⟩ | ⟨rfl, -⟩, -⟩ := hq.picked
  · exact (g.valid e he).2
  · exact (g.valid e he).1

/-- The candidates of a hash are those of its live copy. -/
theorem find_candidates (results : List Memory) (candidates : String → List (String × ℚ)) (h : String) :
    ((((results.map Hit.fromResult).filter fun h => !h.superseded).map fun h => (h, candidates h.hash)).filter
        fun c => !c.2.isEmpty).reverse.find? (fun c => c.1.hash = h) =
      if (candidates h).isEmpty then none
      else (liveCopy results h).map fun k => (Hit.fromResult k, candidates h) := by
  rw [← List.filter_reverse, List.find?_filter, ← List.map_reverse, List.find?_map, ← List.filter_reverse,
    List.find?_filter, ← List.map_reverse, List.find?_map]
  unfold liveCopy
  by_cases hempty : (candidates h).isEmpty = true
  · rw [if_pos hempty, Option.map_eq_none_iff, Option.map_eq_none_iff, List.find?_eq_none]
    intro m _ hm
    simp only [Function.comp_apply, Bool.decide_and, Bool.and_eq_true, decide_eq_true_iff] at hm
    obtain ⟨-, hnonempty, rfl⟩ := hm
    rw [hempty] at hnonempty
    cases hnonempty
  · rw [if_neg hempty, Option.map_map]
    have hsame : ((fun a : Hit => decide ((!a.superseded) = true ∧ ((fun a : Hit × List (String × ℚ) =>
          decide ((!a.2.isEmpty) = true ∧ decide (a.1.hash = h) = true)) ∘ fun h => (h, candidates h.hash)) a =
            true)) ∘ Hit.fromResult) = fun m : Memory => !m.isSuperseded && decide (m.contentHash = h) := by
      funext m
      show decide ((!m.isSuperseded) = true ∧ decide ((!(candidates m.contentHash).isEmpty) = true ∧
        decide (m.contentHash = h) = true) = true) = _
      by_cases hhash : m.contentHash = h
      · simp [hhash, hempty]
      · simp [hhash]
    rw [hsame]
    cases hfind : results.reverse.find? fun m => !m.isSuperseded && decide (m.contentHash = h) with
    | none => rfl
    | some k =>
      have hhash : k.contentHash = h := by
        have := List.find?_some hfind
        simp only [Bool.and_eq_true, decide_eq_true_iff] at this
        exact this.2
      show some (Hit.fromResult k, candidates k.contentHash) = some (Hit.fromResult k, candidates h)
      rw [hhash]

theorem not_superseded_of_liveCopy {h : String} {k : Memory} (hk : liveCopy results h = some k) :
    k ∈ results ∧ k.isSuperseded = false ∧ k.contentHash = h := by
  have hfound := List.find?_some hk
  simp only [Bool.and_eq_true, Bool.not_eq_true', decide_eq_true_iff] at hfound
  exact ⟨List.mem_reverse.mp (List.mem_of_find?_eq_some hk), hfound⟩

/-- The pointer of a hash, from its candidates and what is stored of them. -/
theorem listing_of_candidates {h : String} {candidates : List (String × ℚ)}
    (hnodup : (candidates.map Prod.fst).Nodup)
    (hmem : ∀ k, liveCopy results h = some k → ∀ s c, (s, c) ∈ candidates ↔ Qualified g min h s c)
    (survivors : String → Option Memory)
    (hstored : ∀ k, liveCopy results h = some k → ∀ s c, (s, c) ∈ candidates →
      ∀ m, survivors s = some m ↔ v.Stored s m) :
    Listing g v min results h (((if candidates.isEmpty then none
      else (liveCopy results h).map fun k => (Hit.fromResult k, candidates)).map
        fun c => pointer c.1 c.2 survivors).getD []) := by
  cases hcopy : liveCopy results h with
  | none =>
    have hnil : ((if candidates.isEmpty then none
      else (none : Option Memory).map fun k => (Hit.fromResult k, candidates)).map
        fun c => pointer c.1 c.2 survivors).getD [] = [] := by
      split <;> rfl
    rw [hnil]
    refine ⟨fun s c => ⟨nofun, ?_⟩, List.nodup_nil, List.Pairwise.nil⟩
    rintro ⟨k, hk, -⟩
    cases hcopy.symm.trans hk
  | some k =>
    by_cases hempty : candidates.isEmpty = true
    · rw [if_pos hempty]
      refine ⟨fun s c => ⟨nofun, ?_⟩, List.nodup_nil, List.Pairwise.nil⟩
      rintro ⟨-, -, hq, -⟩
      have hin := (hmem k hcopy s c).mpr hq
      rw [List.isEmpty_iff.mp hempty] at hin
      cases hin
    · rw [if_neg hempty]
      have hlive : (Hit.fromResult k).superseded = false := (not_superseded_of_liveCopy hcopy).2.1
      obtain ⟨hpointer, hkeys, hsorted⟩ := pointer_spec hlive hnodup survivors
      refine ⟨fun s c => ?_, hkeys, hsorted⟩
      show (s, c) ∈ pointer (Hit.fromResult k) candidates survivors ↔ _
      rw [hpointer]
      constructor
      · rintro ⟨hin, hlistable⟩
        obtain ⟨m, hm, hnewer⟩ := Option.any_eq_true _ _ |>.mp hlistable
        simp only [Bool.and_eq_true, Bool.not_eq_true', decide_eq_true_iff] at hnewer
        exact ⟨k, hcopy, (hmem k hcopy s c).mp hin, m, (hstored k hcopy s c hin m).mp hm, hnewer⟩
      · rintro ⟨k', hk', hq, m, hm, hmlive, hnewer⟩
        obtain rfl := Option.some.inj (hcopy.symm.trans hk')
        have hin := (hmem k hcopy s c).mpr hq
        refine ⟨hin, Option.any_eq_true _ _ |>.mpr ⟨m, (hstored k hcopy s c hin m).mpr hm, ?_⟩⟩
        simp only [Bool.and_eq_true, Bool.not_eq_true', decide_eq_true_iff]
        exact ⟨hmlive, hnewer⟩

/-- **A page that is read** lists under every hash what the specification says. -/
theorem newerRelatedFor_spec (v : MemoryPoints) (min : ℚ) (results : List Memory) (hask : AsksBridge g ask)
    (hsplit : Splits split) :
    ∃ found, MemoryService.newerRelatedFor ask v.points split min results = .ok found ∧
      ∀ h, Listing g v min results h ((found h).getD []) := by
  set hits := (results.map Hit.fromResult).filter fun h => !h.superseded with hhits
  obtain ⟨hflatten, hfew⟩ := hsplit (hits.map Hit.hash)
  have hslices : ∀ slice ∈ (split (hits.map Hit.hash)).zipIdx, slice.1.length ≤ Bridge.maxForHashes :=
    fun slice hs => hfew slice.1 (List.fst_mem_of_mem_zipIdx hs)
  obtain ⟨refs, hread, hrefs⟩ := readSlices_spec hask hslices fun _ => none
  rw [List.zipIdx_map_fst, hflatten] at hrefs
  set candidates : String → List (String × ℚ) := fun h => graphCandidates ((refs h).getD []) min with hcandidates
  have hqualified : ∀ hit ∈ hits, ∀ s c, (s, c) ∈ candidates hit.hash ↔ Qualified g min hit.hash s c := by
    intro hit hhit s c
    obtain ⟨listed, hlisted, hof⟩ := hrefs hit.hash (.inl (List.mem_map.mpr ⟨hit, hhit, rfl⟩))
    show (s, c) ∈ graphCandidates ((refs hit.hash).getD []) min ↔ _
    rw [hlisted]
    exact mem_graphCandidates hof
  have hcopy : ∀ {h k}, liveCopy results h = some k → Hit.fromResult k ∈ hits ∧ k.contentHash = h := by
    intro h k hk
    obtain ⟨hin, hlive, hhash⟩ := not_superseded_of_liveCopy hk
    exact ⟨List.mem_filter.mpr ⟨List.mem_map.mpr ⟨k, hin, rfl⟩, by simp [Hit.fromResult, hlive]⟩, hhash⟩
  have hmem : ∀ h k, liveCopy results h = some k → ∀ s c, (s, c) ∈ candidates h ↔ Qualified g min h s c := by
    intro h k hk
    obtain ⟨hhit, rfl⟩ := hcopy hk
    exact hqualified _ hhit
  have hnodup : ∀ h, ((candidates h).map Prod.fst).Nodup := fun h => Greatest.nodup_collect _
  set listed := (hits.map fun h => (h, candidates h.hash)).filter fun c => !c.2.isEmpty with hlisted
  have hfind : ∀ h, listed.reverse.find? (fun c => c.1.hash = h) = if (candidates h).isEmpty then none
      else (liveCopy results h).map fun k => (Hit.fromResult k, candidates h) :=
    find_candidates results candidates
  have hrun : MemoryService.newerRelatedFor ask v.points split min results =
      if listed.isEmpty then .ok fun _ => none
      else do
        let batch ← getBatch v.points
          ((listed.flatMap fun c => c.2.map Prod.fst).mergeSort fun h h' => h ≤ h').dedup
        return fun hash => (listed.reverse.find? fun c => c.1.hash = hash).map
          fun c => pointer c.1 c.2 (MemoryService.lookupMemory batch) := by
    unfold MemoryService.newerRelatedFor
    show (MemoryService.readRefs ask _ >>= _) = _
    rw [MemoryService.readRefs, hread]
    rfl
  rw [hrun]
  have hthere : ∀ {h k}, liveCopy results h = some k → ∀ {s c}, (s, c) ∈ candidates h →
      (Hit.fromResult k, candidates h) ∈ listed := by
    intro h k hk s c hin
    obtain ⟨hhit, rfl⟩ := hcopy hk
    refine List.mem_filter.mpr ⟨List.mem_map.mpr ⟨_, hhit, rfl⟩, ?_⟩
    have hne := List.ne_nil_of_mem hin
    simp [hne]
  by_cases hempty : listed.isEmpty = true
  · refine ⟨fun _ => none, if_pos hempty, fun h => ?_⟩
    have hnone : listed.reverse.find? (fun c => c.1.hash = h) = none := by
      rw [List.isEmpty_iff.mp hempty]
      rfl
    have hlisting := listing_of_candidates (v := v) (hnodup h) (hmem h) (fun _ => none)
      fun k hk s c hin => by
        have hin := hthere hk hin
        rw [List.isEmpty_iff.mp hempty] at hin
        cases hin
    rwa [← hfind, hnone] at hlisting
  · have hvalid : ∀ s ∈ ((listed.flatMap fun c => c.2.map Prod.fst).mergeSort fun h h' => h ≤ h').dedup,
        validateContentHash s := by
      intro s hs
      rw [List.mem_dedup, List.mem_mergeSort] at hs
      obtain ⟨c, hc, hkey⟩ := List.mem_flatMap.mp hs
      obtain ⟨hit, hhit, rfl⟩ := List.mem_map.mp (List.mem_filter.mp hc).1
      obtain ⟨⟨s, c⟩, hp, rfl⟩ := List.mem_map.mp hkey
      exact ((hqualified hit hhit s c).mp hp).valid
    obtain ⟨batch, hbatch, hlookup⟩ := lookup_getBatch v hvalid
    refine ⟨_, by rw [if_neg hempty, hbatch]; rfl, fun h => ?_⟩
    rw [hfind]
    refine listing_of_candidates (hnodup h) (hmem h) _ fun k hk s c hin => hlookup s ?_
    rw [List.mem_dedup, List.mem_mergeSort]
    exact List.mem_flatMap.mpr ⟨_, hthere hk hin, List.mem_map.mpr ⟨(s, c), hin, rfl⟩⟩

/-- **`newer_related` is its specification.**  What is listed under a hash of a page is determined by the
graph, the store, the threshold and the live copy of the hash on the page: it is the same however the hashes are
split into requests and in whatever order the edges are read. -/
theorem newerRelated_exact (g : EdgeStore) (v : MemoryPoints) (min : ℚ) (results : List Memory) :
    ∃ listed : String → List (String × ℚ),
      (∀ ask split, AsksBridge g ask → Splits split →
        MemoryService.addNewerRelated (MemoryService.newerRelatedFor ask v.points split min results) results =
          results.map fun m => (m, listed m.contentHash)) ∧
      Splits (chunks newerRelatedChunk) ∧
      ∀ h, Listing g v min results h (listed h) := by
  have hasked : AsksBridge g fun _ hashes =>
      (Bridge.forHashes hashes (g.getContradictionsForHashes hashes)).map contradictionRefs :=
    fun i hashes => ⟨_, List.Perm.refl _, rfl⟩
  obtain ⟨found, -, hlisting⟩ := newerRelatedFor_spec v min results hasked splits_chunks
  refine ⟨fun h => (found h).getD [], fun ask split hask hsplit => ?_, splits_chunks, hlisting⟩
  obtain ⟨found', hfound', hlisting'⟩ := newerRelatedFor_spec v min results hask hsplit
  rw [hfound']
  exact List.map_congr_left fun m _ => congrArg (Prod.mk m) ((hlisting' _).unique (hlisting _))

end

/-! ### A page with two copies of a memory -/

namespace NewerRelated

def olderHash : String := String.ofList (List.replicate 64 'a')

def newerHash : String := String.ofList (List.replicate 64 'b')

def copy (metadata : Option Object) : Memory where
  content := "old"
  contentHash := olderHash
  tags := []
  memoryType := "note"
  metadata
  createdAt := 1
  updatedAt := 1
  embedding := none
  summary := none
  salienceScore := 0
  accessCount := 0
  accessTimestamps := []
  emotionalValence := none
  encodingContext := none
  provenance := none
  summaryEmbedding := none
  supersessionLog := none
  supersessionReason := none
  nearestSimilarity := none

/-- A copy read before a supersession, and one read after it. -/
def copies : List Memory := [copy none, copy (some [(supersededByKey, .string newerHash)])]

/-- The judge picked the newer of two memories. -/
def judgedPair : EdgeStore where
  contradicts := [{
    a := olderHash, b := newerHash, verdict := .string "supersession", verdictSurvivor := .string newerHash
    verdictConfidence := .ofF64 0.95 }]
  supersedes := []
  valid e he := by
    obtain rfl := List.mem_singleton.mp he
    exact ⟨by decide +kernel, by decide +kernel⟩
  counted := by decide

def newerPayload : Payload :=
  [("content", .string "new"), ("content_hash", .string newerHash), ("created_at", .ofF64 2)]

/-- Only the newer memory is stored. -/
def newerStored : MemoryPoints where
  points id := if (hashToUuid newerHash).toOption = some id then some newerPayload else none
  keyed id p m hp hm := by
    split at hp
    · next hid =>
      obtain rfl := Option.some.inj hp
      obtain rfl : m = _ := (Option.some.inj hm).symm
      exact toOption_eq_some.mp hid
    · cases hp

def askPairRefs : AskRefs := fun _ hashes =>
  (Bridge.forHashes hashes (judgedPair.getContradictionsForHashes hashes)).map contradictionRefs

theorem asksBridge_askPairRefs : AsksBridge judgedPair askPairRefs :=
  fun _ _ => ⟨_, List.Perm.refl _, rfl⟩

theorem qualified_judgedPair : Qualified judgedPair 0.9 olderHash newerHash 0.95 where
  picked := ⟨_, List.mem_singleton.mpr rfl, .inl ⟨rfl, rfl⟩, rfl, rfl, rfl⟩
  confident := by norm_num
  greatest e he c' _ hpicks := by
    obtain rfl := List.mem_singleton.mp he
    obtain ⟨-, -, rfl⟩ := hpicks
    exact le_rfl
  unresolved e he _ := by
    obtain rfl := List.mem_singleton.mp he
    rfl
  live := ⟨fun ⟨_, h⟩ => List.not_mem_nil h, fun ⟨_, h⟩ => List.not_mem_nil h⟩

theorem stored_newer : ∃ m, newerStored.Stored newerHash m ∧ m.isSuperseded = false ∧ (1 : ℚ) < m.createdAt := by
  obtain ⟨id, hid⟩ := exists_hashToUuid (h := newerHash) (by decide +kernel)
  refine ⟨_, ⟨id, newerPayload, if_pos (toOption_eq_some.mpr hid), rfl, rfl⟩, rfl, ?_⟩
  show (1 : ℚ) < 2
  norm_num

end NewerRelated

/-- The page lists the newer memory under its hash. -/
theorem newerRelated_copies : ∃ listed : String → List (String × ℚ),
    MemoryService.addNewerRelated (MemoryService.newerRelatedFor askPairRefs newerStored.points
      (chunks newerRelatedChunk) 0.9 copies) copies = copies.map (fun m => (m, listed m.contentHash)) ∧
      (newerHash, 0.95) ∈ listed olderHash := by
  obtain ⟨listed, hrun, hsplit, hlisting⟩ := newerRelated_exact judgedPair newerStored 0.9 copies
  refine ⟨listed, hrun _ _ asksBridge_askPairRefs hsplit, ((hlisting olderHash).mem _ _).mpr ?_⟩
  exact ⟨copy none, by decide +kernel, qualified_judgedPair, stored_newer⟩

/-- The superseded copy shows the pointer of the live one. -/
theorem superseded_copy_listed : ∃ m listed, (m, listed) ∈ MemoryService.addNewerRelated
    (MemoryService.newerRelatedFor askPairRefs newerStored.points (chunks newerRelatedChunk) 0.9 copies) copies ∧
      m.isSuperseded = true ∧ (newerHash, 0.95) ∈ listed := by
  obtain ⟨found, hfound, hlisting⟩ :=
    newerRelatedFor_spec newerStored 0.9 copies asksBridge_askPairRefs splits_chunks
  rw [hfound]
  refine ⟨copy (some [(supersededByKey, .string newerHash)]), _,
    List.mem_map.mpr ⟨_, List.mem_cons_of_mem _ List.mem_cons_self, rfl⟩, rfl, ((hlisting olderHash).mem _ _).mpr ?_⟩
  exact ⟨copy none, by decide +kernel, qualified_judgedPair, stored_newer⟩

end Alaya
