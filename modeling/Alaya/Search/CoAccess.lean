import Alaya.Bridge.Hebbian
import Alaya.Search.Hybrid

/-!
# The co-access report of a hybrid search

A search that may write tells the bridge which memories stood next to each other on its page, all the pairs of the
page in one request.  The bridge refuses a request of more than `maxPairs`, and the page size has no upper bound: so
the report of a page is taken exactly if the page has at most one result more than that (`report_taken_iff`).
-/

namespace Alaya

open Ranking Rows

namespace Hebbian

/-- A batch that is refused, as its client reports it. -/
def tooManyPairs : AlayaError := .graph "Bridge: 422 Unprocessable Entity "

/-- `POST /hebbian/strengthen`, where Redis takes what it is sent: the queue after it, and how many were queued. -/
def strengthen (h : Hebbian) (pairs : List CoAccessPair) : Except AlayaError (Hebbian × ℕ) :=
  if maxPairs < pairs.length then .error tooManyPairs
  else .ok ({ h with queue := pairs.reverse ++ h.queue }, pairs.length)

theorem strengthen_isOk (h : Hebbian) (pairs : List CoAccessPair) :
    (∃ queued, h.strengthen pairs = .ok queued) ↔ pairs.length ≤ maxPairs := by
  unfold strengthen
  split_ifs with hmany
  · exact ⟨fun ⟨_, hqueued⟩ => (by cases hqueued), fun hfew => absurd hmany (Nat.not_lt.mpr hfew)⟩
  · exact ⟨fun _ => Nat.not_lt.mp hmany, fun _ => ⟨_, rfl⟩⟩

/-- A request that is taken is a step of the queue. -/
theorem step_strengthen {h h' : Hebbian} {pairs : List CoAccessPair} {queued : ℕ}
    (hqueued : h.strengthen pairs = .ok (h', queued)) : Step h (.strengthen pairs queued) h' := by
  have hfew : pairs.length ≤ maxPairs := (strengthen_isOk h pairs).mp ⟨_, hqueued⟩
  unfold strengthen at hqueued
  rw [if_neg (Nat.not_lt.mpr hfew)] at hqueued
  cases hqueued
  have hstep := Step.strengthen (h := h) pairs.length hfew
  rwa [List.take_length] at hstep

end Hebbian

namespace MemoryService

/-- The neighbours of a page, as pairs. -/
def coAccessPairs (now : ℚ) (pageHashes : List String) : List Hebbian.CoAccessPair :=
  (pageHashes.zip pageHashes.tail).map fun w => ⟨w.1, w.2, 0.5, now⟩

/-- What a search asks the bridge to queue for its page: nothing under `read_only` or for less than two results. -/
def coAccessReport (readOnly : Bool) (now : ℚ) (pageHashes : List String) : Option (List Hebbian.CoAccessPair) :=
  if !readOnly && 2 ≤ pageHashes.length then some (coAccessPairs now pageHashes) else none

/-- `search_hybrid` with what it asks the bridge to queue.  Every row of the page has its memory and is shown
(`searchHybrid_eq`). -/
def searchAndReport (table : TableOrder) (b : HybridBackends) (params : HybridParams) (asOf : Option ℚ) (now : ℚ)
    (readOnly : Bool) : Option (Except AlayaError (HybridPage × Option (List Hebbian.CoAccessPair))) :=
  (searchHybrid table b params asOf now).map fun answer =>
    answer.map fun shown => (shown, coAccessReport readOnly now (shown.results.map Prod.fst))

end MemoryService

theorem length_coAccessPairs (now : ℚ) (pageHashes : List String) :
    (MemoryService.coAccessPairs now pageHashes).length = pageHashes.length - 1 := by
  unfold MemoryService.coAccessPairs
  rw [List.length_map, List.length_zip, List.length_tail]
  exact min_eq_right (Nat.sub_le _ _)

theorem length_page {α : Type} (skip limit : ℕ) (rows : List α) :
    (page skip limit rows).length = min limit (rows.length - skip) := by
  unfold page
  rw [List.length_take, List.length_drop]

section

variable {table : TableOrder} {b : HybridBackends} {params : HybridParams} {asOf : Option ℚ} {now : ℚ} {readOnly : Bool}
  {shown : HybridPage} {pairs : List Hebbian.CoAccessPair}

theorem searchAndReport_eq
    (h : MemoryService.searchAndReport table b params asOf now readOnly = some (.ok (shown, some pairs))) :
    MemoryService.searchHybrid table b params asOf now = some (.ok shown) ∧ 2 ≤ shown.results.length ∧
      pairs = MemoryService.coAccessPairs now (shown.results.map Prod.fst) := by
  obtain ⟨answer, hanswer, heq⟩ := Option.map_eq_some_iff.mp h
  cases answer with
  | error e => cases heq
  | ok page =>
    obtain ⟨rfl, hreport⟩ := Prod.mk.inj (Except.ok.inj heq)
    unfold MemoryService.coAccessReport at hreport
    split at hreport
    · next hsends =>
      rw [Bool.and_eq_true, decide_eq_true_eq, List.length_map] at hsends
      exact ⟨hanswer, hsends.2, (Option.some.inj hreport).symm⟩
    · cases hreport

/-- **Which reports the bridge takes**: those of the pages that the page size or what is left of the ranking keeps at
51 results or less. -/
theorem report_taken_iff
    (h : MemoryService.searchAndReport table b params asOf now readOnly = some (.ok (shown, some pairs)))
    (bridge : Hebbian) : ∃ r, MemoryService.hybridRanking table b params asOf now = .ok r ∧
      ((∃ queued, bridge.strengthen pairs = .ok queued) ↔ params.pageSize ≤ 51 ∨
        (MemoryService.aboveMin params.minSimilarity r.results).length ≤ (params.page - 1) * params.pageSize + 51) := by
  obtain ⟨hshown, -, rfl⟩ := searchAndReport_eq h
  obtain ⟨r, hr, -, hresults⟩ := searchHybrid_eq hshown
  refine ⟨r, hr, ?_⟩
  rw [Hebbian.strengthen_isOk, length_coAccessPairs, List.length_map, hresults, length_page, Hebbian.maxPairs]
  omega

end

/-! ### A page of many memories -/

/-- A hash for each number below 64. -/
def wideHash (i : ℕ) : String := String.ofList (List.replicate i 'a' ++ List.replicate (64 - i) 'b')

theorem wideHash_injective : Function.Injective wideHash := by
  intro i j h
  have hcount := congrArg (List.count 'a') (String.ofList_injective h)
  simpa [List.count_append, List.count_replicate] using hcount

def wideHits (n : ℕ) : List ScoredMemory := (List.range n).map fun i => ⟨plainMemory (wideHash i), 0⟩

/-- A store of `n` memories that every query finds. -/
def wideBackends (n : ℕ) : HybridBackends where
  lib := plainQuery.lib
  switches := plainQuery.switches
  signals := ⟨fun _ => ⟨[], List.nodup_nil⟩, fun _ _ => none, none⟩
  embedBatch := .ok [[]]
  searchByText _ := .ok []
  searchByVector _ fetch := .ok ((wideHits n).take fetch)
  count := .ok n
  getBatch _ := .ok []

def wideParams (pageSize : ℕ) : HybridParams := { plainParams with pageSize }

theorem hashes_wideHits (n : ℕ) : hashes (wideHits n) = (List.range n).map wideHash := by
  unfold hashes wideHits
  rw [List.map_map]
  rfl

theorem injected_no_graph (table : TableOrder) {q : RankQuery} (signals : Signals)
    (getBatch : List String → Except AlayaError (List Memory)) (params : HybridParams) (vis : Visibility) (alpha : ℚ)
    (vector bm25 : List ScoredMemory) (hgraph : q.switches.graph = false) :
    (rankPools table q signals getBatch params vis alpha vector bm25).injected = [] :=
  injectNeighbors_no_graph _ hgraph _

/-- The ranking of the store holds each of its memories once. -/
theorem ranked_wide {n : ℕ} (hn : n ≤ maxHybridFetch) :
    ∃ r, MemoryService.hybridRanking inOrder (wideBackends n) (wideParams n) none 0 = .ok r ∧ r.results.length = n := by
  have hfetch : (wideHits n).take (hybridFetch n 1) = wideHits n := by
    refine List.take_of_length_le ?_
    unfold wideHits hybridFetch
    rw [List.length_map, List.length_range]
    omega
  have hadmitted : (wideHits n).filter (fun sm => (wideParams n).admits ⟨false, none⟩ sm.memory fun _ => none) =
      wideHits n := by
    refine List.filter_eq_self.mpr fun sm hsm => ?_
    obtain ⟨i, -, rfl⟩ := List.mem_map.mp hsm
    rfl
  have hranking : MemoryService.hybridRanking inOrder (wideBackends n) (wideParams n) none 0 =
      rankHybrid inOrder plainQuery (wideBackends n).signals (wideBackends n).getBatch (wideParams n) ⟨false, none⟩
        (getAdaptiveAlpha n) (wideHits n) [] := by
    have hraw : MemoryService.hybridRanking inOrder (wideBackends n) (wideParams n) none 0 =
        rankHybrid inOrder plainQuery (wideBackends n).signals (wideBackends n).getBatch (wideParams n)
          ⟨false, none⟩ (getAdaptiveAlpha n) ((wideHits n).take (hybridFetch n 1)) [] := rfl
    rw [hraw, hfetch]
  rw [hranking]
  refine ⟨_, rfl, ?_⟩
  dsimp only
  rw [hadmitted, List.filter_nil]
  obtain ⟨hperm, -⟩ := rankPools_perm inOrder plainQuery (wideBackends n).signals (wideBackends n).getBatch
    (wideParams n) ⟨false, none⟩ (getAdaptiveAlpha n) (wideHits n) []
  have hlength := hperm.length_eq
  rw [injected_no_graph _ _ _ _ _ _ _ _ rfl, hashes_wideHits, show hashes [] = [] from rfl, List.append_nil,
    List.append_nil, (List.nodup_range.map wideHash_injective).dedup, List.length_map, List.length_map,
    List.length_range] at hlength
  exact hlength

/-- A page that shows all of the store, and the report on it. -/
theorem shown_wide {n : ℕ} (hn : n ≤ maxHybridFetch) (hpair : 2 ≤ n) : ∃ shown pairs,
    MemoryService.searchAndReport inOrder (wideBackends n) (wideParams n) none 0 false = some (.ok (shown, some pairs)) ∧
      shown.results.length = n ∧ pairs.length = n - 1 := by
  obtain ⟨r, hr, hlength⟩ := ranked_wide hn
  have hblank : ¬(trim (wideParams n).query).isEmpty = true := by
    show ¬(trim "q").isEmpty = true
    decide +kernel
  have hsize : (wideParams n).pageSize * 3 < usizeSize ∧ (wideParams n).page * (wideParams n).pageSize < usizeSize := by
    show n * 3 < usizeSize ∧ 1 * n < usizeSize
    unfold maxHybridFetch at hn
    unfold usizeSize
    omega
  have hall : MemoryService.aboveMin none r.results = r.results := List.filter_eq_self.mpr fun _ _ => rfl
  obtain ⟨shown, hshown⟩ : ∃ shown, MemoryService.searchHybrid inOrder (wideBackends n) (wideParams n) none 0 =
      some (.ok shown) := by
    unfold MemoryService.searchHybrid
    rw [if_neg hblank, if_pos hsize, hr]
    exact ⟨_, rfl⟩
  obtain ⟨r', hr', -, hresults⟩ := searchHybrid_eq hshown
  obtain rfl := Except.ok.inj (hr.symm.trans hr')
  have hcount : shown.results.length = n := by
    rw [hresults, show (wideParams n).minSimilarity = none from rfl, hall, length_page, hlength]
    show min n (n - (1 - 1) * n) = n
    omega
  refine ⟨shown, MemoryService.coAccessPairs 0 (shown.results.map Prod.fst), ?_, hcount, ?_⟩
  · have hsends : 2 ≤ (shown.results.map Prod.fst).length := by rwa [List.length_map, hcount]
    have hreport : MemoryService.coAccessReport false 0 (shown.results.map Prod.fst) =
        some (MemoryService.coAccessPairs 0 (shown.results.map Prod.fst)) := if_pos (decide_eq_true hsends)
    unfold MemoryService.searchAndReport
    rw [hshown, ← hreport]
    rfl
  · rw [length_coAccessPairs, List.length_map, hcount]

/-- **A page of 52 results reports 51 pairs, and the bridge refuses them all.** -/
theorem report_refused : ∃ shown pairs,
    MemoryService.searchAndReport inOrder (wideBackends 52) (wideParams 52) none 0 false =
      some (.ok (shown, some pairs)) ∧ shown.results.length = 52 ∧
    ∀ bridge : Hebbian, bridge.strengthen pairs = .error Hebbian.tooManyPairs := by
  obtain ⟨shown, pairs, hreport, hcount, hlength⟩ := shown_wide (n := 52) (by decide) (by decide)
  refine ⟨shown, pairs, hreport, hcount, fun bridge => if_pos ?_⟩
  rw [hlength]
  decide

/-- A page of two results. -/
theorem report_taken_two : ∃ shown pairs,
    MemoryService.searchAndReport inOrder (wideBackends 2) (wideParams 2) none 0 false =
      some (.ok (shown, some pairs)) ∧ ∀ bridge : Hebbian, ∃ queued, bridge.strengthen pairs = .ok queued := by
  obtain ⟨shown, pairs, hreport, -⟩ := shown_wide (n := 2) (by decide) (by decide)
  refine ⟨shown, pairs, hreport, fun bridge => ?_⟩
  obtain ⟨r, -, htaken⟩ := report_taken_iff hreport bridge
  exact htaken.mpr (.inl (by decide))

end Alaya
