import Alaya.Search.Ranking
import Mathlib.Data.List.GetD

/-!
# Pages of a hybrid search

A page is a window of the ranked list.  The pools a page ranks are fetched for that page: their size grows with
the page number from the fourth page on, up to `maxHybridFetch`.  Pages that rank the same pools, and break ties
alike, fit together (`hybrid_pages_fit`); they do where the stores hold no more than the first page fetches.
-/

namespace Alaya

open Json Ranking Rows

def maxHybridFetch : ℕ := 100

/-- How many hits of each kind a page fetches. -/
def hybridFetch (pageSize page : ℕ) : ℕ := min (max (pageSize * 3) (page * pageSize)) maxHybridFetch

/-- What a hybrid search reads: the stores answer a query and its filter. -/
structure HybridBackends where
  lib : Libm
  switches : RankingSwitches
  signals : Signals
  /-- The embeddings of the query. -/
  embedBatch : Except AlayaError (List (List ℚ))
  searchByText : ℕ → Except AlayaError (List ScoredMemory)
  searchByVector : List ℚ → ℕ → Except AlayaError (List ScoredMemory)
  count : Except AlayaError ℕ
  getBatch : List String → Except AlayaError (List Memory)

/-- One page of an answer; `rerank` is not part of it. -/
structure HybridPage where
  page : ℕ
  total : ℕ
  pageSize : ℕ
  hasMore : Bool
  totalPages : ℕ
  results : List (String × ℚ)
  rerank : Rerank

namespace MemoryService

/-- The first embedding of an answer. -/
def queryEmbedding (embeddings : List (List ℚ)) : Except AlayaError (List ℚ) :=
  match embeddings.head? with
  | some embedding => .ok embedding
  | none => .error (.embedding "empty embedding result")

/-- The ranked list a page is a window of. -/
def hybridRanking (table : TableOrder) (b : HybridBackends) (params : HybridParams) (asOf : Option ℚ) (now : ℚ) :
    Except AlayaError Ranked := do
  let fetch := hybridFetch params.pageSize params.page
  -- A failed keyword search leaves the search dense-only.
  let bm25 := (b.searchByText fetch).toOption.getD []
  let embeddings ← b.embedBatch
  let embedding ← queryEmbedding embeddings
  let alpha := getAdaptiveAlpha (b.count.toOption.getD 0)
  let vector ← b.searchByVector embedding fetch
  rankHybrid table ⟨b.lib, b.switches, embedding, params.encodingContext, asOf.getD now⟩ b.signals b.getBatch params
    ⟨params.includeSuperseded, asOf⟩ alpha vector bm25

/-- The results a bound on the score leaves. -/
def aboveMin (minSimilarity : Option ℚ) (results : List (String × ℚ)) : List (String × ℚ) :=
  results.filter fun p => minSimilarity.all fun m => m ≤ p.2

/-- `search_hybrid` under `read_only`; `none` is an arithmetic overflow.  The caller refuses a page size of zero. -/
def searchHybrid (table : TableOrder) (b : HybridBackends) (params : HybridParams) (asOf : Option ℚ) (now : ℚ) :
    Option (Except AlayaError HybridPage) :=
  if (trim params.query).isEmpty then some (.error (.validation "query is required for hybrid mode"))
  else if params.pageSize * 3 < usizeSize ∧ params.page * params.pageSize < usizeSize then
    some do
      let r ← hybridRanking table b params asOf now
      let scored := aboveMin params.minSimilarity r.results
      let shown := page ((params.page - 1) * params.pageSize) params.pageSize scored
      let totalPages := (scored.length + params.pageSize - 1) / params.pageSize
      return {
        page := params.page
        total := scored.length
        pageSize := params.pageSize
        hasMore := params.page < totalPages
        totalPages
        results := shown.filter fun p => (r.memories p.1).isSome
        rerank := r.rerank }
  else none

end MemoryService

/-! ### Pages of one ranking -/

/-- Two pool sizes bring the same pools: a failed keyword search brings none, and the dense hits are those of the
query's embedding. -/
structure HybridBackends.SamePools (b : HybridBackends) (n m : ℕ) : Prop where
  keyword : (b.searchByText n).toOption.getD [] = (b.searchByText m).toOption.getD []
  dense : ∀ embeddings embedding, b.embedBatch = .ok embeddings →
    MemoryService.queryEmbedding embeddings = .ok embedding → b.searchByVector embedding n = b.searchByVector embedding m

theorem mem_page {α : Type} {skip limit : ℕ} {rows : List α} {x : α} :
    x ∈ page skip limit rows ↔ ∃ i, skip ≤ i ∧ i < skip + limit ∧ rows[i]? = some x := by
  unfold page
  rw [List.mem_iff_getElem?]
  constructor
  · rintro ⟨i, hi⟩
    rw [List.getElem?_take] at hi
    split at hi
    · next hlt =>
      rw [List.getElem?_drop] at hi
      exact ⟨skip + i, by omega, by omega, hi⟩
    · cases hi
  · rintro ⟨i, hle, hlt, hi⟩
    refine ⟨i - skip, ?_⟩
    rw [List.getElem?_take, if_pos (by omega), List.getElem?_drop]
    rwa [Nat.add_sub_cancel' hle]

theorem index_unique {rows : List (String × ℚ)} (hnodup : (rows.map Prod.fst).Nodup) {i j : ℕ} {x y : String × ℚ}
    (hi : rows[i]? = some x) (hj : rows[j]? = some y) (heq : x.1 = y.1) : i = j := by
  have hlt : i < (rows.map Prod.fst).length := by
    rw [List.length_map]
    exact (List.getElem?_eq_some_iff.mp hi).1
  refine (List.getElem?_inj hlt hnodup).mp ?_
  rw [List.getElem?_map, List.getElem?_map, hi, hj]
  exact congrArg some heq

/-- The pages that fetch as many hits as the first. -/
theorem hybridFetch_eq_first {pageSize page : ℕ} (hpage : 1 ≤ page) (hpool : page ≤ 3 ∨ 34 ≤ pageSize) :
    hybridFetch pageSize page = hybridFetch pageSize 1 := by
  unfold hybridFetch maxHybridFetch
  rcases hpool with h | h
  · interval_cases page <;> omega
  · have : pageSize ≤ page * pageSize := Nat.le_mul_of_pos_left _ hpage
    omega

/-- **Up to the third page, or with a page size of at least 34**, every page ranks the pools of the first. -/
theorem HybridBackends.samePools_first (b : HybridBackends) {pageSize page : ℕ} (hpage : 1 ≤ page)
    (h : page ≤ 3 ∨ 34 ≤ pageSize) : b.SamePools (hybridFetch pageSize page) (hybridFetch pageSize 1) := by
  rw [hybridFetch_eq_first hpage h]
  exact ⟨rfl, fun _ _ _ _ => rfl⟩

/-- A page fetches at least as many hits as the first. -/
theorem hybridFetch_first_le (pageSize page : ℕ) : hybridFetch pageSize 1 ≤ hybridFetch pageSize page := by
  unfold hybridFetch
  rw [Nat.one_mul]
  omega

/-- **Where the stores have no more hits than the first page fetches**, every page ranks its pools. -/
theorem HybridBackends.samePools_of_few (b : HybridBackends) {pageSize : ℕ} {keyword : List ScoredMemory}
    {dense : List ℚ → List ScoredMemory} (hkeyword : ∀ n, b.searchByText n = .ok (keyword.take n))
    (hdense : ∀ embedding n, b.searchByVector embedding n = .ok ((dense embedding).take n))
    (hfew : keyword.length ≤ hybridFetch pageSize 1) (hnear : ∀ embedding, (dense embedding).length ≤ hybridFetch pageSize 1)
    (page : ℕ) : b.SamePools (hybridFetch pageSize page) (hybridFetch pageSize 1) where
  keyword := by
    rw [hkeyword, hkeyword, List.take_of_length_le (hfew.trans (hybridFetch_first_le pageSize page)),
      List.take_of_length_le hfew]
  dense _ embedding _ _ := by
    rw [hdense, hdense, List.take_of_length_le ((hnear embedding).trans (hybridFetch_first_le pageSize page)),
      List.take_of_length_le (hnear embedding)]

/-- What a page shows: a window of the ranking. -/
theorem searchHybrid_eq {table : TableOrder} {b : HybridBackends} {params : HybridParams} {asOf : Option ℚ} {now : ℚ}
    {shown : HybridPage} (h : MemoryService.searchHybrid table b params asOf now = some (.ok shown)) :
    ∃ r, MemoryService.hybridRanking table b params asOf now = .ok r ∧ (r.results.map Prod.fst).Nodup ∧
      shown.results = page ((params.page - 1) * params.pageSize) params.pageSize
        (MemoryService.aboveMin params.minSimilarity r.results) := by
  unfold MemoryService.searchHybrid at h
  split at h
  · cases h
  · split at h
    · obtain ⟨r, hr, heq⟩ := bind_eq_ok.mp (Option.some.inj h)
      obtain rfl := Except.ok.inj heq
      have hrank := hr
      unfold MemoryService.hybridRanking at hrank
      obtain ⟨embeddings, -, hrank⟩ := bind_eq_ok.mp hrank
      obtain ⟨embedding, -, hrank⟩ := bind_eq_ok.mp hrank
      obtain ⟨vector, -, hrank⟩ := bind_eq_ok.mp hrank
      obtain ⟨-, -, -, hnodup⟩ := rankHybrid_perm hrank
      refine ⟨r, hr, hnodup, List.filter_eq_self.mpr fun p hp => memories_isSome hrank ?_⟩
      exact (List.mem_filter.mp (List.mem_of_mem_drop (List.mem_of_mem_take hp))).1
    · cases h

section

variable {table : TableOrder} {b : HybridBackends} {params : HybridParams} {asOf : Option ℚ} {now : ℚ}

/-- What follows a computation matters only where it succeeds. -/
theorem bind_congr_ok {ε α β : Type} {x : Except ε α} {f g : α → Except ε β} (h : ∀ a, x = .ok a → f a = g a) :
    x >>= f = x >>= g := by
  cases x with
  | error e => rfl
  | ok a => exact h a rfl

/-- Pages of the same pools are windows of one ranking. -/
theorem hybridRanking_page (table : TableOrder) (params : HybridParams) (asOf : Option ℚ) (now : ℚ) {p p' : ℕ}
    (hpools : b.SamePools (hybridFetch params.pageSize p) (hybridFetch params.pageSize p')) :
    MemoryService.hybridRanking table b { params with page := p } asOf now =
      MemoryService.hybridRanking table b { params with page := p' } asOf now := by
  unfold MemoryService.hybridRanking
  dsimp only
  rw [hpools.keyword]
  refine bind_congr_ok fun embeddings hembeddings => bind_congr_ok fun embedding hembedding => ?_
  rw [hpools.dense embeddings embedding hembeddings hembedding]
  rfl

/-- **Pages of the same pools fit together**: they are the windows of one list without repetitions.  So no memory is
on two of them, and what precedes a memory on one of them is on it or on an earlier one. -/
theorem hybrid_pages_fit {count : ℕ}
    (hpools : ∀ p, 1 ≤ p → p ≤ count → b.SamePools (hybridFetch params.pageSize p) (hybridFetch params.pageSize 1))
    (hsize : 0 < params.pageSize) {pages : ℕ → HybridPage}
    (hpages : ∀ p, 1 ≤ p → p ≤ count →
      MemoryService.searchHybrid table b { params with page := p } asOf now = some (.ok (pages p))) :
    ∃ ranking : List (String × ℚ), (ranking.map Prod.fst).Nodup ∧
      (∀ p, 1 ≤ p → p ≤ count →
        (pages p).results = page ((p - 1) * params.pageSize) params.pageSize ranking) ∧
      (∀ p p' hash, 1 ≤ p → p < p' → p' ≤ count → hash ∈ (pages p).results.map Prod.fst →
        hash ∉ (pages p').results.map Prod.fst) ∧
      ∀ (i j : ℕ) x y p', i < j → ranking[i]? = some x → ranking[j]? = some y → 1 ≤ p' → p' ≤ count →
        y ∈ (pages p').results → ∃ p, 1 ≤ p ∧ p ≤ p' ∧ x ∈ (pages p).results := by
  rcases Nat.eq_zero_or_pos count with rfl | hcount
  · exact ⟨[], List.nodup_nil, fun p h h' => absurd (h.trans h') (by decide),
      fun p p' _ h hlt h' => absurd ((h.trans hlt.le).trans h') (by decide), fun i j x y p' _ h => by simp at h⟩
  obtain ⟨r, hr, hnodup, -⟩ := searchHybrid_eq (hpages 1 le_rfl hcount)
  set ranking := MemoryService.aboveMin params.minSimilarity r.results with hranking
  have hkeys : (ranking.map Prod.fst).Nodup := hnodup.sublist (List.filter_sublist.map Prod.fst)
  have hwindow : ∀ p, 1 ≤ p → p ≤ count →
      (pages p).results = page ((p - 1) * params.pageSize) params.pageSize ranking := by
    intro p hp hle
    obtain ⟨r', hr', -, hresults⟩ := searchHybrid_eq (hpages p hp hle)
    rw [hybridRanking_page table params asOf now (hpools p hp hle), hr] at hr'
    obtain rfl := Except.ok.inj hr'
    exact hresults
  refine ⟨ranking, hkeys, hwindow, fun p p' hash hp hlt hle hmem hmem' => ?_, fun i j x y p' hij hi hj hp hle hy => ?_⟩
  · rw [hwindow p hp (hlt.le.trans hle)] at hmem
    rw [hwindow p' (hp.trans hlt.le) hle] at hmem'
    obtain ⟨x, hx, rfl⟩ := List.mem_map.mp hmem
    obtain ⟨y, hy, heq⟩ := List.mem_map.mp hmem'
    obtain ⟨i, -, hi, hxi⟩ := mem_page.mp hx
    obtain ⟨j, hj, -, hyj⟩ := mem_page.mp hy
    obtain rfl := index_unique hkeys hxi hyj heq.symm
    have hend : (p - 1) * params.pageSize + params.pageSize ≤ (p' - 1) * params.pageSize := by
      rw [← Nat.succ_mul]
      exact Nat.mul_le_mul_right _ (by omega)
    omega
  · rw [hwindow p' hp hle] at hy
    obtain ⟨j', -, hlt, hyj⟩ := mem_page.mp hy
    obtain rfl := index_unique hkeys hj hyj rfl
    have hreach : (p' - 1) * params.pageSize + params.pageSize = p' * params.pageSize := by
      rw [← Nat.succ_mul, Nat.succ_eq_add_one, Nat.sub_add_cancel hp]
    have hpage : i / params.pageSize + 1 ≤ p' := Nat.div_lt_of_lt_mul (by rw [Nat.mul_comm]; omega)
    refine ⟨i / params.pageSize + 1, Nat.le_add_left 1 _, hpage, ?_⟩
    rw [hwindow _ (Nat.le_add_left 1 _) (hpage.trans hle), Nat.add_sub_cancel]
    have hmod := Nat.mod_lt i hsize
    have hdiv := Nat.div_add_mod i params.pageSize
    rw [Nat.mul_comm] at hdiv
    exact mem_page.mpr ⟨i, by omega, by omega, hi⟩

end

/-! ### A pool that grows with the page -/

/-- Rows sorted by their keys, no two alike, are what sorting them gives. -/
theorem mergeSort_eq_of_lt {α κ : Type} [LinearOrder κ] (key : α → κ) {rows sorted : List α} (hperm : sorted.Perm rows)
    (hlt : sorted.Pairwise fun a b => key a < key b) : (rows.mergeSort fun a b => key a ≤ key b) = sorted := by
  have hle := pairwise_mergeSort_key key rows
  have hrows := (List.mergeSort_perm rows fun a b => key a ≤ key b).trans hperm.symm
  have hkeys : (sorted.map key).Nodup := List.pairwise_map.mpr (hlt.imp ne_of_lt)
  refine hrows.eq_of_pairwise (fun a b ha hb hab hba => ?_) hle (hlt.imp le_of_lt)
  exact List.inj_on_of_nodup_map hkeys (hrows.mem_iff.mp ha) hb (le_antisymm hab hba)

/-- What a page of one result shows of its ranking. -/
theorem shown_plain {table : TableOrder} {b : HybridBackends} {page : ℕ} {r : Ranked} (hpage : page < usizeSize)
    (hranking : MemoryService.hybridRanking table b { plainParams with page := page } none 0 = .ok r) :
    ∃ shown, MemoryService.searchHybrid table b { plainParams with page := page } none 0 = some (.ok shown) ∧
      shown.results = Rows.page (page - 1) 1 r.results := by
  have hshown : ∃ shown, MemoryService.searchHybrid table b { plainParams with page := page } none 0 =
      some (.ok shown) := by
    have hblank : ¬(trim plainParams.query).isEmpty = true := by decide +kernel
    have hsize : plainParams.pageSize * 3 < usizeSize ∧ page * plainParams.pageSize < usizeSize :=
      ⟨by decide, (Nat.mul_one page).symm ▸ hpage⟩
    unfold MemoryService.searchHybrid
    rw [if_neg hblank, if_pos hsize, hranking]
    exact ⟨_, rfl⟩
  obtain ⟨shown, hshown⟩ := hshown
  obtain ⟨r', hr', -, hresults⟩ := searchHybrid_eq hshown
  obtain rfl := Except.ok.inj (hranking.symm.trans hr')
  refine ⟨shown, hshown, hresults.trans ?_⟩
  show Rows.page ((page - 1) * 1) 1 (List.filter _ _) = _
  rw [Nat.mul_one]
  exact congrArg (Rows.page (page - 1) 1) (List.filter_eq_self.mpr fun _ _ => rfl)

/-- The dense hits of a query, and its one keyword hit. -/
def grownBackends : HybridBackends where
  lib := plainQuery.lib
  switches := plainQuery.switches
  signals := ⟨fun _ => ⟨[], List.nodup_nil⟩, fun _ _ => none, none⟩
  embedBatch := .ok [[]]
  searchByText n := .ok ([⟨plainMemory "d", 3⟩].take n)
  searchByVector _ n := .ok ([⟨plainMemory "a", 0.9⟩, ⟨plainMemory "b", 0.8⟩, ⟨plainMemory "c", 0.7⟩,
    ⟨plainMemory "d", 0.69⟩].take n)
  count := .ok 4
  getBatch _ := .ok []

theorem fused_three : combineResultsRrf inOrder [("a", 0.9), ("b", 0.8), ("c", 0.7)] [("d", 3)] 0.72 rrfK =
    [⟨"a", 0.72 / 21, 0.9⟩, ⟨"b", 0.72 / 22, 0.8⟩, ⟨"c", 0.72 / 23, 0.7⟩, ⟨"d", 0.28 / 21, 0.02⟩] :=
  mergeSort_eq_of_lt (fun f : Fused => OrderDual.toDual f.rrf) (by decide +kernel) (by decide +kernel)

theorem fused_four : combineResultsRrf inOrder [("a", 0.9), ("b", 0.8), ("c", 0.7), ("d", 0.69)] [("d", 3)] 0.72 rrfK =
    [⟨"d", 0.72 / 24 + 0.28 / 21, 0.69⟩, ⟨"a", 0.72 / 21, 0.9⟩, ⟨"b", 0.72 / 22, 0.8⟩, ⟨"c", 0.72 / 23, 0.7⟩] :=
  mergeSort_eq_of_lt (fun f : Fused => OrderDual.toDual f.rrf) (by decide +kernel) (by decide +kernel)

/-- Without a cross-encoder the candidates are sorted by their final scores. -/
theorem results_rankPools {table : TableOrder} {q : RankQuery} {signals : Signals} {vis : Visibility}
    {params : HybridParams} {alpha : ℚ} {getBatch : List String → Except AlayaError (List Memory)}
    {vector bm25 : List ScoredMemory} (hreranker : signals.reranker = none) {fused : List Fused}
    (hfused : combineResultsRrf table (tuples vector) (tuples bm25) alpha rrfK = fused) {injected : List ScoredMemory}
    (hinjected : injectNeighbors table getBatch vis (params.admits vis) (activate q signals fused) fused = injected) :
    (rankPools table q signals getBatch params vis alpha vector bm25).results =
      ((fused ++ injected.map neighborEntry).map fun f => (f.hash, finalScore q (memoryMap vector bm25 injected)
        ((activate q signals fused).entries.lookup ·)
        (fun hash => if q.switches.graph then signals.hebbian ((fused.take boostedCount).map Fused.hash) hash else none)
        [] (maxRrf (fused ++ injected.map neighborEntry)) f)).mergeSort fun a b => sortKey [] a ≤ sortKey [] b := by
  unfold rankPools
  dsimp only
  rw [hfused, hinjected, hreranker]
  rfl

/-- Without the graph nothing is injected. -/
theorem injectNeighbors_no_graph {table : TableOrder} {q : RankQuery} {signals : Signals} {vis : Visibility}
    {getBatch : List String → Except AlayaError (List Memory)} (admits : Memory → (String → Option ℚ) → Bool)
    (hgraph : q.switches.graph = false) (fused : List Fused) :
    injectNeighbors table getBatch vis admits (activate q signals fused) fused = [] := by
  have hactivate : activate q signals fused = ⟨[], List.nodup_nil⟩ := if_neg (by simp [hgraph])
  rw [hactivate]
  exact List.eq_nil_iff_forall_not_mem.mpr fun sm hsm =>
    List.not_mem_nil ((injectNeighbors_spec table getBatch vis _ _ fused).activated sm hsm)

/-- The hits of a page of the search. -/
def grownVector (fetch : ℕ) : List ScoredMemory :=
  [⟨plainMemory "a", 0.9⟩, ⟨plainMemory "b", 0.8⟩, ⟨plainMemory "c", 0.7⟩, ⟨plainMemory "d", 0.69⟩].take fetch

theorem ranking_three : (rankPools inOrder plainQuery grownBackends.signals grownBackends.getBatch plainParams
    ⟨false, none⟩ 0.72 (grownVector 3) [⟨plainMemory "d", 3⟩]).results =
      [("a", 2021 / 2000), ("b", 10191 / 11000), ("c", 38829 / 46000), ("d", 16211 / 90000)] := by
  rw [results_rankPools rfl fused_three (injectNeighbors_no_graph _ rfl _)]
  exact mergeSort_eq_of_lt (sortKey []) (by decide +kernel) (by decide +kernel)

theorem ranking_four : (rankPools inOrder plainQuery grownBackends.signals grownBackends.getBatch plainParams
    ⟨false, none⟩ 0.72 (grownVector 4) [⟨plainMemory "d", 3⟩]).results =
      [("a", 167571 / 182000), ("d", 17501 / 20000), ("b", 30057 / 35750), ("c", 455757 / 598000)] := by
  rw [results_rankPools rfl fused_four (injectNeighbors_no_graph _ rfl _)]
  exact mergeSort_eq_of_lt (sortKey []) (by decide +kernel) (by decide +kernel)

theorem ranked_three : MemoryService.hybridRanking inOrder grownBackends { plainParams with page := 3 } none 0 =
    .ok (rankPools inOrder plainQuery grownBackends.signals grownBackends.getBatch plainParams ⟨false, none⟩ 0.72
      (grownVector 3) [⟨plainMemory "d", 3⟩]) := rfl

theorem ranked_four : MemoryService.hybridRanking inOrder grownBackends { plainParams with page := 4 } none 0 =
    .ok (rankPools inOrder plainQuery grownBackends.signals grownBackends.getBatch plainParams ⟨false, none⟩ 0.72
      (grownVector 4) [⟨plainMemory "d", 3⟩]) := rfl

/-! ### Two neighbours of equal activation -/

def reversed : TableOrder := ⟨List.reverse, List.reverse_perm⟩

def tiedActivations : Activations := ⟨[("a", 0.5), ("b", 0.5)], by decide⟩

/-- One hit, whose two neighbours are activated alike. -/
def tiedBackends : HybridBackends where
  lib := plainQuery.lib
  switches := { plainQuery.switches with graph := true }
  signals := ⟨fun _ => tiedActivations, fun _ _ => none, none⟩
  embedBatch := .ok [[]]
  searchByText _ := .ok []
  searchByVector _ n := .ok ([⟨plainMemory "x", 0.1⟩].take n)
  count := .ok 3
  getBatch _ := .ok [plainMemory "a", plainMemory "b"]

def tiedQuery : RankQuery := { plainQuery with switches := tiedBackends.switches }

def tiedFused : List Fused := [⟨"x", 0.72 / 21, 0.1⟩]

theorem fused_tied {table : TableOrder} (htable : table.order ["x"] = ["x"]) :
    combineResultsRrf table [("x", 0.1)] [] 0.72 rrfK = tiedFused := by
  unfold combineResultsRrf
  show ((table.order ["x"]).map _).mergeSort _ = _
  rw [htable]
  exact mergeSort_eq_of_lt (fun f : Fused => OrderDual.toDual f.rrf) (by decide +kernel) (by decide +kernel)

/-- The neighbours are injected in the order in which the table is iterated. -/
theorem injected_tied {table : TableOrder} {first second : String}
    (hpair : first = "a" ∧ second = "b" ∧ table = inOrder ∨ first = "b" ∧ second = "a" ∧ table = reversed) :
    injectNeighbors table tiedBackends.getBatch ⟨false, none⟩ (plainParams.admits ⟨false, none⟩) tiedActivations
      tiedFused = [⟨plainMemory first, 0.5⟩, ⟨plainMemory second, 0.5⟩] := by
  have hcandidates : injectCandidates table tiedActivations tiedFused = [(first, 0.5), (second, 0.5)] := by
    rcases hpair with ⟨rfl, rfl, rfl⟩ | ⟨rfl, rfl, rfl⟩ <;> exact List.mergeSort_of_pairwise (by decide +kernel)
  unfold injectNeighbors
  dsimp only
  rw [hcandidates]
  rcases hpair with ⟨rfl, rfl, rfl⟩ | ⟨rfl, rfl, rfl⟩ <;> decide +kernel

theorem ranking_tied {table : TableOrder} {first second : String}
    (hpair : first = "a" ∧ second = "b" ∧ table = inOrder ∨ first = "b" ∧ second = "a" ∧ table = reversed) :
    ((rankPools table tiedQuery tiedBackends.signals tiedBackends.getBatch plainParams ⟨false, none⟩ 0.72
      [⟨plainMemory "x", 0.1⟩] []).results.map Prod.fst) = ["x", first, second] := by
  have htable : table.order ["x"] = ["x"] := by
    rcases hpair with ⟨-, -, rfl⟩ | ⟨-, -, rfl⟩ <;> rfl
  rw [results_rankPools rfl (fused_tied htable) (injected_tied hpair)]
  rcases hpair with ⟨rfl, rfl, rfl⟩ | ⟨rfl, rfl, rfl⟩ <;>
    rw [List.mergeSort_of_pairwise (by decide +kernel)] <;> rfl

/-- However large the pool, it is the one hit. -/
theorem samePools_tied (page : ℕ) : tiedBackends.SamePools (hybridFetch 1 page) (hybridFetch 1 1) :=
  tiedBackends.samePools_of_few (fun _ => congrArg Except.ok List.take_nil.symm) (fun _ _ => rfl) (Nat.zero_le _)
    (fun _ => by decide) page

theorem ranked_tied (table : TableOrder) (page : ℕ) :
    MemoryService.hybridRanking table tiedBackends { plainParams with page := page } none 0 =
      .ok (rankPools table tiedQuery tiedBackends.signals tiedBackends.getBatch plainParams ⟨false, none⟩ 0.72
        [⟨plainMemory "x", 0.1⟩] []) :=
  (hybridRanking_page table plainParams none 0 (samePools_tied page)).trans rfl

/-- Five pages of one ranking: the last two ask for more than the first, and the store has no more. -/
theorem hybrid_pages_fit_tied : ∃ pages : ℕ → HybridPage,
    (∀ p, 1 ≤ p → p ≤ 5 →
      MemoryService.searchHybrid inOrder tiedBackends { plainParams with page := p } none 0 = some (.ok (pages p))) ∧
    ∃ ranking : List (String × ℚ), (ranking.map Prod.fst).Nodup ∧
      ∀ p, 1 ≤ p → p ≤ 5 → (pages p).results = page ((p - 1) * 1) 1 ranking := by
  have hshown : ∀ p, ∃ shown, p ≤ 5 →
      MemoryService.searchHybrid inOrder tiedBackends { plainParams with page := p } none 0 = some (.ok shown) := by
    intro p
    by_cases hp : p ≤ 5
    · have hsmall : p < usizeSize := hp.trans_lt (by decide)
      obtain ⟨shown, hshown, -⟩ := shown_plain hsmall (ranked_tied inOrder p)
      exact ⟨shown, fun _ => hshown⟩
    · exact ⟨⟨0, 0, 0, false, 0, [], .notConfigured⟩, fun h => absurd h hp⟩
  choose pages hpages using hshown
  obtain ⟨ranking, hnodup, hwindow, -⟩ :=
    hybrid_pages_fit (fun p _ _ => samePools_tied p) Nat.zero_lt_one fun p _ => hpages p
  exact ⟨pages, fun p _ => hpages p, ranking, hnodup, hwindow⟩

/-- **Pages need not fit together.**  A memory that both pools hold once the fourth page fetches them moves ahead, so
the third page and the fourth show one memory; and the second and the third do when two neighbours of equal activation
are iterated in another order. -/
theorem hybrid_pages_clash :
    (∃ third fourth, MemoryService.searchHybrid inOrder grownBackends { plainParams with page := 3 } none 0 =
        some (.ok third) ∧
      MemoryService.searchHybrid inOrder grownBackends { plainParams with page := 4 } none 0 = some (.ok fourth) ∧
      third.results.map Prod.fst = ["c"] ∧ fourth.results.map Prod.fst = ["c"]) ∧
    ∃ second third, MemoryService.searchHybrid inOrder tiedBackends { plainParams with page := 2 } none 0 =
        some (.ok second) ∧
      MemoryService.searchHybrid reversed tiedBackends { plainParams with page := 3 } none 0 = some (.ok third) ∧
      second.results.map Prod.fst = ["a"] ∧ third.results.map Prod.fst = ["a"] := by
  constructor
  · obtain ⟨third, hthird, hthree⟩ := shown_plain (by decide) ranked_three
    obtain ⟨fourth, hfourth, hfour⟩ := shown_plain (by decide) ranked_four
    refine ⟨third, fourth, hthird, hfourth, ?_, ?_⟩
    · rw [hthree]
      exact congrArg (fun ranking => (Rows.page 2 1 ranking).map Prod.fst) ranking_three
    · rw [hfour]
      exact congrArg (fun ranking => (Rows.page 3 1 ranking).map Prod.fst) ranking_four
  · obtain ⟨second, hsecond, htwo⟩ := shown_plain (by decide) (ranked_tied inOrder 2)
    obtain ⟨third, hthird, hthree⟩ := shown_plain (by decide) (ranked_tied reversed 3)
    refine ⟨second, third, hsecond, hthird, ?_, ?_⟩
    · rw [htwo, Rows.page, List.map_take, List.map_drop]
      exact congrArg (Rows.page 1 1) (ranking_tied (.inl ⟨rfl, rfl, rfl⟩))
    · rw [hthree, Rows.page, List.map_take, List.map_drop]
      exact congrArg (Rows.page 2 1) (ranking_tied (.inr ⟨rfl, rfl, rfl⟩))

end Alaya
