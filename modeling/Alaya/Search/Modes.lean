import Alaya.Search.Window

/-!
# The five modes of a search

`search_with` runs one of five searches, which fetch from different sources and apply the visibility rule at different
points.  The backends may ignore every filter they are sent.  Whatever they answer, a search of the store as it is now
shows no superseded memory unless it is asked to, and a hybrid search nothing outside its bounds (`search_shows`).
The rows are the memories a response prints, with their scores; `newer_related` adds a field to a row, and no row.
-/

namespace Alaya

open Json Ranking Rows

inductive SearchMode where
  | hybrid
  | scan
  | similar
  | tag
  | recent
  deriving DecidableEq

/-- What a search is asked for in any mode. -/
structure SearchRequest where
  query : String
  mode : SearchMode
  page : ℕ
  pageSize : ℕ
  tags : Option (List String)
  matchAll : Bool
  k : ℕ
  minSimilarity : Option ℚ
  memoryType : Option String
  encodingContext : Option Object
  includeSuperseded : Bool
  minTrustScore : Option ℚ
  cursor : Option ℚ

namespace SearchRequest

/-- What hybrid mode reads of it. -/
def hybridParams (req : SearchRequest) : HybridParams where
  query := req.query
  page := req.page
  pageSize := req.pageSize
  memoryType := req.memoryType
  minTrustScore := req.minTrustScore
  minSimilarity := req.minSimilarity
  includeSuperseded := req.includeSuperseded
  encodingContext := req.encodingContext

/-- What the modes without a ranking read of it. -/
def pagedParams (req : SearchRequest) : SearchParams where
  page := req.page
  pageSize := req.pageSize
  tags := req.tags
  matchAll := req.matchAll
  memoryType := req.memoryType
  includeSuperseded := req.includeSuperseded
  cursor := req.cursor

end SearchRequest

/-- What the modes read: any answers. -/
structure SearchBackends extends HybridBackends where
  scroll : Scroll
  searchByTags : List String → Bool → ℕ → Except AlayaError (List ScoredMemory)
  getRecent : ℕ → Option ℚ → Option String → Except AlayaError (List Memory)

/-- A replay must never write, and only `hybrid` and `similar` honour one. -/
def validateAsOf (asOf : Option ℚ) (mode : SearchMode) (readOnly : Bool) (now : ℚ) : Except String Unit :=
  match asOf with
  | none => .ok ()
  | some t =>
    if !readOnly then .error "as_of requires a read-only search (set read_only: true)"
    else if mode ≠ .hybrid ∧ mode ≠ .similar then .error "as_of applies only to hybrid and similar modes"
    else if now < t then
      .error "as_of is later than the server's clock; it takes epoch seconds, not milliseconds"
    else .ok ()

namespace MemoryService

/-- The rows of a hybrid page, each hash with the memory the ranking holds for it. -/
def hybridRows (table : TableOrder) (b : HybridBackends) (params : HybridParams) (asOf : Option ℚ) (now : ℚ) :
    Option (Except AlayaError (List ScoredMemory)) :=
  (searchHybrid table b params asOf now).map fun answer => do
    let shown ← answer
    let r ← hybridRanking table b params asOf now
    return shown.results.filterMap fun p => (r.memories p.1).map fun sm => ⟨sm.memory, p.2⟩

/-- `search_with`; `none` is an arithmetic overflow. -/
def searchWith (table : TableOrder) (b : SearchBackends) (req : SearchRequest) (readOnly : Bool) (asOf : Option ℚ)
    (now : ℚ) : Option (Except AlayaError (List ScoredMemory)) :=
  if req.pageSize = 0 then some (.error (.validation "page_size must be > 0"))
  else
    match validateAsOf asOf req.mode readOnly now with
    | .error e => some (.error (.validation e))
    | .ok () =>
      match req.mode with
      | .hybrid => hybridRows table b.toHybridBackends req.hybridParams asOf now
      | .scan => (searchScan b.scroll req.pagedParams).map fun answer => answer.map SearchPage.results
      | .similar =>
        some (searchSimilar b.embedBatch b.searchByVector b.getBatch req.query req.k ⟨req.includeSuperseded, asOf⟩)
      | .tag => (searchTag b.getBatch b.searchByTags req.pagedParams).map fun answer => answer.map SearchPage.results
      | .recent => (searchRecent b.getRecent req.pagedParams).map fun answer => answer.map RecentPage.results

end MemoryService

/-! ### What the loops keep -/

/-- An over-fetch keeps what its last fetch brought and the visibility shows. -/
theorem shows_fetchLiveWithRetry {getBatch : List String → Except AlayaError (List Memory)} {vis : Visibility}
    {fetch : ℕ → Except AlayaError (List ScoredMemory)} {target maxFetch fetchSize : ℕ} {hpos : 0 < fetchSize}
    {filtered : List ScoredMemory} {exhausted : Bool}
    (h : MemoryService.fetchLiveWithRetry getBatch vis fetch target maxFetch fetchSize hpos = .ok (filtered, exhausted)) :
    ∃ survivors, ∀ sm ∈ filtered, vis.shows sm.memory survivors = true := by
  induction hn : maxFetch - fetchSize using Nat.strongRecOn generalizing fetchSize with
  | ind k ih =>
    unfold MemoryService.fetchLiveWithRetry at h
    split at h
    · cases h
    · split at h
      · cases h
      · next survivors _ =>
        dsimp only at h
        split_ifs at h with hstop
        · obtain ⟨rfl, -⟩ := Prod.mk.inj (Except.ok.inj h)
          exact ⟨survivors, fun sm hsm => (List.mem_filter.mp hsm).2⟩
        · exact ih _ (by omega) h rfl

/-- A scan keeps what passes. -/
theorem keeps_scanLoop {getAll : ℕ → Option String → Except AlayaError ScrollResult} {keeps : Memory → Bool}
    {target : ℕ} {filtered kept : List Memory} {cursor next : Option String} {rawScanned : ℕ}
    (h : MemoryService.scanLoop getAll keeps target filtered cursor rawScanned = .ok (kept, next))
    (hfiltered : ∀ m ∈ filtered, keeps m = true) : ∀ m ∈ kept, keeps m = true := by
  induction hn : maxRawScanned - rawScanned using Nat.strongRecOn generalizing filtered cursor rawScanned with
  | ind k ih =>
    unfold MemoryService.scanLoop at h
    split at h
    · cases h
    · next scroll _ =>
      have hkept : ∀ m ∈ filtered ++ scroll.memories.filter keeps, keeps m = true := by
        intro m hm
        rcases List.mem_append.mp hm with hm | hm
        · exact hfiltered m hm
        · exact (List.mem_filter.mp hm).2
      dsimp only at h
      split_ifs at h with hstop
      · obtain ⟨rfl, -⟩ := Prod.mk.inj (Except.ok.inj h)
        exact hkept
      · simp only [not_or, not_le, List.isEmpty_iff] at hstop
        have hpos : 0 < scroll.memories.length := List.length_pos_of_ne_nil hstop.1
        exact ih _ (by omega) h hkept rfl

/-- So does a walk back in time. -/
theorem keeps_recentLoop {getRecent : ℕ → Option ℚ → Except AlayaError (List Memory)} {keeps : Memory → Bool}
    {target batchSize : ℕ} {hpos : 0 < batchSize} {results kept : List Memory} {scanCursor : Option ℚ}
    {rawScanned : ℕ}
    (h : MemoryService.recentLoop getRecent keeps target batchSize hpos results scanCursor rawScanned = .ok kept)
    (hresults : ∀ m ∈ results, keeps m = true) : ∀ m ∈ kept, keeps m = true := by
  induction hn : maxRecentScanned - rawScanned using Nat.strongRecOn generalizing results scanCursor rawScanned with
  | ind k ih =>
    unfold MemoryService.recentLoop at h
    split at h
    · cases h
    · next batch _ =>
      have hkept : ∀ m ∈ results ++ batch.filter keeps, keeps m = true := by
        intro m hm
        rcases List.mem_append.mp hm with hm | hm
        · exact hresults m hm
        · exact (List.mem_filter.mp hm).2
      dsimp only at h
      split_ifs at h with hstop
      · obtain rfl := Except.ok.inj h
        exact hkept
      · exact ih _ (by omega) h hkept rfl

/-! ### What a row has passed -/

section

variable {table : TableOrder} {b : HybridBackends} {params : HybridParams} {asOf : Option ℚ} {now : ℚ}

/-- A memory of the table of a ranking was admitted, from whichever source it came. -/
theorem admits_of_memories {q : RankQuery} {signals : Signals} {vis : Visibility} {alpha : ℚ}
    {getBatch : List String → Except AlayaError (List Memory)} {vector bm25 : List ScoredMemory} {r : Ranked}
    (h : rankHybrid table q signals getBatch params vis alpha vector bm25 = .ok r) {hash : String}
    {sm : ScoredMemory} (hsm : r.memories hash = some sm) :
    ∃ survivors, params.admits vis sm.memory survivors = true := by
  obtain ⟨survivors, -, rfl, -⟩ := rankHybrid_perm h
  have hmem : sm ∈ (vector.filter fun sm => params.admits vis sm.memory survivors).reverse ++
      (bm25.filter fun sm => params.admits vis sm.memory survivors) ++ _ := List.mem_of_find?_eq_some hsm
  rw [List.mem_append, List.mem_append, List.mem_reverse] at hmem
  rcases hmem with (hvector | hbm25) | hinjected
  · exact ⟨survivors, (List.mem_filter.mp hvector).2⟩
  · exact ⟨survivors, (List.mem_filter.mp hbm25).2⟩
  · exact (injectNeighbors_spec table getBatch vis (params.admits vis) _ _).admitted sm hinjected

theorem admits_hybridRows {rows : List ScoredMemory}
    (h : MemoryService.hybridRows table b params asOf now = some (.ok rows)) :
    ∀ sm ∈ rows, ∃ survivors, params.admits ⟨params.includeSuperseded, asOf⟩ sm.memory survivors = true := by
  obtain ⟨answer, -, hrows⟩ := Option.map_eq_some_iff.mp h
  obtain ⟨shown, -, hrows⟩ := bind_eq_ok.mp hrows
  obtain ⟨r, hr, hrows⟩ := bind_eq_ok.mp hrows
  obtain rfl := Except.ok.inj hrows
  unfold MemoryService.hybridRanking at hr
  obtain ⟨embeddings, -, hr⟩ := bind_eq_ok.mp hr
  obtain ⟨embedding, -, hr⟩ := bind_eq_ok.mp hr
  obtain ⟨vector, -, hr⟩ := bind_eq_ok.mp hr
  intro sm hsm
  obtain ⟨p, -, hp⟩ := List.mem_filterMap.mp hsm
  obtain ⟨sm', hsm', rfl⟩ := Option.map_eq_some_iff.mp hp
  exact (admits_of_memories hr hsm' :)

theorem shows_searchSimilar {embedBatch : Except AlayaError (List (List ℚ))}
    {searchByVector : List ℚ → ℕ → Except AlayaError (List ScoredMemory)}
    {getBatch : List String → Except AlayaError (List Memory)} {query : String} {k : ℕ} {vis : Visibility}
    {rows : List ScoredMemory}
    (h : MemoryService.searchSimilar embedBatch searchByVector getBatch query k vis = .ok rows) :
    ∀ sm ∈ rows, ∃ survivors, vis.shows sm.memory survivors = true := by
  obtain ⟨embedding, results, exhausted, hfetch, rfl⟩ := similar_window h
  suffices hresults : ∃ survivors, ∀ sm ∈ results, vis.shows sm.memory survivors = true by
    obtain ⟨survivors, hshows⟩ := hresults
    exact fun sm hsm => ⟨survivors, hshows sm (List.mem_of_mem_take hsm)⟩
  unfold MemoryService.fetchSimilar at hfetch
  split_ifs at hfetch
  · exact shows_fetchLiveWithRetry hfetch
  · obtain ⟨raw, -, hfetch⟩ := bind_eq_ok.mp hfetch
    obtain ⟨survivors, -, hfetch⟩ := bind_eq_ok.mp hfetch
    obtain ⟨rfl, -⟩ := Prod.mk.inj (Except.ok.inj hfetch)
    exact ⟨survivors, fun sm hsm => (List.mem_filter.mp hsm).2⟩

end

section

variable {params : SearchParams} {shown : SearchPage}

theorem shows_searchTag {getBatch : List String → Except AlayaError (List Memory)}
    {searchByTags : List String → Bool → ℕ → Except AlayaError (List ScoredMemory)}
    (h : MemoryService.searchTag getBatch searchByTags params = some (.ok shown)) :
    ∀ sm ∈ shown.results, Visibility.showsNow params.includeSuperseded sm.memory = true := by
  unfold MemoryService.searchTag at h
  dsimp only at h
  split_ifs at h
  · cases Option.some.inj h
  · obtain ⟨⟨filtered, exhausted⟩, hfetch, heq⟩ := bind_eq_ok.mp (Option.some.inj h)
    obtain rfl := Except.ok.inj heq
    obtain ⟨survivors, hshows⟩ := shows_fetchLiveWithRetry hfetch
    intro sm hsm
    rw [← Visibility.shows_now]
    exact hshows sm (List.mem_of_mem_drop (List.mem_of_mem_take hsm))

theorem shows_searchScan {scroll : Scroll} (h : MemoryService.searchScan scroll params = some (.ok shown)) :
    ∀ sm ∈ shown.results, Visibility.showsNow params.includeSuperseded sm.memory = true := by
  unfold MemoryService.searchScan at h
  dsimp only at h
  split_ifs at h
  obtain ⟨⟨filtered, cursor⟩, hscan, heq⟩ := bind_eq_ok.mp (Option.some.inj h)
  obtain rfl := Except.ok.inj heq
  intro sm hsm
  obtain ⟨m, hm, rfl⟩ := List.mem_map.mp hsm
  have hkeeps := keeps_scanLoop hscan (fun _ h => absurd h List.not_mem_nil) m
    (List.mem_of_mem_drop (List.mem_of_mem_take hm))
  exact (Bool.and_eq_true_iff.mp hkeeps).1

theorem shows_searchRecent {getRecent : ℕ → Option ℚ → Option String → Except AlayaError (List Memory)}
    {shown : RecentPage} (h : MemoryService.searchRecent getRecent params = some (.ok shown)) :
    ∀ sm ∈ shown.results, Visibility.showsNow params.includeSuperseded sm.memory = true := by
  unfold MemoryService.searchRecent at h
  dsimp only at h
  split_ifs at h
  obtain ⟨results, hloop, heq⟩ := bind_eq_ok.mp (Option.some.inj h)
  obtain rfl := Except.ok.inj heq
  intro sm hsm
  obtain ⟨m, hm, rfl⟩ := List.mem_map.mp hsm
  exact keeps_recentLoop hloop (fun _ h => absurd h List.not_mem_nil) m (List.mem_of_mem_take hm)

end

/-- The page whose rows a search shows. -/
theorem page_of_map {α : Type} {answer : Option (Except AlayaError α)} {results : α → List ScoredMemory}
    {rows : List ScoredMemory} (h : (answer.map fun page => page.map results) = some (.ok rows)) :
    ∃ shown, answer = some (.ok shown) ∧ results shown = rows := by
  obtain ⟨page, rfl, heq⟩ := Option.map_eq_some_iff.mp h
  cases page with
  | error e => cases heq
  | ok shown => exact ⟨shown, rfl, Except.ok.inj heq⟩

/-- A memory shown of the store as it is now is live, unless superseded ones are asked for. -/
theorem live_of_showsNow {includeSuperseded : Bool} {m : Memory}
    (h : Visibility.showsNow includeSuperseded m = true) (hhide : includeSuperseded = false) :
    m.isSuperseded = false := by
  subst hhide
  simpa [Visibility.showsNow] using h

/-- The bounds a hybrid search puts on a memory. -/
structure SearchRequest.Bounds (req : SearchRequest) (asOf : Option ℚ) (m : Memory) : Prop where
  memoryType : ∀ t ∈ req.memoryType, m.memoryType = t
  minTrust : ∀ min ∈ req.minTrustScore, meetsTrust m min = true
  created : ∀ t ∈ asOf, m.createdAt ≤ t

theorem bounds_of_admits {req : SearchRequest} {asOf : Option ℚ} {m : Memory} {survivors : String → Option ℚ}
    (h : req.hybridParams.admits ⟨req.includeSuperseded, asOf⟩ m survivors = true) : req.Bounds asOf m := by
  simp only [HybridParams.admits, Visibility.shows, Bool.and_eq_true, Option.all_eq_true] at h
  obtain ⟨⟨⟨hcreated, -⟩, htype⟩, htrust⟩ := h
  exact ⟨fun t ht => of_decide_eq_true (htype t ht), htrust, fun t ht => of_decide_eq_true (hcreated t ht)⟩

/-- **What a search shows.**  Without a time to replay at, no mode shows a superseded memory that was not asked for;
and each row of a hybrid search, injected or not, is within its bounds. -/
theorem search_shows {table : TableOrder} {b : SearchBackends} {req : SearchRequest} {readOnly : Bool}
    {asOf : Option ℚ} {now : ℚ} {rows : List ScoredMemory}
    (h : MemoryService.searchWith table b req readOnly asOf now = some (.ok rows)) :
    (asOf = none → req.includeSuperseded = false → ∀ sm ∈ rows, sm.memory.isSuperseded = false) ∧
      (req.mode = .hybrid → ∀ sm ∈ rows, req.Bounds asOf sm.memory) := by
  unfold MemoryService.searchWith at h
  split_ifs at h with hsize
  · cases Option.some.inj h
  cases hasOf : validateAsOf asOf req.mode readOnly now with
  | error e =>
    rw [hasOf] at h
    cases Option.some.inj h
  | ok =>
    rw [hasOf] at h
    dsimp only at h
    cases hmode : req.mode with
    | hybrid =>
      rw [hmode] at h
      have hadmits := admits_hybridRows h
      refine ⟨?_, fun _ sm hsm => ?_⟩
      · rintro rfl hhide sm hsm
        obtain ⟨survivors, hadmit⟩ := hadmits sm hsm
        have hshows := (Bool.and_eq_true_iff.mp (Bool.and_eq_true_iff.mp hadmit).1).1
        exact live_of_showsNow (Visibility.shows_now ▸ hshows) hhide
      · obtain ⟨survivors, hadmit⟩ := hadmits sm hsm
        exact bounds_of_admits hadmit
    | scan =>
      rw [hmode] at h
      obtain ⟨shown, hshown, rfl⟩ := page_of_map h
      exact ⟨fun _ hhide sm hsm => live_of_showsNow (shows_searchScan hshown sm hsm) hhide, nofun⟩
    | similar =>
      rw [hmode] at h
      refine ⟨?_, nofun⟩
      rintro rfl hhide sm hsm
      obtain ⟨survivors, hshows⟩ := shows_searchSimilar (Option.some.inj h) sm hsm
      exact live_of_showsNow (Visibility.shows_now ▸ hshows) hhide
    | tag =>
      rw [hmode] at h
      obtain ⟨shown, hshown, rfl⟩ := page_of_map h
      exact ⟨fun _ hhide sm hsm => live_of_showsNow (shows_searchTag hshown sm hsm) hhide, nofun⟩
    | recent =>
      rw [hmode] at h
      obtain ⟨shown, hshown, rfl⟩ := page_of_map h
      exact ⟨fun _ hhide sm hsm => live_of_showsNow (shows_searchRecent hshown sm hsm) hhide, nofun⟩

/-! ### A store that filters nothing -/

namespace Unfiltered

/-- Every source answers a superseded memory, and the graph activates it. -/
def backends : SearchBackends where
  lib := plainQuery.lib
  switches := { plainQuery.switches with graph := true }
  signals := ⟨fun _ => tiedActivations, fun _ _ => none, none⟩
  embedBatch := .ok [[]]
  searchByText _ := .ok [HiddenRun.hidden, ⟨plainMemory "x", 1⟩]
  searchByVector _ _ := .ok [HiddenRun.hidden, ⟨plainMemory "x", 1⟩]
  count := .ok 2
  getBatch _ := .ok [{ HiddenRun.memory true with contentHash := "a" }]
  scroll _ _ := .ok ([HiddenRun.memory true], none)
  searchByTags _ _ _ := .ok [HiddenRun.hidden]
  getRecent _ _ _ := .ok [HiddenRun.memory true]

def request : SearchRequest where
  query := "q"
  mode := .hybrid
  page := 1
  pageSize := 1
  tags := none
  matchAll := false
  k := 10
  minSimilarity := none
  memoryType := none
  encodingContext := none
  includeSuperseded := false
  minTrustScore := none
  cursor := none

end Unfiltered

/-- A hybrid search of it. -/
theorem search_shows_unfiltered : ∃ rows,
    MemoryService.searchWith inOrder Unfiltered.backends Unfiltered.request false none 0 = some (.ok rows) ∧
      (∀ sm ∈ rows, sm.memory.isSuperseded = false) ∧ ∀ sm ∈ rows, Unfiltered.request.Bounds none sm.memory := by
  obtain ⟨r, hr⟩ : ∃ r, MemoryService.hybridRanking inOrder Unfiltered.backends.toHybridBackends
      { plainParams with page := 1 } none 0 = .ok r := ⟨_, rfl⟩
  obtain ⟨shown, hshown, -⟩ := shown_plain (by decide) hr
  have hrows : MemoryService.searchWith inOrder Unfiltered.backends Unfiltered.request false none 0 =
      some (.ok (shown.results.filterMap fun p => (r.memories p.1).map fun sm => ⟨sm.memory, p.2⟩)) := by
    show MemoryService.hybridRows inOrder Unfiltered.backends.toHybridBackends { plainParams with page := 1 } none 0 = _
    unfold MemoryService.hybridRows
    rw [hshown, hr]
    rfl
  obtain ⟨hlive, hbounds⟩ := search_shows hrows
  exact ⟨_, hrows, hlive rfl rfl, hbounds rfl⟩

end Alaya
