import Alaya.Search.Hybrid
import Alaya.Search.Recent

/-!
# Page arithmetic

What each search mode computes of the page and the page size it is asked for, step by step on 64-bit numbers; `none`
is a step that overflows.  The modes that page by number cut the window of their page out of their list; recent mode
pages by its cursor and similar mode not at all, and both cut off the front of theirs (`page_windows`).
-/

namespace Alaya

open Ranking Rows

/-! ### 64-bit steps -/

/-- A multiplication of `usize`; `none` on overflow. -/
def checkedMul (m n : ℕ) : Option ℕ := if m * n < usizeSize then some (m * n) else none

/-- `usize::saturating_mul`. -/
def saturatingMul (m n : ℕ) : ℕ := min (m * n) (usizeSize - 1)

theorem checkedMul_eq {m n : ℕ} (h : m * n < usizeSize) : checkedMul m n = some (m * n) := if_pos h

theorem checkedAdd_eq {m n : ℕ} (h : m + n < usizeSize) : checkedAdd m n = some (m + n) := if_pos h

/-- Saturated below a bound that fits, a product is exact. -/
theorem min_saturatingMul {m n bound : ℕ} (hbound : bound < usizeSize) :
    min (saturatingMul m n) bound = min (m * n) bound := by
  unfold saturatingMul
  omega

/-- How many hits `search_hybrid` fetches of each kind, and where its page starts. -/
def hybridWindow (page pageSize : ℕ) : Option (ℕ × ℕ) := do
  let three ← checkedMul pageSize 3
  let through ← checkedMul page pageSize
  let offset ← checkedMul (page - 1) pageSize
  return (min (max three through) maxHybridFetch, offset)

/-- How many memories `search_scan` looks for, and where its page starts and ends. -/
def scanWindow (page pageSize : ℕ) : Option (ℕ × ℕ × ℕ) := do
  let before ← checkedMul (page - 1) pageSize
  let through ← checkedAdd before pageSize
  let target ← checkedAdd through 1
  let offset ← checkedMul (page - 1) pageSize
  let stop ← checkedAdd offset pageSize
  return (target, offset, stop)

/-- How many matches `search_tag` fetches and how many it wants, and where its page starts and ends. -/
def tagWindow (page pageSize : ℕ) : Option (ℕ × ℕ × ℕ × ℕ) := do
  let offset ← checkedMul (page - 1) pageSize
  let through ← checkedAdd offset pageSize
  let target ← checkedAdd through 1
  let fetch ← checkedMul target 2
  let stop ← checkedAdd offset pageSize
  return (fetch, target, offset, stop)

/-- How many memories `search_recent` wants, and how many it fetches at a time. -/
def recentWindow (includeSuperseded : Bool) (pageSize : ℕ) : Option (ℕ × ℕ) := do
  let target ← checkedAdd pageSize 1
  return (target, if includeSuperseded then target else min (saturatingMul target 2) maxRecentScanned)

def maxSimilarFetch : ℕ := 5000

/-- How many hits `search_similar` fetches first. -/
def similarFetch (includeSuperseded : Bool) (k : ℕ) : ℕ :=
  if includeSuperseded then k else max (min (saturatingMul k 2) maxSimilarFetch) k

/-! ### Similar search -/

namespace MemoryService

/-- The visible hits of a similar search, and whether there are no more.  A search for nothing fetches once. -/
def fetchSimilar (getBatch : List String → Except AlayaError (List Memory)) (vis : Visibility)
    (fetch : ℕ → Except AlayaError (List ScoredMemory)) (k : ℕ) : Except AlayaError (List ScoredMemory × Bool) :=
  if hpos : 0 < similarFetch vis.includeSuperseded k then
    fetchLiveWithRetry getBatch vis fetch k maxSimilarFetch (similarFetch vis.includeSuperseded k) hpos
  else do
    let raw ← fetch 0
    let survivors ← survivorTimes getBatch vis (raw.map ScoredMemory.memory)
    return (raw.filter fun sm => vis.shows sm.memory survivors, false)

/-- `search_similar`. -/
def searchSimilar (embedBatch : Except AlayaError (List (List ℚ)))
    (searchByVector : List ℚ → ℕ → Except AlayaError (List ScoredMemory))
    (getBatch : List String → Except AlayaError (List Memory)) (query : String) (k : ℕ) (vis : Visibility) :
    Except AlayaError (List ScoredMemory) :=
  if (trim query).isEmpty then .error (.validation "query is required for similar mode")
  else do
    let embeddings ← embedBatch
    let embedding ← queryEmbedding embeddings
    let (results, _) ← fetchSimilar getBatch vis (searchByVector embedding) k
    return results.take k

end MemoryService

/-! ### The windows -/

/-- The window of a page, cut to the length of the list.  Page 0 is page 1. -/
def window {α : Type} (page pageSize : ℕ) (rows : List α) : List α :=
  (rows.take (max page 1 * pageSize)).drop ((max page 1 - 1) * pageSize)

theorem page_eq_window {α : Type} (p pageSize : ℕ) (rows : List α) :
    page ((p - 1) * pageSize) pageSize rows = window p pageSize rows := by
  unfold page window
  have hlast : max p 1 - 1 = p - 1 := by omega
  have hend : max p 1 * pageSize = (p - 1) * pageSize + pageSize := by
    rw [← Nat.succ_mul]
    congr 1
    omega
  rw [List.drop_take, hlast, hend, Nat.add_sub_cancel_left]

theorem mul_pred_le (p pageSize : ℕ) : (p - 1) * pageSize ≤ p * pageSize := Nat.mul_le_mul_right _ (Nat.sub_le _ _)

/-- The steps of hybrid mode go through exactly where its two products fit. -/
theorem hybridWindow_eq (p pageSize : ℕ) : hybridWindow p pageSize =
    if pageSize * 3 < usizeSize ∧ p * pageSize < usizeSize then
      some (hybridFetch pageSize p, (p - 1) * pageSize) else none := by
  have hle := mul_pred_le p pageSize
  unfold hybridWindow
  split_ifs with hfits
  · rw [checkedMul_eq hfits.1, checkedMul_eq hfits.2, checkedMul_eq (hle.trans_lt hfits.2)]
    rfl
  · unfold checkedMul
    by_cases hthree : pageSize * 3 < usizeSize
    · rw [if_pos hthree, if_neg fun hthrough => hfits ⟨hthree, hthrough⟩]
      rfl
    · rw [if_neg hthree]
      rfl

/-- Those of scan mode where one more than the end of the page does. -/
theorem scanWindow_eq (p pageSize : ℕ) : scanWindow p pageSize =
    if (p - 1) * pageSize + pageSize + 1 < usizeSize then
      some ((p - 1) * pageSize + pageSize + 1, (p - 1) * pageSize, (p - 1) * pageSize + pageSize) else none := by
  unfold scanWindow
  split_ifs with hfits
  · rw [checkedMul_eq (show (p - 1) * pageSize < usizeSize by omega), Option.bind_eq_bind, Option.bind_some,
      checkedAdd_eq (show (p - 1) * pageSize + pageSize < usizeSize by omega), Option.bind_some,
      checkedAdd_eq hfits, Option.bind_some, Option.bind_some,
      checkedAdd_eq (show (p - 1) * pageSize + pageSize < usizeSize by omega)]
    rfl
  · unfold checkedMul checkedAdd
    by_cases hbefore : (p - 1) * pageSize < usizeSize
    · rw [if_pos hbefore]
      by_cases hthrough : (p - 1) * pageSize + pageSize < usizeSize
      · simp [hthrough, hfits]
      · simp [hthrough]
    · rw [if_neg hbefore]
      rfl

/-- Those of tag mode where twice that does. -/
theorem tagWindow_eq (p pageSize : ℕ) : tagWindow p pageSize =
    if ((p - 1) * pageSize + pageSize + 1) * 2 < usizeSize then
      some (((p - 1) * pageSize + pageSize + 1) * 2, (p - 1) * pageSize + pageSize + 1, (p - 1) * pageSize,
        (p - 1) * pageSize + pageSize) else none := by
  unfold tagWindow
  split_ifs with hfits
  · rw [checkedMul_eq (show (p - 1) * pageSize < usizeSize by omega), Option.bind_eq_bind, Option.bind_some,
      checkedAdd_eq (show (p - 1) * pageSize + pageSize < usizeSize by omega), Option.bind_some,
      checkedAdd_eq (show (p - 1) * pageSize + pageSize + 1 < usizeSize by omega), Option.bind_some,
      checkedMul_eq hfits]
    rfl
  · unfold checkedMul checkedAdd
    by_cases hbefore : (p - 1) * pageSize < usizeSize
    · rw [if_pos hbefore]
      by_cases hthrough : (p - 1) * pageSize + pageSize < usizeSize
      · by_cases htarget : (p - 1) * pageSize + pageSize + 1 < usizeSize
        · simp [hthrough, htarget, hfits]
        · simp [hthrough, htarget]
      · simp [hthrough]
    · rw [if_neg hbefore]
      rfl

theorem recentWindow_eq (includeSuperseded : Bool) (pageSize : ℕ) : recentWindow includeSuperseded pageSize =
    if pageSize + 1 < usizeSize then
      some (pageSize + 1, MemoryService.recentBatchSize includeSuperseded (pageSize + 1)) else none := by
  unfold recentWindow MemoryService.recentBatchSize checkedAdd
  by_cases hfits : pageSize + 1 < usizeSize
  · rw [if_pos hfits, if_pos hfits, Option.bind_eq_bind, Option.bind_some,
      min_saturatingMul (show maxRecentScanned < usizeSize by decide)]
    rfl
  · rw [if_neg hfits, if_neg hfits]
    rfl

/-- Similar mode has no step that overflows. -/
theorem similarFetch_eq (includeSuperseded : Bool) (k : ℕ) :
    similarFetch includeSuperseded k = if includeSuperseded then k else max (min (k * 2) maxSimilarFetch) k := by
  unfold similarFetch
  rw [min_saturatingMul (show maxSimilarFetch < usizeSize by decide)]

section

variable {table : TableOrder} {b : HybridBackends} {asOf : Option ℚ} {now : ℚ}

/-- A page of hybrid mode is the window of its page. -/
theorem hybrid_window {params : HybridParams} {shown : HybridPage}
    (h : MemoryService.searchHybrid table b params asOf now = some (.ok shown)) :
    ∃ r, MemoryService.hybridRanking table b params asOf now = .ok r ∧
      shown.results = window params.page params.pageSize (MemoryService.aboveMin params.minSimilarity r.results) := by
  obtain ⟨r, hr, -, hresults⟩ := searchHybrid_eq h
  exact ⟨r, hr, hresults.trans (page_eq_window _ _ _)⟩

theorem scan_window {scroll : Scroll} {params : SearchParams} {shown : SearchPage}
    (h : MemoryService.searchScan scroll params = some (.ok shown)) : ∃ filtered cursor,
      MemoryService.scanLoop (getAll scroll) (MemoryService.scanKeeps params)
          ((params.page - 1) * params.pageSize + params.pageSize + 1) [] none 0 = .ok (filtered, cursor) ∧
        shown.results.map ScoredMemory.memory = window params.page params.pageSize filtered := by
  unfold MemoryService.searchScan at h
  dsimp only at h
  split_ifs at h with hfits
  obtain ⟨⟨filtered, cursor⟩, hloop, heq⟩ := bind_eq_ok.mp (Option.some.inj h)
  obtain rfl := Except.ok.inj heq
  refine ⟨filtered, cursor, hloop, ?_⟩
  rw [← page_eq_window]
  show ((page _ _ filtered).map fun m => (⟨m, 1⟩ : ScoredMemory)).map ScoredMemory.memory = _
  rw [List.map_map]
  exact List.map_id _

theorem tag_window {getBatch : List String → Except AlayaError (List Memory)}
    {searchByTags : List String → Bool → ℕ → Except AlayaError (List ScoredMemory)} {params : SearchParams}
    {shown : SearchPage} (h : MemoryService.searchTag getBatch searchByTags params = some (.ok shown)) :
    ∃ filtered exhausted hpos,
      MemoryService.fetchLiveWithRetry getBatch ⟨params.includeSuperseded, none⟩
          (searchByTags (params.tags.getD []) params.matchAll)
          ((params.page - 1) * params.pageSize + params.pageSize + 1) maxTagFetch
          (((params.page - 1) * params.pageSize + params.pageSize + 1) * 2) hpos = .ok (filtered, exhausted) ∧
        shown.results = window params.page params.pageSize filtered := by
  unfold MemoryService.searchTag at h
  dsimp only at h
  split_ifs at h with htags hfits
  · cases h
  · obtain ⟨⟨filtered, exhausted⟩, hloop, heq⟩ := bind_eq_ok.mp (Option.some.inj h)
    obtain rfl := Except.ok.inj heq
    exact ⟨filtered, exhausted, by omega, hloop, page_eq_window _ _ _⟩

/-- A page of recent mode is the front of what it fetched from its cursor on, whatever page is asked for. -/
theorem recent_window {getRecent : ℕ → Option ℚ → Option String → Except AlayaError (List Memory)}
    {params : SearchParams} {shown : RecentPage}
    (h : MemoryService.searchRecent getRecent params = some (.ok shown)) : ∃ results,
      MemoryService.recentLoop (fun limit start => getRecent limit start params.memoryType)
          (Visibility.showsNow params.includeSuperseded) (params.pageSize + 1)
          (MemoryService.recentBatchSize params.includeSuperseded (params.pageSize + 1))
          (MemoryService.recentBatchSize_pos _ (Nat.succ_pos _)) [] params.cursor 0 = .ok results ∧
        shown.results.map ScoredMemory.memory = results.take params.pageSize := by
  unfold MemoryService.searchRecent at h
  dsimp only at h
  split_ifs at h with hfits
  obtain ⟨results, hloop, heq⟩ := bind_eq_ok.mp (Option.some.inj h)
  obtain rfl := Except.ok.inj heq
  refine ⟨results, hloop, ?_⟩
  show ((results.take params.pageSize).map fun m => (⟨m, 1⟩ : ScoredMemory)).map ScoredMemory.memory = _
  rw [List.map_map]
  exact List.map_id _

theorem similar_window {embedBatch : Except AlayaError (List (List ℚ))}
    {searchByVector : List ℚ → ℕ → Except AlayaError (List ScoredMemory)}
    {getBatch : List String → Except AlayaError (List Memory)} {query : String} {k : ℕ} {vis : Visibility}
    {shown : List ScoredMemory}
    (h : MemoryService.searchSimilar embedBatch searchByVector getBatch query k vis = .ok shown) :
    ∃ embedding results exhausted,
      MemoryService.fetchSimilar getBatch vis (searchByVector embedding) k = .ok (results, exhausted) ∧
        shown = results.take k := by
  unfold MemoryService.searchSimilar at h
  split_ifs at h with hblank
  obtain ⟨embeddings, -, h⟩ := bind_eq_ok.mp h
  obtain ⟨embedding, -, h⟩ := bind_eq_ok.mp h
  obtain ⟨⟨results, exhausted⟩, hfetch, heq⟩ := bind_eq_ok.mp h
  exact ⟨embedding, results, exhausted, hfetch, (Except.ok.inj heq).symm⟩

end

/-- What a page is in each mode, where the mode's largest number fits 64 bits: every step goes through and is exact,
and the page is the window of its number, or the front of the list in the modes that have no page numbers. -/
structure PageWindows : Prop where
  hybrid : ∀ (table : TableOrder) (b : HybridBackends) (params : HybridParams) (asOf : Option ℚ) (now : ℚ),
    params.pageSize * 3 < usizeSize → params.page * params.pageSize < usizeSize →
      hybridWindow params.page params.pageSize =
          some (min (max (params.pageSize * 3) (params.page * params.pageSize)) maxHybridFetch,
            (params.page - 1) * params.pageSize) ∧
        MemoryService.searchHybrid table b params asOf now ≠ none ∧
        ∀ shown, MemoryService.searchHybrid table b params asOf now = some (.ok shown) →
          ∃ r, MemoryService.hybridRanking table b params asOf now = .ok r ∧ shown.results =
            window params.page params.pageSize (MemoryService.aboveMin params.minSimilarity r.results)
  scan : ∀ (scroll : Scroll) (params : SearchParams),
    (params.page - 1) * params.pageSize + params.pageSize + 1 < usizeSize →
      scanWindow params.page params.pageSize = some ((params.page - 1) * params.pageSize + params.pageSize + 1,
          (params.page - 1) * params.pageSize, (params.page - 1) * params.pageSize + params.pageSize) ∧
        MemoryService.searchScan scroll params ≠ none ∧
        ∀ shown, MemoryService.searchScan scroll params = some (.ok shown) → ∃ filtered cursor,
          MemoryService.scanLoop (getAll scroll) (MemoryService.scanKeeps params)
              ((params.page - 1) * params.pageSize + params.pageSize + 1) [] none 0 = .ok (filtered, cursor) ∧
            shown.results.map ScoredMemory.memory = window params.page params.pageSize filtered
  tag : ∀ (getBatch : List String → Except AlayaError (List Memory))
    (searchByTags : List String → Bool → ℕ → Except AlayaError (List ScoredMemory)) (params : SearchParams),
    ((params.page - 1) * params.pageSize + params.pageSize + 1) * 2 < usizeSize →
      tagWindow params.page params.pageSize = some (((params.page - 1) * params.pageSize + params.pageSize + 1) * 2,
          (params.page - 1) * params.pageSize + params.pageSize + 1, (params.page - 1) * params.pageSize,
          (params.page - 1) * params.pageSize + params.pageSize) ∧
        MemoryService.searchTag getBatch searchByTags params ≠ none ∧
        ∀ shown, MemoryService.searchTag getBatch searchByTags params = some (.ok shown) →
          ∃ filtered exhausted hpos,
            MemoryService.fetchLiveWithRetry getBatch ⟨params.includeSuperseded, none⟩
                (searchByTags (params.tags.getD []) params.matchAll)
                ((params.page - 1) * params.pageSize + params.pageSize + 1) maxTagFetch
                (((params.page - 1) * params.pageSize + params.pageSize + 1) * 2) hpos = .ok (filtered, exhausted) ∧
              shown.results = window params.page params.pageSize filtered
  recent : ∀ (getRecent : ℕ → Option ℚ → Option String → Except AlayaError (List Memory)) (params : SearchParams),
    params.pageSize + 1 < usizeSize →
      recentWindow params.includeSuperseded params.pageSize = some (params.pageSize + 1,
          if params.includeSuperseded then params.pageSize + 1 else min ((params.pageSize + 1) * 2) maxRecentScanned) ∧
        MemoryService.searchRecent getRecent params ≠ none ∧
        ∀ shown, MemoryService.searchRecent getRecent params = some (.ok shown) → ∃ results,
          MemoryService.recentLoop (fun limit start => getRecent limit start params.memoryType)
              (Visibility.showsNow params.includeSuperseded) (params.pageSize + 1)
              (MemoryService.recentBatchSize params.includeSuperseded (params.pageSize + 1))
              (MemoryService.recentBatchSize_pos _ (Nat.succ_pos _)) [] params.cursor 0 = .ok results ∧
            shown.results.map ScoredMemory.memory = results.take params.pageSize
  similar : ∀ (embedBatch : Except AlayaError (List (List ℚ)))
    (searchByVector : List ℚ → ℕ → Except AlayaError (List ScoredMemory))
    (getBatch : List String → Except AlayaError (List Memory)) (query : String) (k : ℕ) (vis : Visibility),
    similarFetch vis.includeSuperseded k = (if vis.includeSuperseded then k else max (min (k * 2) maxSimilarFetch) k) ∧
      ∀ shown, MemoryService.searchSimilar embedBatch searchByVector getBatch query k vis = .ok shown →
        ∃ embedding results exhausted,
          MemoryService.fetchSimilar getBatch vis (searchByVector embedding) k = .ok (results, exhausted) ∧
            shown = results.take k

/-- **Where no number overflows, a page is its window.** -/
theorem page_windows : PageWindows where
  hybrid table b params asOf now hthree hthrough := by
    refine ⟨?_, ?_, fun shown hshown => hybrid_window hshown⟩
    · rw [hybridWindow_eq, if_pos ⟨hthree, hthrough⟩]
      rfl
    · unfold MemoryService.searchHybrid
      split_ifs with hblank hfits
      · exact fun h => by cases h
      · exact fun h => by cases h
      · exact absurd ⟨hthree, hthrough⟩ hfits
  scan scroll params hfits := by
    refine ⟨?_, ?_, fun shown hshown => scan_window hshown⟩
    · rw [scanWindow_eq, if_pos hfits]
    · unfold MemoryService.searchScan
      dsimp only
      rw [if_pos hfits]
      exact fun h => by cases h
  tag getBatch searchByTags params hfits := by
    refine ⟨?_, ?_, fun shown hshown => tag_window hshown⟩
    · rw [tagWindow_eq, if_pos hfits]
    · unfold MemoryService.searchTag
      dsimp only
      split_ifs
      · exact fun h => by cases h
      · exact fun h => by cases h
  recent getRecent params hfits := by
    refine ⟨?_, ?_, fun shown hshown => recent_window hshown⟩
    · rw [recentWindow_eq, if_pos hfits]
      rfl
    · unfold MemoryService.searchRecent
      dsimp only
      rw [if_pos hfits]
      exact fun h => by cases h
  similar embedBatch searchByVector getBatch query k vis :=
    ⟨similarFetch_eq _ _, fun shown hshown => similar_window hshown⟩

/-- What is asked for of a page of tag mode. -/
def tagParams (page pageSize : ℕ) : SearchParams := ⟨page, pageSize, some ["t"], false, none, false, none⟩

/-- **Page arithmetic overflows, and recent mode has no pages.**  Page sizes that are not refused overflow a product
or a sum in hybrid, scan, tag and recent mode; and the second page of recent mode is the front of its list. -/
theorem page_overflows :
    hybridWindow 1 (2 ^ 63) = none ∧ scanWindow 1 (2 ^ 64 - 1) = none ∧ tagWindow 1 (2 ^ 63) = none ∧
      recentWindow false (2 ^ 64 - 1) = none ∧
      MemoryService.searchTag (fun _ => .ok []) (fun _ _ _ => .ok []) (tagParams 1 (2 ^ 63)) = none ∧
      ∃ shown, MemoryService.searchRecent (fun _ _ _ => .ok [plainMemory "a"]) (tagParams 2 1) = some (.ok shown) ∧
        shown.results.map ScoredMemory.memory = [plainMemory "a"] ∧ window 2 1 [plainMemory "a"] = [] := by
  refine ⟨by decide, by decide, by decide, by decide, ?_, ?_⟩
  · unfold MemoryService.searchTag
    dsimp only
    rw [if_neg (by decide), if_neg (by decide)]
  · have hloop : MemoryService.recentLoop (fun _ _ => .ok [plainMemory "a"]) (Visibility.showsNow false) (1 + 1)
        (MemoryService.recentBatchSize false (1 + 1)) (MemoryService.recentBatchSize_pos _ (Nat.succ_pos _)) [] none 0 =
          .ok [plainMemory "a"] := by
      unfold MemoryService.recentLoop
      exact if_pos (by decide)
    refine ⟨⟨1, false, [⟨plainMemory "a", 1⟩], some 0⟩, ?_, rfl, rfl⟩
    unfold MemoryService.searchRecent
    dsimp only [tagParams]
    rw [if_pos (by decide), hloop]
    rfl

end Alaya
