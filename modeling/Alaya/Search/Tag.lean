import Alaya.Search.Visibility

/-!
# Tag search

`searchTag` shows one page of the visible memories that carry the tags.  It fetches from the start of
the matches on every page, at most `tagReach` of them: so a page shows its window of the visible
matches among those, and says that there is more where it saw more, or where the matches go on.
-/

namespace Alaya

open Paging Rows

def maxTagFetch : ℕ := 5000

/-- One page of an answer. -/
structure SearchPage where
  page : ℕ
  pageSize : ℕ
  count : ℕ
  hasMore : Bool
  results : List ScoredMemory

/-- `search_tag`; `none` is an arithmetic overflow.  A point that does not parse is left out of the matches before
this. -/
def MemoryService.searchTag (getBatch : List String → Except AlayaError (List Memory))
    (searchByTags : List String → Bool → ℕ → Except AlayaError (List ScoredMemory)) (params : SearchParams) :
    Option (Except AlayaError SearchPage) :=
  let tags := params.tags.getD []
  if tags.isEmpty then some (.error (.validation "tags required for tag mode"))
  else
    let offset := (params.page - 1) * params.pageSize
    let target := offset + params.pageSize + 1
    -- The last of the products and sums, and the largest.
    if target * 2 < usizeSize then
      some do
        let (filtered, exhausted) ← fetchLiveWithRetry getBatch ⟨params.includeSuperseded, none⟩
          (searchByTags tags params.matchAll) target maxTagFetch (target * 2) (by omega)
        let page := page offset params.pageSize filtered
        return {
          page := params.page
          pageSize := params.pageSize
          count := page.length
          hasMore := offset + params.pageSize < filtered.length || !exhausted && filtered.length < target
          results := page }
    else none

/-- The most matches that a page looks at. -/
def tagReach (pageSize page : ℕ) : ℕ := max maxTagFetch (((page - 1) * pageSize + pageSize + 1) * 2)

/-- The memories that a search of the store as it is now shows. -/
def SearchParams.visible (params : SearchParams) (rows : List ScoredMemory) : List ScoredMemory :=
  rows.filter fun sm => Visibility.showsNow params.includeSuperseded sm.memory

/-- The visible matches that a page sees. -/
def SearchParams.tagSees (params : SearchParams) (rows : List ScoredMemory) (page : ℕ) : List ScoredMemory :=
  params.visible (rows.take (tagReach params.pageSize page))

section

variable {getBatch : List String → Except AlayaError (List Memory)}
  {searchByTags : List String → Bool → ℕ → Except AlayaError (List ScoredMemory)} {params : SearchParams}
  {rows : List ScoredMemory}

theorem visible_isPrefix (params : SearchParams) {rows rows' : List ScoredMemory} (h : rows <+: rows') :
    params.visible rows <+: params.visible rows' := by
  obtain ⟨rest, rfl⟩ := h
  unfold SearchParams.visible
  rw [List.filter_append]
  exact List.prefix_append _ _

theorem tagSees_isPrefix (params : SearchParams) (rows : List ScoredMemory) (page : ℕ) :
    params.tagSees rows page <+: params.visible rows :=
  visible_isPrefix params (List.take_prefix _ _)

/-- **What a page shows**: its window of the visible matches it sees. -/
theorem searchTag_eq (getBatch : List String → Except AlayaError (List Memory)) (params : SearchParams)
    (htags : params.tags.getD [] ≠ [])
    (hfits : ((params.page - 1) * params.pageSize + params.pageSize + 1) * 2 < usizeSize)
    (hsearch : ∀ n, searchByTags (params.tags.getD []) params.matchAll n = .ok (rows.take n)) :
    ∃ r : SearchPage, MemoryService.searchTag getBatch searchByTags params = some (.ok r) ∧
      r.results = page ((params.page - 1) * params.pageSize) params.pageSize (params.tagSees rows params.page) ∧
      r.hasMore = (decide ((params.page - 1) * params.pageSize + params.pageSize <
        (params.tagSees rows params.page).length) || decide (tagReach params.pageSize params.page ≤ rows.length)) := by
  set offset := (params.page - 1) * params.pageSize with hoffset
  set target := offset + params.pageSize + 1 with htarget
  have hpos : 0 < target * 2 := by omega
  obtain ⟨n, hle, heq, hstop⟩ := fetchLiveWithRetry_eq getBatch params.includeSuperseded target maxTagFetch
    hpos hsearch
  change n ≤ tagReach params.pageSize params.page at hle
  change target ≤ (params.visible (rows.take n)).length ∨ rows.length < n ∨
    n = tagReach params.pageSize params.page at hstop
  have hsees : params.visible (rows.take n) <+: params.tagSees rows params.page :=
    visible_isPrefix params (List.take_prefix_take_left hle)
  have hlength := hsees.length_le
  -- Short of the target, the fetch has seen what the page can see.
  have hall : (params.visible (rows.take n)).length < target →
      (params.tagSees rows params.page).length = (params.visible (rows.take n)).length := by
    intro hshort
    rcases hstop with h | h | h
    · omega
    · rw [SearchParams.tagSees, List.take_of_length_le (by omega), List.take_of_length_le (by omega)]
    · rw [SearchParams.tagSees, h]
  unfold MemoryService.searchTag
  rw [if_neg (by rwa [List.isEmpty_iff]), if_pos hfits]
  refine ⟨_, congrArg some (congrArg (· >>= _) heq), ?_, ?_⟩
  · exact (page_eq_iff hsees).mpr (by omega)
  · show (decide (offset + params.pageSize < (params.visible (rows.take n)).length) ||
      !decide (rows.length < n) && decide ((params.visible (rows.take n)).length < target)) = _
    rw [Bool.eq_iff_iff]
    simp only [Bool.or_eq_true, Bool.and_eq_true, Bool.not_eq_true', decide_eq_true_eq, decide_eq_false_iff_not]
    omega

/-- Page `page` shows these memories, and `next` is the page after it. -/
def TagAt (getBatch : List String → Except AlayaError (List Memory))
    (searchByTags : List String → Bool → ℕ → Except AlayaError (List ScoredMemory)) (params : SearchParams)
    (page : ℕ) (items : List ScoredMemory) (next : Option ℕ) : Prop :=
  ∃ r : SearchPage, MemoryService.searchTag getBatch searchByTags { params with page } = some (.ok r) ∧
    items = r.results ∧ next = if r.hasMore then some (page + 1) else none

theorem TagAt.unique (c : ℕ) (items : List ScoredMemory) (next : Option ℕ) (items' : List ScoredMemory)
    (next' : Option ℕ) (h : TagAt getBatch searchByTags params c items next)
    (h' : TagAt getBatch searchByTags params c items' next') : items = items' ∧ next = next' := by
  obtain ⟨r, hr, rfl, rfl⟩ := h
  obtain ⟨r', hr', rfl, rfl⟩ := h'
  obtain rfl := Except.ok.inj (Option.some.inj (hr.symm.trans hr'))
  exact ⟨rfl, rfl⟩

/-- A page that should show a visible match sees all the visible matches up to its end. -/
def SearchParams.TagReaches (params : SearchParams) (rows : List ScoredMemory) (page : ℕ) : Prop :=
  (page - 1) * params.pageSize < (params.visible rows).length →
    min (params.visible rows).length (page * params.pageSize) ≤ (params.tagSees rows page).length

/-- Whether a page says that there is more. -/
def SearchParams.tagMore (params : SearchParams) (rows : List ScoredMemory) (page : ℕ) : Bool :=
  (page - 1) * params.pageSize + params.pageSize < (params.tagSees rows page).length ||
    tagReach params.pageSize page ≤ rows.length

theorem tagMore_last {page : ℕ} (hpage : 1 ≤ page) (hmore : params.tagMore rows page = false) :
    params.tagSees rows page = params.visible rows ∧ (params.visible rows).length ≤ page * params.pageSize := by
  rw [SearchParams.tagMore, Bool.or_eq_false_iff, decide_eq_false_iff_not, decide_eq_false_iff_not] at hmore
  have hall : params.tagSees rows page = params.visible rows := by
    rw [SearchParams.tagSees, List.take_of_length_le (by omega)]
  have hsucc := pred_mul_add params.pageSize hpage
  rw [hall] at hmore
  exact ⟨hall, by omega⟩

theorem tagMore_lt {page : ℕ} (hmore : params.tagMore rows page = true) :
    page * params.pageSize < rows.length := by
  have hle : page * params.pageSize ≤ (page - 1) * params.pageSize + params.pageSize := by
    rw [← Nat.succ_mul]
    exact Nat.mul_le_mul_right _ (by omega)
  rw [SearchParams.tagMore, Bool.or_eq_true, decide_eq_true_eq, decide_eq_true_eq] at hmore
  rcases hmore with hsees | hreach
  · have hvisible := (tagSees_isPrefix params rows page).length_le
    have hrows : (params.visible rows).length ≤ rows.length := List.length_filter_le _ _
    omega
  · unfold tagReach at hreach
    omega

/-- **Walking the pages of a tag search** ends, and shows visible matches only, each once and in order;
it shows them all exactly if every page reaches its own. -/
theorem walk_tag (getBatch : List String → Except AlayaError (List Memory)) (hpage : 0 < params.pageSize)
    (htags : params.tags.getD [] ≠ [])
    (hsearch : ∀ n, searchByTags (params.tags.getD []) params.matchAll n = .ok (rows.take n))
    (hfits : (rows.length + params.pageSize + 1) * 2 < usizeSize) :
    ∃ items, Walk (TagAt getBatch searchByTags params) 1 items ∧ items.Sublist (params.visible rows) ∧
      (items = params.visible rows ↔ ∀ page, 1 ≤ page → params.TagReaches rows page) := by
  have hfetch : ∀ p, 1 ≤ p → (p - 1) * params.pageSize < rows.length ∨ p = 1 →
      TagAt getBatch searchByTags params p
        (page ((p - 1) * params.pageSize) params.pageSize (params.tagSees rows p))
        (if params.tagMore rows p then some (p + 1) else none) := by
    intro p _ hp
    have hsmall : ((p - 1) * params.pageSize + params.pageSize + 1) * 2 < usizeSize := by
      rcases hp with hp | rfl
      · omega
      · rw [Nat.sub_self, Nat.zero_mul]
        omega
    obtain ⟨r, hr, hresults, hmore⟩ := searchTag_eq getBatch { params with page := p } htags hsmall hsearch
    exact ⟨r, hr, hresults.symm, by rw [hmore]; rfl⟩
  obtain ⟨items, hwalk, hsublist, hiff⟩ := walk_reaches hpage (tagSees_isPrefix params rows)
    (fun p hmore => tagMore_lt hmore) (fun p hp hmore => tagMore_last hp hmore) hfetch 1 (.inr rfl) le_rfl
  rw [Nat.sub_self, Nat.zero_mul, List.drop_zero] at hsublist hiff
  refine ⟨items, hwalk, hsublist, hiff.trans (forall_congr' fun p => forall_congr' fun hp => ?_)⟩
  have hsucc := pred_mul_add params.pageSize hp
  unfold SearchParams.TagReaches
  omega

/-- Where no page can miss a match, every page reaches its own. -/
theorem tagReaches_of_le (h : rows.length ≤ maxTagFetch) (page : ℕ) : params.TagReaches rows page := by
  have hreach : rows.length ≤ tagReach params.pageSize page := h.trans (le_max_left _ _)
  have hall : params.tagSees rows page = params.visible rows := by
    rw [SearchParams.tagSees, List.take_of_length_le hreach]
  rw [SearchParams.TagReaches, hall]
  exact fun _ => min_le_left _ _

/-- **Tag paging**, over a store whose points all parse.  Every page comes back, and one that says there is no more leaves no visible match
beyond it.  The pages end, show visible matches only, each once and in order, and show them all exactly
if every page that should show one sees those up to its end. -/
theorem tag_paging (getBatch : List String → Except AlayaError (List Memory))
    (searchByTags : List String → Bool → ℕ → Except AlayaError (List ScoredMemory)) (params : SearchParams)
    (rows : List ScoredMemory) (hpage : 0 < params.pageSize) (htags : params.tags.getD [] ≠ [])
    (hsearch : ∀ n, searchByTags (params.tags.getD []) params.matchAll n = .ok (rows.take n))
    (hfits : (rows.length + params.pageSize + 1) * 2 < usizeSize) :
    (∃ items, Walk (TagAt getBatch searchByTags params) 1 items ∧
      (∀ items', Walk (TagAt getBatch searchByTags params) 1 items' → items' = items) ∧
      items.Sublist (params.visible rows) ∧
      (items = params.visible rows ↔ ∀ page, 1 ≤ page → params.TagReaches rows page)) ∧
    ∀ page, 1 ≤ page → (page * params.pageSize + 1) * 2 < usizeSize →
      ∃ r, MemoryService.searchTag getBatch searchByTags { params with page } = some (.ok r) ∧
        (r.hasMore = false → (params.visible rows).length ≤ page * params.pageSize) := by
  constructor
  · obtain ⟨items, hwalk, hsublist, hiff⟩ := walk_tag getBatch hpage htags hsearch hfits
    exact ⟨items, hwalk, fun items' hwalk' => hwalk'.unique TagAt.unique hwalk, hsublist, hiff⟩
  · intro p hp hsmall
    have hsucc := pred_mul_add params.pageSize hp
    obtain ⟨r, hr, -, hmore⟩ := searchTag_eq getBatch { params with page := p } htags
      (by rwa [← hsucc] at hsmall) hsearch
    refine ⟨r, hr, fun hlast => (tagMore_last hp ?_).2⟩
    rw [← hlast, hmore]
    rfl

end

/-! ### Matches behind a run of hidden ones -/

namespace HiddenRun

/-- A memory, live or superseded. -/
def memory (superseded : Bool) : Memory where
  content := ""
  contentHash := ""
  tags := ["a"]
  memoryType := "note"
  metadata := if superseded then some [(supersededByKey, .string "x")] else none
  createdAt := 0
  updatedAt := 0
  embedding := none
  summary := none
  salienceScore := 0
  accessCount := 0
  accessTimestamps := []
  emotionalValence := none
  encodingContext := none
  provenance := none
  summaryEmbedding := none
  supersessionLog := none
  supersessionReason := none
  nearestSimilarity := none

def hidden : ScoredMemory := ⟨memory true, 1⟩

def live : ScoredMemory := ⟨memory false, 1⟩

def params : SearchParams where
  page := 1
  pageSize := 10
  tags := some ["a"]
  matchAll := false
  memoryType := none
  includeSuperseded := false
  cursor := none

/-- As many superseded memories as a page looks at, then a live one. -/
def rows : List ScoredMemory := List.replicate maxTagFetch hidden ++ [live]

def getBatch (_ : List String) : Except AlayaError (List Memory) := .ok []

def searchByTags (_ : List String) (_ : Bool) (n : ℕ) : Except AlayaError (List ScoredMemory) := .ok (rows.take n)

theorem searchByTags_eq (n : ℕ) :
    searchByTags (params.tags.getD []) params.matchAll n = .ok (rows.take n) := rfl

theorem length_rows : rows.length = 5001 := by
  rw [rows, List.length_append, List.length_replicate]
  rfl

theorem visible_rows : params.visible rows = [live] := by
  rw [SearchParams.visible, rows, List.filter_append, List.filter_replicate]
  rfl

/-- The first page does not see the live memory. -/
theorem tagSees_first : params.tagSees rows 1 = [] := by
  have hreach : tagReach params.pageSize 1 = maxTagFetch := rfl
  rw [SearchParams.tagSees, hreach, rows, List.take_append_of_le_length (by rw [List.length_replicate]),
    List.take_of_length_le (by rw [List.length_replicate]), SearchParams.visible, List.filter_replicate]
  rfl

/-- One memory on a page. -/
def onePerPage : SearchParams := { params with pageSize := 1 }

def early : ScoredMemory := ⟨{ memory false with content := "early" }, 1⟩

def late : ScoredMemory := ⟨{ memory false with content := "late" }, 1⟩

/-- The first fetch of the first page is four matches, and shows one. -/
def scattered : List ScoredMemory := [hidden, hidden, hidden, early, hidden, late]

end HiddenRun

open HiddenRun in
/-- Two live memories on two pages, each behind superseded ones: the fetch of four for the first page is full and short
of its target, so it doubles. -/
theorem tag_paging_scattered : ∃ items r,
    Walk (TagAt HiddenRun.getBatch (fun _ _ n => .ok (scattered.take n)) onePerPage) 1 items ∧ items = [early, late] ∧
    (onePerPage.visible (scattered.take 4)).length < 2 ∧
    MemoryService.searchTag HiddenRun.getBatch (fun _ _ n => .ok (scattered.take n)) onePerPage = some (.ok r) ∧
      r.hasMore = true := by
  obtain ⟨⟨items, hwalk, -, -, hiff⟩, hpages⟩ := tag_paging HiddenRun.getBatch
    (fun _ _ n => .ok (scattered.take n)) onePerPage scattered (by decide) (by decide) (fun _ => rfl) (by decide)
  obtain ⟨r, hr, hmore⟩ := hpages 1 le_rfl (by decide)
  refine ⟨items, r, hwalk, hiff.mpr fun p _ => tagReaches_of_le (by decide) p, by decide, hr, ?_⟩
  by_contra hlast
  exact absurd (hmore (Bool.not_eq_true _ ▸ hlast)) (by decide)

/-- A live match behind as many superseded ones as a page looks at is on no page. -/
theorem tag_paging_incomplete :
    ¬ ∀ (getBatch : List String → Except AlayaError (List Memory))
      (searchByTags : List String → Bool → ℕ → Except AlayaError (List ScoredMemory)) (params : SearchParams)
      (rows : List ScoredMemory), 0 < params.pageSize → params.tags.getD [] ≠ [] →
      (∀ n, searchByTags (params.tags.getD []) params.matchAll n = .ok (rows.take n)) →
      (rows.length + params.pageSize + 1) * 2 < usizeSize →
        Walk (TagAt getBatch searchByTags params) 1 (params.visible rows) := by
  intro h
  have hfits : (HiddenRun.rows.length + HiddenRun.params.pageSize + 1) * 2 < usizeSize := by
    rw [HiddenRun.length_rows]
    decide
  have hall := h HiddenRun.getBatch HiddenRun.searchByTags HiddenRun.params HiddenRun.rows (by decide) (by decide)
    HiddenRun.searchByTags_eq hfits
  obtain ⟨items, hwalk, -, hiff⟩ := walk_tag HiddenRun.getBatch (by decide) (by decide)
    HiddenRun.searchByTags_eq hfits
  have hreach := hiff.mp (hwalk.unique TagAt.unique hall) 1 le_rfl
  rw [SearchParams.TagReaches, HiddenRun.tagSees_first, HiddenRun.visible_rows] at hreach
  exact absurd (hreach (by decide)) (by decide)

end Alaya
