import Alaya.Backends.Readers
import Alaya.Lib.Keyset
import Alaya.Search.Scan

/-!
# Recent search

`searchRecent` shows one page of the newest visible memories from the cursor on, and gives the creation time of its last
one as the next cursor.  A page fetches in batches, each from the creation time of the last memory of the batch before,
until it has one visible memory more than it shows, the store has no more, or a cap is reached.

The store reads on from a time with the points of that very time (`getRecent`).  So a page with another one after it is
followed by one that repeats some of it, and the pages show every visible memory once exactly if the first one does
(`recent_paging`).
-/

namespace Alaya

open Json Paging Rows

/-! ### The store -/

/-- The order of a scroll. -/
structure OrderBy where
  key : String
  direction : String
  startFrom : Option ℚ

/-- What an ordered scroll asks for. -/
structure OrderedScroll where
  limit : ℕ
  filter : Option Condition
  withPayload : Bool
  withVector : Bool
  orderBy : OrderBy

/-- The filter of a memory type. -/
def typeFilter (memoryType : Option String) : Option Condition := memoryType.map (Condition.matchValue "memory_type")

/-- `get_recent`; a point that does not parse is left out of what the limit counts. -/
def getRecent (scroll : OrderedScroll → Except AlayaError (List Payload)) (limit : ℕ) (startFrom : Option ℚ)
    (memoryType : Option String) : Except AlayaError (List Memory) :=
  (scroll {
    limit
    filter := typeFilter memoryType
    withPayload := true
    withVector := false
    orderBy := ⟨"created_at", "desc", startFrom⟩ }).map fun points => points.filterMap parsePayload

/-- The time that a point is ordered by. -/
def Payload.createdAt (p : Payload) : ℚ := ((p.get "created_at").bind Value.asF64).getD 0

/-- The points a search of a memory type reads. -/
def ofType (memoryType : Option String) (stored : List Payload) : List Payload :=
  stored.filter fun p => (typeFilter memoryType).all fun c => c.holds p

/-- A static store whose points all have a creation time: a scroll by that time, newest first, answers the first of the
matching points from a time on, that time included. -/
structure ScrollsByTime (scroll : OrderedScroll → Except AlayaError (List Payload)) (stored : List Payload) : Prop where
  newest : stored.Pairwise fun p q => q.createdAt ≤ p.createdAt
  answers : ∀ request, request.orderBy.key = "created_at" → request.orderBy.direction = "desc" →
    scroll request = .ok ((upTo Payload.createdAt request.orderBy.startFrom
      (stored.filter fun p => request.filter.all fun c => c.holds p)).take request.limit)

/-! ### A page -/

def maxRecentScanned : ℕ := 5000

/-- One page of an answer. -/
structure RecentPage where
  pageSize : ℕ
  hasMore : Bool
  results : List ScoredMemory
  nextCursor : Option ℚ

namespace MemoryService

/-- The visible memories of a page's batches. -/
def recentLoop (getRecent : ℕ → Option ℚ → Except AlayaError (List Memory)) (keeps : Memory → Bool)
    (target batchSize : ℕ) (hpos : 0 < batchSize) (results : List Memory) (scanCursor : Option ℚ)
    (rawScanned : ℕ) : Except AlayaError (List Memory) :=
  match getRecent batchSize scanCursor with
  | .error e => .error e
  | .ok batch =>
    let scanned := rawScanned + batch.length
    let kept := results ++ batch.filter keeps
    if target ≤ kept.length ∨ batch.length < batchSize ∨ maxRecentScanned ≤ scanned then .ok kept
    else
      recentLoop getRecent keeps target batchSize hpos kept
        ((batch.getLast?.map Memory.createdAt).or scanCursor) scanned
termination_by maxRecentScanned - rawScanned

/-- How many memories a batch asks for. -/
def recentBatchSize (includeSuperseded : Bool) (target : ℕ) : ℕ :=
  if includeSuperseded then target else min (target * 2) maxRecentScanned

theorem recentBatchSize_pos (includeSuperseded : Bool) {target : ℕ} (htarget : 0 < target) :
    0 < recentBatchSize includeSuperseded target := by
  unfold recentBatchSize
  split_ifs
  · exact htarget
  · rw [Nat.lt_min]
    exact ⟨by omega, by decide⟩

/-- `search_recent`; `none` is an arithmetic overflow. -/
def searchRecent (getRecent : ℕ → Option ℚ → Option String → Except AlayaError (List Memory))
    (params : SearchParams) : Option (Except AlayaError RecentPage) :=
  let target := params.pageSize + 1
  if target < usizeSize then
    some do
      let results ← recentLoop (fun limit start => getRecent limit start params.memoryType)
        (Visibility.showsNow params.includeSuperseded) target (recentBatchSize params.includeSuperseded target)
        (recentBatchSize_pos _ (Nat.succ_pos _)) [] params.cursor 0
      let page := results.take params.pageSize
      return {
        pageSize := params.pageSize
        hasMore := params.pageSize < results.length
        results := page.map fun m => ⟨m, 1⟩
        nextCursor := page.getLast?.map Memory.createdAt }
  else none

end MemoryService

/-! ### What the batches bring -/

/-- The visible memories of some points. -/
def visibleOf (keeps : Memory → Bool) (points : List Payload) : List Memory :=
  (points.filterMap parsePayload).filter keeps

/-- **The batches show the visible memories of `left` once.**  Where another one is fetched after a batch, it begins with
the points of the last one's time again. -/
inductive Covered (keeps : Memory → Bool) (batchSize : ℕ) : List Payload → ℕ → Prop
  /-- The last batch: fewer memories than it asked for, or the cap. -/
  | last {left : List Payload} {scanned : ℕ} :
      ((left.take batchSize).filterMap parsePayload).length < batchSize ∨ maxRecentScanned ≤ scanned + batchSize →
      visibleOf keeps (left.drop batchSize) = [] → Covered keeps batchSize left scanned
  | next {left : List Payload} {scanned : ℕ} {p : Payload} :
      ((left.take batchSize).filterMap parsePayload).length = batchSize → scanned + batchSize < maxRecentScanned →
      (left.take batchSize).getLast? = some p →
      visibleOf keeps ((left.take batchSize).filter fun p' => p'.createdAt = p.createdAt) = [] →
      Covered keeps batchSize (upTo Payload.createdAt (some p.createdAt) left) (scanned + batchSize) →
      Covered keeps batchSize left scanned

/-- The memories that the batches of a page bring, where `need` visible ones are still wanted. -/
def fetchedRows (points : List Payload) (keeps : Memory → Bool) (batchSize : ℕ) (hpos : 0 < batchSize) (need : ℕ)
    (scanCursor : Option ℚ) (rawScanned : ℕ) : List Memory :=
  let batch := ((upTo Payload.createdAt scanCursor points).take batchSize).filterMap parsePayload
  if need ≤ (batch.filter keeps).length ∨ batch.length < batchSize ∨
      maxRecentScanned ≤ rawScanned + batch.length then batch
  else
    batch ++ fetchedRows points keeps batchSize hpos (need - (batch.filter keeps).length)
      ((batch.getLast?.map Memory.createdAt).or scanCursor) (rawScanned + batch.length)
termination_by maxRecentScanned - rawScanned
decreasing_by
  change maxRecentScanned - (rawScanned + batch.length) < _
  omega

theorem createdAt_of_parsePayload {p : Payload} {m : Memory} (h : parsePayload p = some m) :
    m.createdAt = p.createdAt := by
  obtain ⟨v, -, h⟩ := Option.bind_eq_some_iff.mp h
  obtain ⟨content, -, h⟩ := Option.bind_eq_some_iff.mp h
  obtain ⟨v', -, h⟩ := Option.bind_eq_some_iff.mp h
  obtain ⟨contentHash, -, h⟩ := Option.bind_eq_some_iff.mp h
  obtain rfl := Option.some.inj h
  rfl

section

variable {keeps : Memory → Bool} {points : List Payload} {batchSize : ℕ} {hpos : 0 < batchSize}

theorem visibleOf_append (keeps : Memory → Bool) (xs ys : List Payload) :
    visibleOf keeps (xs ++ ys) = visibleOf keeps xs ++ visibleOf keeps ys := by
  unfold visibleOf
  rw [List.filterMap_append, List.filter_append]

/-- A batch of points, and what is behind it. -/
theorem visibleOf_split (keeps : Memory → Bool) (left : List Payload) (n : ℕ) :
    visibleOf keeps left = visibleOf keeps (left.take n) ++ visibleOf keeps (left.drop n) := by
  rw [← visibleOf_append, List.take_append_drop]

/-- The visible memories from a time on. -/
theorem visibleOf_upTo (keeps : Memory → Bool) (t : ℚ) (left : List Payload) :
    visibleOf keeps (upTo Payload.createdAt (some t) left) =
      (visibleOf keeps left).filter fun m => m.createdAt ≤ t := by
  have hparsed : (upTo Payload.createdAt (some t) left).filterMap parsePayload =
      (left.filterMap parsePayload).filter fun m => m.createdAt ≤ t := by
    unfold upTo
    rw [List.filterMap_filter, List.filter_filterMap]
    refine List.filterMap_congr fun p _ => ?_
    cases hm : parsePayload p with
    | none => exact ite_self _
    | some m => simp [Option.filter, createdAt_of_parsePayload hm]
  unfold visibleOf
  rw [hparsed, List.filter_comm]

/-- A full batch ends with the memory of its last point. -/
theorem getLast?_parsed (batch : List Payload) (hpos : 0 < batch.length)
    (hfull : (batch.filterMap parsePayload).length = batch.length) :
    ∃ p, batch.getLast? = some p ∧
      (batch.filterMap parsePayload).getLast?.map Memory.createdAt = some p.createdAt := by
  obtain ⟨front, p, rfl⟩ : ∃ front p, batch = front ++ [p] :=
    (List.eq_nil_or_concat batch).resolve_left (List.length_pos_iff.mp hpos) |>.imp fun _ h => h.imp fun _ h => by
      rw [h, List.concat_eq_append]
  refine ⟨p, List.getLast?_concat .., ?_⟩
  cases hm : parsePayload p with
  | none =>
    have hle := List.length_filterMap_le parsePayload front
    rw [List.filterMap_append, List.filterMap_cons_none hm, List.filterMap_nil, List.append_nil,
      List.length_append] at hfull
    rw [List.length_singleton] at hfull
    omega
  | some m =>
    rw [List.filterMap_append, List.filterMap_cons_some hm, List.filterMap_nil, List.getLast?_concat]
    exact congrArg some (createdAt_of_parsePayload hm)

/-- **A full batch**: the next one is read from the time of its last point. -/
theorem full_batch (scanCursor : Option ℚ) (hpos : 0 < batchSize)
    (hfull : ¬(((upTo Payload.createdAt scanCursor points).take batchSize).filterMap parsePayload).length < batchSize) :
    ∃ p, ((upTo Payload.createdAt scanCursor points).take batchSize).getLast? = some p ∧
      (((upTo Payload.createdAt scanCursor points).take batchSize).filterMap parsePayload).getLast?.map
        Memory.createdAt = some p.createdAt ∧
      upTo Payload.createdAt (some p.createdAt) (upTo Payload.createdAt scanCursor points) =
        upTo Payload.createdAt (some p.createdAt) points := by
  set left := upTo Payload.createdAt scanCursor points with hleft
  have hparsed := List.length_filterMap_le parsePayload (left.take batchSize)
  have htake := List.length_take_le batchSize left
  obtain ⟨p, hlast, hcreated⟩ := getLast?_parsed (left.take batchSize) (by omega) (by omega)
  have hmem : p ∈ left := List.mem_of_mem_take (List.mem_of_getLast? hlast)
  exact ⟨p, hlast, hcreated, upTo_upTo (fun t ht => (mem_upTo.mp hmem).2 t ht) points⟩

/-- **Behind a full batch**: the next one begins with its visible points of the last time, and goes on with what is
left. -/
theorem visibleOf_next (keeps : Memory → Bool) {left : List Payload} {p : Payload}
    (hsorted : left.Pairwise fun p q => q.createdAt ≤ p.createdAt) (hlast : (left.take batchSize).getLast? = some p) :
    visibleOf keeps (upTo Payload.createdAt (some p.createdAt) left) =
      visibleOf keeps ((left.take batchSize).filter fun p' => p'.createdAt = p.createdAt) ++
        visibleOf keeps (left.drop batchSize) := by
  have hsplit : left.take batchSize ++ left.drop batchSize = left := List.take_append_drop _ _
  have hnext := upTo_of_last (hsplit.symm ▸ hsorted) hlast
  rw [hsplit] at hnext
  rw [hnext, visibleOf_append]

/-- A page brings its first batch, and what the others bring behind it. -/
theorem batch_isPrefix (points : List Payload) (keeps : Memory → Bool) (hpos : 0 < batchSize) (need : ℕ) (scanCursor : Option ℚ)
    (rawScanned : ℕ) : ((upTo Payload.createdAt scanCursor points).take batchSize).filterMap parsePayload <+:
      fetchedRows points keeps batchSize hpos need scanCursor rawScanned := by
  unfold fetchedRows
  dsimp only
  split_ifs
  · exact List.prefix_refl _
  · exact List.prefix_append _ _

/-- **A page's batches show each visible memory once exactly if they are covered**, where fewer are visible than it
wants. -/
theorem filter_fetchedRows_iff (keeps : Memory → Bool) (hpos : 0 < batchSize)
    (hsorted : points.Pairwise fun p q => q.createdAt ≤ p.createdAt) (need : ℕ) (scanCursor : Option ℚ) (rawScanned : ℕ)
    (hneed : (visibleOf keeps (upTo Payload.createdAt scanCursor points)).length < need)
    (hnodup : (visibleOf keeps (upTo Payload.createdAt scanCursor points)).Nodup) :
    (fetchedRows points keeps batchSize hpos need scanCursor rawScanned).filter keeps =
        visibleOf keeps (upTo Payload.createdAt scanCursor points) ↔
      Covered keeps batchSize (upTo Payload.createdAt scanCursor points) rawScanned := by
  induction hn : maxRecentScanned - rawScanned using Nat.strongRecOn generalizing need scanCursor rawScanned with
  | ind n ih =>
    unfold fetchedRows
    dsimp only
    set left := upTo Payload.createdAt scanCursor points with hleft
    set batch := (left.take batchSize).filterMap parsePayload with hbatch
    have hsplit : visibleOf keeps left = batch.filter keeps ++ visibleOf keeps (left.drop batchSize) :=
      visibleOf_split keeps left batchSize
    have hle : batch.length ≤ batchSize :=
      (List.length_filterMap_le _ _).trans (List.length_take_le _ _)
    rw [hsplit, List.length_append] at hneed
    by_cases hstop : batch.length < batchSize ∨ maxRecentScanned ≤ rawScanned + batch.length
    · rw [if_pos (.inr hstop), hsplit, List.self_eq_append_right]
      refine ⟨.last (hstop.imp_right fun hcap => by omega), fun hcovered => ?_⟩
      cases hcovered with
      | last _ hrest => exact hrest
      | next hfull hcap _ _ _ =>
        change batch.length = batchSize at hfull
        omega
    · rw [if_neg (by omega)]
      have hfull : batch.length = batchSize := by omega
      obtain ⟨p, hlast, hparsed, hnext⟩ := full_batch scanCursor hpos (not_or.mp hstop).1
      have hsortedLeft : left.Pairwise fun p q => q.createdAt ≤ p.createdAt := hsorted.filter _
      have hvisible := visibleOf_next keeps hsortedLeft hlast
      rw [hparsed, Option.some_or, List.filter_append, hsplit, List.append_cancel_left_eq]
      by_cases hhidden : visibleOf keeps ((left.take batchSize).filter fun p' => p'.createdAt = p.createdAt) = []
      · rw [hhidden, List.nil_append, hnext] at hvisible
        have hrest := ih _ (by omega) (need - (batch.filter keeps).length) (some p.createdAt) (rawScanned + batch.length)
          (by rw [hvisible]; omega)
          (by rw [hvisible]; exact (hsplit ▸ hnodup).of_append_right) rfl
        rw [hvisible] at hrest
        rw [hrest, hfull, ← hnext]
        refine ⟨.next hfull (by omega) hlast hhidden, fun hcovered => ?_⟩
        cases hcovered with
        | last hends _ =>
          change batch.length < batchSize ∨ _ at hends
          omega
        | next _ _ hlast' _ hcovered =>
          obtain rfl := Option.some.inj (hlast.symm.trans hlast')
          exact hcovered
      · -- A visible one of the last time is shown again.
        refine iff_of_false (fun heq => ?_) fun hcovered => ?_
        · obtain ⟨m, hm⟩ := List.exists_mem_of_ne_nil _ hhidden
          obtain ⟨p', hp', hm'⟩ := List.mem_filterMap.mp (List.mem_filter.mp hm).1
          have hkeeps := (List.mem_filter.mp hm).2
          have hagain : p' ∈ (upTo Payload.createdAt (some p.createdAt) points).take batchSize := by
            have hread := mem_take_upTo hsortedLeft (List.mem_filter.mp hp').1
            rwa [of_decide_eq_true (List.mem_filter.mp hp').2, hnext] at hread
          have hshown : m ∈ visibleOf keeps (left.drop batchSize) := by
            rw [← heq]
            exact List.mem_filter.mpr ⟨(batch_isPrefix ..).subset (List.mem_filterMap.mpr ⟨p', hagain, hm'⟩), hkeeps⟩
          have hbefore : m ∈ batch.filter keeps :=
            List.mem_filter.mpr ⟨List.mem_filterMap.mpr ⟨p', (List.mem_filter.mp hp').1, hm'⟩, hkeeps⟩
          exact (List.nodup_append.mp (hsplit ▸ hnodup)).2.2 m hbefore m hshown rfl
        · cases hcovered with
          | last hends _ =>
            change batch.length < batchSize ∨ _ at hends
            omega
          | next _ _ hlast' hnone _ =>
            obtain rfl := Option.some.inj (hlast.symm.trans hlast')
            exact hhidden hnone

/-- Every memory a page brings was in a batch, and is among those from the cursor on. -/
theorem exists_batch {m : Memory} {need : ℕ} {scanCursor : Option ℚ} {rawScanned : ℕ}
    (hm : m ∈ fetchedRows points keeps batchSize hpos need scanCursor rawScanned) :
    (∃ c, m ∈ ((upTo Payload.createdAt c points).take batchSize).filterMap parsePayload) ∧
      m ∈ (upTo Payload.createdAt scanCursor points).filterMap parsePayload := by
  have hhead : ∀ c, m ∈ ((upTo Payload.createdAt c points).take batchSize).filterMap parsePayload →
      m ∈ (upTo Payload.createdAt c points).filterMap parsePayload := fun c hm =>
    ((List.take_sublist _ _).filterMap _).subset hm
  induction hn : maxRecentScanned - rawScanned using Nat.strongRecOn generalizing need scanCursor rawScanned with
  | ind n ih =>
    unfold fetchedRows at hm
    dsimp only at hm
    split_ifs at hm with hstop
    · exact ⟨⟨scanCursor, hm⟩, hhead _ hm⟩
    · rcases List.mem_append.mp hm with hm | hm
      · exact ⟨⟨scanCursor, hm⟩, hhead _ hm⟩
      · obtain ⟨p, -, hparsed, hnext⟩ := full_batch scanCursor hpos (not_or.mp (not_or.mp hstop).2).1
        rw [hparsed, Option.some_or] at hm
        obtain ⟨hbatch, hleft⟩ := ih _ (by omega) hm rfl
        rw [← hnext] at hleft
        exact ⟨hbatch, ((List.filter_sublist).filterMap _).subset hleft⟩

/-- **The first visible memory from a time on is shown before a later one of that time.**  Here `m` is the last of the
first `n` memories that the batches show. -/
theorem find?_mem_take {need : ℕ} {scanCursor : Option ℚ} {rawScanned n : ℕ} {m v : Memory}
    (hm : (((fetchedRows points keeps batchSize hpos need scanCursor rawScanned).filter keeps).take n).getLast? = some m)
    (hv : (visibleOf keeps (upTo Payload.createdAt scanCursor points)).find? (fun m' => m'.createdAt ≤ m.createdAt) = some v) :
    v ∈ ((fetchedRows points keeps batchSize hpos need scanCursor rawScanned).filter keeps).take n := by
  induction hbudget : maxRecentScanned - rawScanned using Nat.strongRecOn generalizing need scanCursor rawScanned n with
  | ind k ih =>
    unfold fetchedRows at hm ⊢
    dsimp only at hm ⊢
    set left := upTo Payload.createdAt scanCursor points with hleft
    set batch := (left.take batchSize).filterMap parsePayload with hbatch
    have hsplit : visibleOf keeps left = batch.filter keeps ++ visibleOf keeps (left.drop batchSize) :=
      visibleOf_split keeps left batchSize
    -- Where the batch itself shows `m`, it shows `v` no later.
    have hfirst : ∀ n, ((batch.filter keeps).take n).getLast? = some m → v ∈ (batch.filter keeps).take n := by
      intro n hlast
      rw [hsplit, ← List.take_append_drop n (batch.filter keeps), List.append_assoc, List.find?_append] at hv
      cases hfound : ((batch.filter keeps).take n).find? (fun m' => m'.createdAt ≤ m.createdAt) with
      | none =>
        rw [List.find?_eq_none] at hfound
        exact absurd (decide_eq_true le_rfl) (hfound m (List.mem_of_getLast? hlast))
      | some v' =>
        rw [hfound, Option.some_or] at hv
        exact Option.some.inj hv ▸ List.mem_of_find?_eq_some hfound
    split_ifs at hm ⊢ with hstop
    · exact hfirst n hm
    · obtain ⟨p, -, hparsed, hnext⟩ := full_batch scanCursor hpos (not_or.mp (not_or.mp hstop).2).1
      rw [hparsed, Option.some_or, List.filter_append, List.take_append] at hm ⊢
      rw [List.getLast?_append] at hm
      refine List.mem_append.mpr ?_
      cases hlater : (((fetchedRows points keeps batchSize hpos (need - (batch.filter keeps).length) (some p.createdAt)
          (rawScanned + batch.length)).filter keeps).take (n - (batch.filter keeps).length)).getLast? with
      | none =>
        rw [hlater, Option.none_or] at hm
        exact .inl (hfirst n hm)
      | some m' =>
        rw [hlater, Option.some_or] at hm
        obtain rfl := Option.some.inj hm
        -- It is not above the batch's last time, and neither is `v`.
        have hmem := (exists_batch (List.mem_filter.mp (List.mem_of_mem_take (List.mem_of_getLast? hlater))).1).2
        obtain ⟨q, hq, hqm⟩ := List.mem_filterMap.mp hmem
        have hle : m'.createdAt ≤ p.createdAt := by
          rw [createdAt_of_parsePayload hqm]
          exact (mem_upTo.mp hq).2 _ rfl
        refine .inr (ih _ (by omega) hlater ?_ rfl)
        rw [← hnext, visibleOf_upTo, List.find?_filter, ← hv]
        congr 1
        funext x
        by_cases hx : x.createdAt ≤ m'.createdAt
        · simp [hx, hx.trans hle]
        · simp [hx]

/-- **The loop collects the visible ones of the fetched rows.** -/
theorem recentLoop_eq (keeps : Memory → Bool) (hpos : 0 < batchSize)
    {get : ℕ → Option ℚ → Except AlayaError (List Memory)}
    (hget : ∀ n start, get n start = .ok (((upTo Payload.createdAt start points).take n).filterMap parsePayload))
    (target : ℕ) (results : List Memory) (scanCursor : Option ℚ) (rawScanned : ℕ) :
    MemoryService.recentLoop get keeps target batchSize hpos results scanCursor rawScanned =
      .ok (results ++
        (fetchedRows points keeps batchSize hpos (target - results.length) scanCursor rawScanned).filter keeps) := by
  induction hn : maxRecentScanned - rawScanned using Nat.strongRecOn
    generalizing results scanCursor rawScanned with
  | ind n ih =>
    unfold MemoryService.recentLoop fetchedRows
    rw [hget]
    dsimp only
    set batch := ((upTo Payload.createdAt scanCursor points).take batchSize).filterMap parsePayload with hbatch
    rw [List.length_append]
    by_cases hstop : target - results.length ≤ (batch.filter keeps).length ∨ batch.length < batchSize ∨
        maxRecentScanned ≤ rawScanned + batch.length
    · rw [if_pos hstop, if_pos (by omega)]
    · rw [if_neg hstop, if_neg (by omega), ih _ (by omega) _ _ _ rfl, List.filter_append, List.append_assoc,
        List.length_append, Nat.sub_add_eq]

end

/-! ### The pages -/

/-- The page from a cursor shows these memories, and `next` is the cursor after it. -/
def RecentAt (getRecent : ℕ → Option ℚ → Option String → Except AlayaError (List Memory)) (params : SearchParams)
    (cursor : Option ℚ) (items : List Memory) (next : Option (Option ℚ)) : Prop :=
  ∃ r : RecentPage, MemoryService.searchRecent getRecent { params with cursor } = some (.ok r) ∧
    items = r.results.map ScoredMemory.memory ∧ next = if r.hasMore then some r.nextCursor else none

/-- The visible memories of the asked type, newest first. -/
def SearchParams.recentVisible (params : SearchParams) (stored : List Payload) : List Memory :=
  visibleOf (Visibility.showsNow params.includeSuperseded) (ofType params.memoryType stored)

/-- The visible memories that the batches of a page bring. -/
def SearchParams.recentSees (params : SearchParams) (stored : List Payload) (cursor : Option ℚ) : List Memory :=
  (fetchedRows (ofType params.memoryType stored) (Visibility.showsNow params.includeSuperseded)
    (MemoryService.recentBatchSize params.includeSuperseded (params.pageSize + 1))
    (MemoryService.recentBatchSize_pos _ (Nat.succ_pos _)) (params.pageSize + 1) cursor 0).filter
      (Visibility.showsNow params.includeSuperseded)

/-- The batches of the first page show the visible memories once. -/
def SearchParams.RecentCovered (params : SearchParams) (stored : List Payload) : Prop :=
  Covered (Visibility.showsNow params.includeSuperseded)
    (MemoryService.recentBatchSize params.includeSuperseded (params.pageSize + 1)) (ofType params.memoryType stored) 0

section

variable {scroll : OrderedScroll → Except AlayaError (List Payload)} {params : SearchParams} {stored : List Payload}

theorem getRecent_eq (hscroll : ScrollsByTime scroll stored) (n : ℕ) (start : Option ℚ) (memoryType : Option String) :
    getRecent scroll n start memoryType =
      .ok (((upTo Payload.createdAt start (ofType memoryType stored)).take n).filterMap parsePayload) := by
  unfold getRecent
  rw [hscroll.answers _ rfl rfl]
  rfl

/-- **What a page shows**: the first of the visible memories its batches bring. -/
theorem recentAt (params : SearchParams) (hfits : params.pageSize + 1 < usizeSize) (hscroll : ScrollsByTime scroll stored)
    (cursor : Option ℚ) :
    RecentAt (getRecent scroll) params cursor ((params.recentSees stored cursor).take params.pageSize)
      (if params.pageSize < (params.recentSees stored cursor).length then
        some (((params.recentSees stored cursor).take params.pageSize).getLast?.map Memory.createdAt) else none) := by
  have hloop := recentLoop_eq (Visibility.showsNow params.includeSuperseded)
    (MemoryService.recentBatchSize_pos params.includeSuperseded (Nat.succ_pos params.pageSize))
    (fun n start => getRecent_eq hscroll n start params.memoryType) (params.pageSize + 1) [] cursor 0
  unfold RecentAt MemoryService.searchRecent
  dsimp only
  rw [if_pos hfits]
  refine ⟨_, congrArg some (congrArg (· >>= _) hloop), ?_, ?_⟩
  · dsimp only
    rw [List.map_map]
    exact (List.map_id _).symm
  · simp only [decide_eq_true_eq]
    rfl

theorem RecentAt.fits {getRecent : ℕ → Option ℚ → Option String → Except AlayaError (List Memory)} {cursor : Option ℚ}
    {items : List Memory} {next : Option (Option ℚ)} (h : RecentAt getRecent params cursor items next) :
    params.pageSize + 1 < usizeSize := by
  obtain ⟨r, hr, -⟩ := h
  by_contra hlarge
  cases hr.symm.trans (if_neg hlarge)

theorem RecentAt.unique {getRecent : ℕ → Option ℚ → Option String → Except AlayaError (List Memory)} {cursor : Option ℚ}
    {items items' : List Memory} {next next' : Option (Option ℚ)} (h : RecentAt getRecent params cursor items next)
    (h' : RecentAt getRecent params cursor items' next') : items = items' ∧ next = next' := by
  obtain ⟨r, hr, rfl, rfl⟩ := h
  obtain ⟨r', hr', rfl, rfl⟩ := h'
  obtain rfl := Except.ok.inj (Option.some.inj (hr.symm.trans hr'))
  exact ⟨rfl, rfl⟩

/-- **A page is followed by one that begins with a memory of it.** -/
theorem repeats_of_next (hpage : 0 < params.pageSize) (hscroll : ScrollsByTime scroll stored) {cursor next : Option ℚ}
    {items : List Memory} (h : RecentAt (getRecent scroll) params cursor items (some next)) :
    ∃ m ∈ items, ∃ rest next', RecentAt (getRecent scroll) params next (m :: rest) next' := by
  have hfits := h.fits
  obtain ⟨rfl, hnext⟩ := h.unique (recentAt params hfits hscroll cursor)
  split_ifs at hnext with hmore
  obtain rfl := Option.some.inj hnext
  set keeps := Visibility.showsNow params.includeSuperseded with hkeeps
  set points := ofType params.memoryType stored with hpoints
  set batchSize := MemoryService.recentBatchSize params.includeSuperseded (params.pageSize + 1) with hsize
  have hsorted : points.Pairwise fun p q => q.createdAt ≤ p.createdAt := hscroll.newest.filter _
  obtain ⟨last, hlast⟩ : ∃ last, ((params.recentSees stored cursor).take params.pageSize).getLast? = some last := by
    refine ⟨_, List.getLast?_eq_some_getLast fun hnil => ?_⟩
    have hlength := congrArg List.length hnil
    rw [List.length_take, List.length_nil] at hlength
    omega
  rw [hlast, Option.map_some]
  -- The last memory of the page is in the first batch of the next one, ...
  obtain ⟨hbrought, hshown⟩ := List.mem_filter.mp (List.mem_of_mem_take (List.mem_of_getLast? hlast))
  obtain ⟨⟨c, hbatch⟩, hfrom⟩ := exists_batch hbrought
  obtain ⟨p, hp, hparsed⟩ := List.mem_filterMap.mp hbatch
  obtain ⟨q, hq, hparsed'⟩ := List.mem_filterMap.mp hfrom
  have hagain : p ∈ (upTo Payload.createdAt (some last.createdAt) points).take batchSize := by
    have hread := mem_take_upTo (pairwise_upTo hsorted c) hp
    rwa [upTo_upTo fun t ht => (mem_upTo.mp (List.mem_of_mem_take hp)).2 t ht, ← createdAt_of_parsePayload hparsed]
      at hread
  -- ... so that batch shows a first one, and this page has shown it.
  obtain ⟨v, front, hfront⟩ : ∃ v front,
      visibleOf keeps ((upTo Payload.createdAt (some last.createdAt) points).take batchSize) = v :: front :=
    List.exists_cons_of_ne_nil (List.ne_nil_of_mem (List.mem_filter.mpr ⟨List.mem_filterMap.mpr ⟨p, hagain, hparsed⟩, hshown⟩))
  have hfirst : (visibleOf keeps (upTo Payload.createdAt cursor points)).find? (fun m => m.createdAt ≤ last.createdAt) =
      some v := by
    rw [← List.head?_filter, ← visibleOf_upTo, upTo_upTo fun t ht => ?_, visibleOf_split keeps _ batchSize, hfront]
    · rfl
    · rw [createdAt_of_parsePayload hparsed']
      exact (mem_upTo.mp hq).2 t ht
  obtain ⟨rest, hrest⟩ : ∃ rest, params.recentSees stored (some last.createdAt) = v :: rest := by
    obtain ⟨later, hlater⟩ := batch_isPrefix points keeps
      (MemoryService.recentBatchSize_pos params.includeSuperseded (Nat.succ_pos params.pageSize)) (params.pageSize + 1)
      (some last.createdAt) 0
    refine ⟨front ++ later.filter keeps, ?_⟩
    unfold SearchParams.recentSees
    rw [← hlater, List.filter_append, ← List.cons_append, ← hfront]
    rfl
  have hpageNext := recentAt params hfits hscroll (some last.createdAt)
  obtain ⟨size, hsucc⟩ := Nat.exists_eq_succ_of_ne_zero hpage.ne'
  rw [hrest, hsucc, List.take_succ_cons] at hpageNext
  exact ⟨v, find?_mem_take hlast hfirst, _, _, hpageNext⟩

/-- Of memories with a hash each, the visible ones are different. -/
theorem nodup_recentVisible (params : SearchParams)
    (hdistinct : ((stored.filterMap parsePayload).map Memory.contentHash).Nodup) :
    (params.recentVisible stored).Nodup :=
  hdistinct.of_map.sublist (List.filter_sublist.trans (List.filter_sublist.filterMap _))

/-- The batches of the first page bring the visible memories once exactly if they are covered. -/
theorem recentSees_iff (hscroll : ScrollsByTime scroll stored)
    (hdistinct : ((stored.filterMap parsePayload).map Memory.contentHash).Nodup)
    (hfew : (params.recentVisible stored).length ≤ params.pageSize) :
    params.recentSees stored none = params.recentVisible stored ↔ params.RecentCovered stored := by
  have hsorted : (ofType params.memoryType stored).Pairwise fun p q => q.createdAt ≤ p.createdAt :=
    hscroll.newest.filter _
  have hiff := filter_fetchedRows_iff (Visibility.showsNow params.includeSuperseded)
    (MemoryService.recentBatchSize_pos params.includeSuperseded (Nat.succ_pos params.pageSize)) hsorted
    (params.pageSize + 1) none 0
  rw [upTo_none] at hiff
  exact hiff (Nat.lt_succ_of_le hfew) (nodup_recentVisible params hdistinct)

/-- **The pages show every visible memory once exactly if the first page does.** -/
theorem walk_recent_iff (hpage : 0 < params.pageSize) (hscroll : ScrollsByTime scroll stored)
    (hdistinct : ((stored.filterMap parsePayload).map Memory.contentHash).Nodup) :
    Walk (RecentAt (getRecent scroll) params) none (params.recentVisible stored) ↔
      params.pageSize + 1 < usizeSize ∧ (params.recentVisible stored).length ≤ params.pageSize ∧
        params.RecentCovered stored := by
  refine ⟨fun hwalk => ?_, ?_⟩
  · have hnodup := nodup_recentVisible params hdistinct
    generalize hall : params.recentVisible stored = all at hwalk
    cases hwalk with
    | last hlast =>
      have hfits := hlast.fits
      obtain ⟨hitems, hnone⟩ := hlast.unique (recentAt params hfits hscroll none)
      split_ifs at hnone with hmore
      rw [List.take_of_length_le (not_lt.mp hmore), ← hall] at hitems
      have hfew : (params.recentVisible stored).length ≤ params.pageSize := hitems ▸ not_lt.mp hmore
      exact ⟨hfits, hall ▸ hfew, (recentSees_iff hscroll hdistinct hfew).mp hitems.symm⟩
    | @next _ next items later hnext hlater =>
      -- The page after it begins with a memory of this one.
      obtain ⟨m, hm, rest, next', hpage'⟩ := repeats_of_next hpage hscroll hnext
      have hagain : m ∈ later := by
        cases hlater with
        | last hlast => exact (hlast.unique hpage').1 ▸ List.mem_cons_self
        | next hnext' _ => exact List.mem_append_left _ ((hnext'.unique hpage').1 ▸ List.mem_cons_self)
      exact absurd rfl ((List.nodup_append.mp (hall ▸ hnodup)).2.2 m hm m hagain)
  · rintro ⟨hfits, hfew, hcovered⟩
    have hfirst := recentAt params hfits hscroll none
    rw [(recentSees_iff hscroll hdistinct hfew).mpr hcovered, if_neg (not_lt.mpr hfew), List.take_of_length_le hfew]
      at hfirst
    exact .last hfirst

/-- **Recent paging.**  The pages show every visible memory once, newest first, exactly if the first page does: the
visible memories fit on it, and its batches cover them.  Every page with another one after it is followed by one that
begins with a memory of it. -/
theorem recent_paging (scroll : OrderedScroll → Except AlayaError (List Payload)) (params : SearchParams)
    (stored : List Payload) (hpage : 0 < params.pageSize) (hscroll : ScrollsByTime scroll stored)
    (hdistinct : ((stored.filterMap parsePayload).map Memory.contentHash).Nodup) :
    (Walk (RecentAt (getRecent scroll) params) none (params.recentVisible stored) ↔
      params.pageSize + 1 < usizeSize ∧ (params.recentVisible stored).length ≤ params.pageSize ∧
        params.RecentCovered stored) ∧
    ∀ cursor items next, RecentAt (getRecent scroll) params cursor items (some next) →
      ∃ m ∈ items, ∃ rest next', RecentAt (getRecent scroll) params next (m :: rest) next' := by
  exact ⟨walk_recent_iff hpage hscroll hdistinct, fun _ _ _ => repeats_of_next hpage hscroll⟩

end

/-! ### Five points, and two -/

namespace TwoLive

/-- A store that scrolls by time. -/
def scroll (stored : List Payload) (request : OrderedScroll) : Except AlayaError (List Payload) :=
  if request.orderBy.key = "created_at" ∧ request.orderBy.direction = "desc" then
    .ok ((upTo Payload.createdAt request.orderBy.startFrom
      (stored.filter fun p => request.filter.all fun c => c.holds p)).take request.limit)
  else .error (.storage "unknown order")

theorem scrollsByTime (stored : List Payload) (h : stored.Pairwise fun p q => q.createdAt ≤ p.createdAt) :
    ScrollsByTime (scroll stored) stored where
  newest := h
  answers _ hkey hdirection := if_pos ⟨hkey, hdirection⟩

/-- One memory to a page. -/
def params : SearchParams := { HiddenRun.params with pageSize := 1 }

def point (contentHash : String) (superseded : Bool) (createdAt : ℚ) : Payload :=
  memoryToPayload { HiddenRun.memory superseded with contentHash, createdAt }

/-- Four superseded memories, a batch of them, before a live one. -/
def behind : List Payload :=
  [point "e" true 5, point "d" true 4, point "c" true 3, point "b" true 2, point "a" false 1]

def stored : List Payload := [point "b" false 2, point "a" false 1]

end TwoLive

/-- The live memory is shown by the second batch, which begins with the last point of the first one again. -/
theorem recent_paging_behind : Walk (RecentAt (getRecent (TwoLive.scroll TwoLive.behind)) TwoLive.params) none
    (TwoLive.params.recentVisible TwoLive.behind) := by
  refine (recent_paging (TwoLive.scroll TwoLive.behind) TwoLive.params TwoLive.behind (by decide)
    (TwoLive.scrollsByTime _ (by decide +kernel)) (by decide +kernel)).1.mpr ⟨by decide, by decide +kernel, ?_⟩
  exact .next (by decide +kernel) (by decide) rfl (by decide +kernel) (.last (by decide +kernel) (by decide +kernel))

/-- Of two live memories the page after the first shows the newer one again. -/
theorem recent_paging_again :
    ¬ ∀ (scroll : OrderedScroll → Except AlayaError (List Payload)) (params : SearchParams) (stored : List Payload),
      0 < params.pageSize → params.pageSize + 1 < usizeSize → ScrollsByTime scroll stored →
      ((stored.filterMap parsePayload).map Memory.contentHash).Nodup →
        Walk (RecentAt (getRecent scroll) params) none (params.recentVisible stored) := by
  intro h
  have hscroll := TwoLive.scrollsByTime TwoLive.stored (by decide +kernel)
  have hdistinct : ((TwoLive.stored.filterMap parsePayload).map Memory.contentHash).Nodup := by decide +kernel
  have hwalk := h _ TwoLive.params _ (by decide) (by decide) hscroll hdistinct
  have hfew := ((walk_recent_iff (by decide) hscroll hdistinct).mp hwalk).2.1
  exact absurd hfew (by decide +kernel)

end Alaya
