import Alaya.Search.Tag
import Mathlib.Data.Nat.Digits.Defs

/-!
# Scan search

`searchScan` scrolls the store from the start on every page, at most a hundred points a scroll, until the
page is full.  The id of the next point, printed as JSON, is the cursor of the next scroll; there it is
sent as a JSON string, and an id that was printed is no id.  So a page either has all it needs from its
first scroll or fails.
-/

namespace Alaya

open Json Paging Rows

/-- The id of a point of the vector store, in the two shapes that store has. -/
inductive PointKey where
  | num (n : UInt64)
  | uuid (id : PointId)
  deriving DecidableEq

namespace PointKey

def toJson : PointKey → Value
  | num n => .number (.posInt n)
  | uuid id => .string id

/-- `Value::to_string`: a string is printed in its quotes. -/
def toText : PointKey → String
  | num n => toString n.toNat
  | uuid id => "\"" ++ id ++ "\""

end PointKey

/-- One answer of `get_all`. -/
structure ScrollResult where
  memories : List Memory
  nextOffset : Option String

/-- How the store answers a scroll: its memories, and the id of the next point.  A point that does not parse is left
out of the memories before this. -/
abbrev Scroll := ℕ → Option Value → Except AlayaError (List Memory × Option PointKey)

def getAll (scroll : Scroll) (limit : ℕ) (offset : Option String) : Except AlayaError ScrollResult :=
  (scroll limit (offset.map .string)).map fun (memories, next) => ⟨memories, next.map PointKey.toText⟩

def maxRawScanned : ℕ := 5000

def scrollPage : ℕ := 100

namespace MemoryService

/-- The memories of the scan that pass, and the cursor where it stopped. -/
def scanLoop (getAll : ℕ → Option String → Except AlayaError ScrollResult) (keeps : Memory → Bool)
    (target : ℕ) (filtered : List Memory) (cursor : Option String) (rawScanned : ℕ) :
    Except AlayaError (List Memory × Option String) :=
  match getAll (min scrollPage (target - filtered.length)) cursor with
  | .error e => .error e
  | .ok scroll =>
    let scanned := rawScanned + scroll.memories.length
    let kept := filtered ++ scroll.memories.filter keeps
    if h : scroll.memories.isEmpty ∨ scroll.nextOffset.isNone ∨ target ≤ kept.length ∨ maxRawScanned ≤ scanned then
      .ok (kept, scroll.nextOffset)
    else
      have : 0 < scroll.memories.length := List.length_pos_of_ne_nil fun hnil => h (.inl (by rw [hnil]; rfl))
      scanLoop getAll keeps target kept scroll.nextOffset scanned
termination_by maxRawScanned - rawScanned
decreasing_by omega

/-- What a scan shows. -/
def scanKeeps (params : SearchParams) (m : Memory) : Bool :=
  Visibility.showsNow params.includeSuperseded m && params.memoryType.all fun mt => m.memoryType = mt

/-- `search_scan`; `none` is an arithmetic overflow. -/
def searchScan (scroll : Scroll) (params : SearchParams) : Option (Except AlayaError SearchPage) :=
  let offset := (params.page - 1) * params.pageSize
  let target := offset + params.pageSize + 1
  if target < usizeSize then
    some do
      let (filtered, cursor) ← scanLoop (getAll scroll) (scanKeeps params) target [] none 0
      let page := (page offset params.pageSize filtered).map fun m => (⟨m, 1⟩ : ScoredMemory)
      return {
        page := params.page
        pageSize := params.pageSize
        count := page.length
        hasMore := offset + params.pageSize < filtered.length || cursor.isSome
        results := page }
  else none

end MemoryService

/-- The store scrolls its points in one order, from an id it is given or from the start, and refuses an
offset that is no point id.  Each of its points holds a memory that parses. -/
structure Scroll.InOrder (scroll : Scroll) (isUuid : String → Bool) (rows : List (PointKey × Memory)) :
    Prop where
  start : ∀ n, 0 < n → scroll n none = .ok ((rows.take n).map Prod.snd, (rows[n]?).map Prod.fst)
  onward : ∀ n i key, 0 < n → (rows[i]?).map Prod.fst = some key →
    scroll n (some key.toJson) = .ok (((rows.drop i).take n).map Prod.snd, (rows[i + n]?).map Prod.fst)
  refused : ∀ n text, isUuid text = false → ∃ e, scroll n (some (.string text)) = .error e

/-- The text of a UUID has at least its 32 digits, and no quote in front of it. -/
structure UuidText (isUuid : String → Bool) : Prop where
  short : ∀ text : String, text.length < 32 → isUuid text = false
  quoted : ∀ text : String, isUuid ("\"" ++ text) = false

section

variable {scroll : Scroll} {isUuid : String → Bool} {rows : List (PointKey × Memory)} {params : SearchParams}

/-- A printed id is no id. -/
theorem isUuid_toText (huuid : UuidText isUuid) (key : PointKey) : isUuid key.toText = false := by
  cases key with
  | num n =>
    refine huuid.short _ (Nat.lt_of_le_of_lt (Nat.repr_length n.toNat 20 (by decide) ?_) (by decide))
    exact Nat.lt_trans n.toNat_lt (by decide)
  | uuid id =>
    show isUuid ("\"" ++ id ++ "\"") = false
    rw [String.append_assoc]
    exact huuid.quoted _

/-- **Every cursor is refused.** -/
theorem cursor_refused (huuid : UuidText isUuid) (hscroll : scroll.InOrder isUuid rows) {n : ℕ}
    {offset : Option String} {r : ScrollResult} {cursor : String} (h : getAll scroll n offset = .ok r)
    (hcursor : r.nextOffset = some cursor) (limit : ℕ) : ∃ e, getAll scroll limit (some cursor) = .error e := by
  unfold getAll at h
  cases hanswer : scroll n (offset.map .string) with
  | error e =>
    rw [hanswer] at h
    cases h
  | ok answer =>
    rw [hanswer] at h
    obtain rfl := Except.ok.inj h
    obtain ⟨key, -, rfl⟩ := Option.map_eq_some_iff.mp hcursor
    obtain ⟨e, he⟩ := hscroll.refused limit key.toText (isUuid_toText huuid key)
    exact ⟨e, congrArg (Except.map _) he⟩

/-- The memories of the store, in its order. -/
def memoriesOf (rows : List (PointKey × Memory)) : List Memory := rows.map Prod.snd

theorem getAll_start (hscroll : scroll.InOrder isUuid rows) {n : ℕ} (hn : 0 < n) :
    getAll scroll n none =
      .ok ⟨(memoriesOf rows).take n, ((rows[n]?).map Prod.fst).map PointKey.toText⟩ := by
  unfold getAll memoriesOf
  rw [Option.map_none, hscroll.start n hn, ← List.map_take]
  rfl

variable {target : ℕ}

/-- A scan whose first scroll has the whole store. -/
theorem scanLoop_of_le (keeps : Memory → Bool) (hscroll : scroll.InOrder isUuid rows) (htarget : 0 < target)
    (hall : rows.length ≤ min scrollPage target) :
    MemoryService.scanLoop (getAll scroll) keeps target [] none 0 =
      .ok ((memoriesOf rows).filter keeps, none) := by
  have hpos : 0 < min scrollPage target := by
    rw [Nat.lt_min]
    exact ⟨by decide, htarget⟩
  have htake : (memoriesOf rows).take (min scrollPage target) = memoriesOf rows :=
    List.take_of_length_le (by rwa [memoriesOf, List.length_map])
  have hfirst := getAll_start hscroll hpos
  rw [htake, List.getElem?_eq_none hall] at hfirst
  unfold MemoryService.scanLoop
  rw [List.length_nil, Nat.sub_zero, hfirst]
  exact dif_pos (.inr (.inl rfl))

/-- The first scroll of a larger store has another point after it. -/
theorem getAll_of_lt (hscroll : scroll.InOrder isUuid rows) (htarget : 0 < target)
    (hmore : min scrollPage target < rows.length) :
    ∃ cursor, getAll scroll (min scrollPage target) none =
      .ok ⟨(memoriesOf rows).take (min scrollPage target), some cursor⟩ := by
  have hpos : 0 < min scrollPage target := by
    rw [Nat.lt_min]
    exact ⟨by decide, htarget⟩
  refine ⟨rows[min scrollPage target].1.toText, ?_⟩
  rw [getAll_start hscroll hpos, List.getElem?_eq_getElem hmore]
  rfl

/-- A scan whose first scroll fills the page. -/
theorem scanLoop_full (keeps : Memory → Bool) (hscroll : scroll.InOrder isUuid rows) (htarget : 0 < target)
    (hmore : min scrollPage target < rows.length)
    (hfull : target ≤ (((memoriesOf rows).take (min scrollPage target)).filter keeps).length) :
    ∃ cursor, MemoryService.scanLoop (getAll scroll) keeps target [] none 0 =
      .ok (((memoriesOf rows).take (min scrollPage target)).filter keeps, some cursor) := by
  obtain ⟨cursor, hfirst⟩ := getAll_of_lt hscroll htarget hmore
  refine ⟨cursor, ?_⟩
  unfold MemoryService.scanLoop
  rw [List.length_nil, Nat.sub_zero, hfirst]
  exact dif_pos (.inr (.inr (.inl hfull)))

/-- **A scan that needs a second scroll fails.** -/
theorem scanLoop_stuck (keeps : Memory → Bool) (huuid : UuidText isUuid) (hscroll : scroll.InOrder isUuid rows) (htarget : 0 < target)
    (hmore : min scrollPage target < rows.length)
    (hshort : (((memoriesOf rows).take (min scrollPage target)).filter keeps).length < target) :
    ∃ e, MemoryService.scanLoop (getAll scroll) keeps target [] none 0 = .error e := by
  obtain ⟨cursor, hfirst⟩ := getAll_of_lt hscroll htarget hmore
  have hlength : ((memoriesOf rows).take (min scrollPage target)).length = min scrollPage target := by
    rw [List.length_take, memoriesOf, List.length_map]
    omega
  have hpos : 0 < min scrollPage target := by
    rw [Nat.lt_min]
    exact ⟨by decide, htarget⟩
  have hcap : min scrollPage target < maxRawScanned := Nat.lt_of_le_of_lt (min_le_left _ _) (by decide)
  obtain ⟨e, he⟩ := cursor_refused huuid hscroll hfirst rfl
    (min scrollPage (target - (((memoriesOf rows).take (min scrollPage target)).filter keeps).length))
  refine ⟨e, ?_⟩
  unfold MemoryService.scanLoop
  rw [List.length_nil, Nat.sub_zero, hfirst]
  dsimp only
  rw [dif_neg]
  · unfold MemoryService.scanLoop
    rw [List.nil_append, he]
  · rintro (hempty | hnone | hfull | hscanned)
    · rw [List.isEmpty_iff.mp hempty, List.length_nil] at hlength
      omega
    · cases hnone
    · rw [List.nil_append] at hfull
      omega
    · omega

/-- Page `page` shows these memories, and `next` is the page after it. -/
def ScanAt (scroll : Scroll) (params : SearchParams) (page : ℕ) (items : List Memory) (next : Option ℕ) : Prop :=
  ∃ r : SearchPage, MemoryService.searchScan scroll { params with page } = some (.ok r) ∧
    items = r.results.map ScoredMemory.memory ∧ next = if r.hasMore then some (page + 1) else none

/-- The memories that pass, in the order of the store. -/
def SearchParams.scanKept (params : SearchParams) (rows : List (PointKey × Memory)) : List Memory :=
  (memoriesOf rows).filter (MemoryService.scanKeeps params)

/-- No page needs a second scroll: the store fits in one, and before a page that does not see its end
every memory passes. -/
structure ScanFits (params : SearchParams) (rows : List (PointKey × Memory)) : Prop where
  fits : params.pageSize + 1 < usizeSize
  small : rows.length ≤ scrollPage
  pass : ∀ page, 1 ≤ page → page * params.pageSize + 1 < rows.length →
    ∀ m ∈ (memoriesOf rows).take (page * params.pageSize + 1), MemoryService.scanKeeps params m = true

/-- A page that the first scroll serves. -/
theorem scanAt_of_pass (hscroll : scroll.InOrder isUuid rows) (hsmall : rows.length ≤ scrollPage) {p : ℕ}
    (hp : 1 ≤ p) (hfits : p * params.pageSize + 1 < usizeSize)
    (hpass : p * params.pageSize + 1 < rows.length →
      ∀ m ∈ (memoriesOf rows).take (p * params.pageSize + 1), MemoryService.scanKeeps params m = true) :
    ScanAt scroll params p (page ((p - 1) * params.pageSize) params.pageSize (params.scanKept rows))
      (if decide (p * params.pageSize < (params.scanKept rows).length) then some (p + 1) else none) := by
  have hsucc := pred_mul_add params.pageSize hp
  unfold ScanAt MemoryService.searchScan
  dsimp only
  rw [hsucc, if_pos hfits]
  have hmap : ∀ ms : List Memory, (ms.map fun m => (⟨m, 1⟩ : ScoredMemory)).map ScoredMemory.memory = ms := by
    intro ms
    rw [List.map_map]
    exact List.map_id ms
  have hlength : (memoriesOf rows).length = rows.length := List.length_map _
  rcases Nat.lt_or_ge (p * params.pageSize + 1) rows.length with hlt | hge
  · -- The first scroll fills the page.
    have hmin : min scrollPage (p * params.pageSize + 1) = p * params.pageSize + 1 := by omega
    have hall := List.filter_eq_self.mpr (hpass hlt)
    have hstart : (memoriesOf rows).take (p * params.pageSize + 1) <+: params.scanKept rows := by
      rw [← hall]
      obtain ⟨rest, hrest⟩ := List.take_prefix (p * params.pageSize + 1) (memoriesOf rows)
      exact (List.prefix_append _ rest).filter _ |>.trans (by rw [hrest]; exact List.prefix_refl _)
    have htake : ((memoriesOf rows).take (p * params.pageSize + 1)).length = p * params.pageSize + 1 := by
      rw [List.length_take]
      omega
    have hle := hstart.length_le
    obtain ⟨cursor, hloop⟩ := scanLoop_full (MemoryService.scanKeeps params) hscroll
      (Nat.succ_pos (p * params.pageSize)) (by omega) (by rw [hmin, hall, htake])
    rw [hmin, hall] at hloop
    refine ⟨_, congrArg some (congrArg (· >>= _) hloop), ?_, ?_⟩
    · dsimp only
      rw [hmap]
      exact ((page_eq_iff hstart).mpr (by omega)).symm
    · rw [if_pos (by rw [decide_eq_true_eq]; omega)]
      exact (if_pos (Bool.or_true _)).symm
  · have hloop := scanLoop_of_le (MemoryService.scanKeeps params) hscroll
      (Nat.succ_pos (p * params.pageSize)) (by omega)
    refine ⟨_, congrArg some (congrArg (· >>= _) hloop), (hmap _).symm, ?_⟩
    show _ = if (decide (p * params.pageSize < (params.scanKept rows).length) || false) = true then _ else _
    rw [Bool.or_false]

/-- **What a page that comes back says of the store.**  The first scroll saw all of it, or filled the
page. -/
theorem ScanAt.fits (huuid : UuidText isUuid) (hscroll : scroll.InOrder isUuid rows) {p : ℕ} (hp : 1 ≤ p)
    {items : List Memory} {next : Option ℕ} (h : ScanAt scroll params p items next) :
    p * params.pageSize + 1 < usizeSize ∧
      (p * params.pageSize + 1 < rows.length →
        ∀ m ∈ (memoriesOf rows).take (p * params.pageSize + 1), MemoryService.scanKeeps params m = true) ∧
      (next = none → rows.length ≤ scrollPage ∧ rows.length ≤ p * params.pageSize + 1) := by
  have hsucc := pred_mul_add params.pageSize hp
  have hlength : (memoriesOf rows).length = rows.length := List.length_map _
  obtain ⟨r, hr, -, rfl⟩ := h
  unfold MemoryService.searchScan at hr
  dsimp only at hr
  rw [hsucc] at hr
  split at hr
  swap
  · cases hr
  next hfits =>
    refine ⟨hfits, ?_⟩
    obtain ⟨⟨filtered, cursor⟩, hscan, hret⟩ := bind_eq_ok.mp (Option.some.inj hr)
    obtain rfl := Except.ok.inj hret
    rcases Nat.lt_or_ge (min scrollPage (p * params.pageSize + 1)) rows.length with hlt | hge
    · -- Where a second scroll is needed the page does not come back.
      rcases Nat.lt_or_ge (((memoriesOf rows).take (min scrollPage (p * params.pageSize + 1))).filter
          (MemoryService.scanKeeps params)).length (p * params.pageSize + 1) with hshort | hfull
      · obtain ⟨e, he⟩ := scanLoop_stuck (MemoryService.scanKeeps params) huuid hscroll
          (Nat.succ_pos (p * params.pageSize)) hlt hshort
        cases he.symm.trans hscan
      · obtain ⟨_, hloop⟩ := scanLoop_full (MemoryService.scanKeeps params) hscroll
          (Nat.succ_pos (p * params.pageSize)) hlt hfull
        obtain ⟨rfl, rfl⟩ := Prod.mk.inj (Except.ok.inj (hloop.symm.trans hscan))
        have hfilter := List.length_filter_le (MemoryService.scanKeeps params)
          ((memoriesOf rows).take (min scrollPage (p * params.pageSize + 1)))
        rw [List.length_take] at hfilter
        have hmin : min scrollPage (p * params.pageSize + 1) = p * params.pageSize + 1 := by omega
        rw [hmin] at hfull hfilter
        refine ⟨fun _ => ?_, fun hnext => ?_⟩
        · refine List.length_filter_eq_length_iff.mp ?_
          rw [List.length_take]
          omega
        · cases (if_pos (Bool.or_true _)).symm.trans hnext
    · refine ⟨fun hlt => ?_, fun _ => ?_⟩ <;> omega

/-- A walk that ends has met no page that needs a second scroll. -/
theorem walk_scan_fits (huuid : UuidText isUuid) (hscroll : scroll.InOrder isUuid rows) {p : ℕ} (hp : 1 ≤ p)
    {items : List Memory} (h : Walk (ScanAt scroll params) p items) :
    p * params.pageSize + 1 < usizeSize ∧ rows.length ≤ scrollPage ∧
      ∀ q, p ≤ q → q * params.pageSize + 1 < rows.length →
        ∀ m ∈ (memoriesOf rows).take (q * params.pageSize + 1), MemoryService.scanKeeps params m = true := by
  induction h with
  | @last p _ hlast =>
    obtain ⟨hfits, -, hend⟩ := hlast.fits huuid hscroll hp
    obtain ⟨hsmall, hle⟩ := hend rfl
    refine ⟨hfits, hsmall, fun q hq hlt => ?_⟩
    have hmul : p * params.pageSize ≤ q * params.pageSize := Nat.mul_le_mul_right _ hq
    omega
  | @next p p' _ _ hnext _ ih =>
    obtain ⟨hfits, hpass, -⟩ := hnext.fits huuid hscroll hp
    obtain rfl : p' = p + 1 := by
      obtain ⟨r, -, -, hr⟩ := hnext
      split at hr
      · exact Option.some.inj hr
      · cases hr
    obtain ⟨-, hsmall, hrest⟩ := ih (by omega)
    refine ⟨hfits, hsmall, fun q hq => ?_⟩
    rcases Nat.eq_or_lt_of_le hq with rfl | hlt
    · exact hpass
    · exact hrest q hlt

/-- **Walking the pages of a scan** shows every memory that passes, once and in order, if no page needs a
second scroll. -/
theorem walk_scan (hscroll : scroll.InOrder isUuid rows) (hpage : 0 < params.pageSize)
    (h : ScanFits params rows) : Walk (ScanAt scroll params) 1 (params.scanKept rows) := by
  have hkept : (params.scanKept rows).length ≤ rows.length := by
    have hfilter := List.length_filter_le (MemoryService.scanKeeps params) (memoriesOf rows)
    rwa [memoriesOf, List.length_map] at hfilter
  have hsmall : 2 * scrollPage + 1 < usizeSize := by decide
  have hfetch : ∀ p, 1 ≤ p → (p - 1) * params.pageSize < (params.scanKept rows).length ∨ p = 1 →
      ScanAt scroll params p (page ((p - 1) * params.pageSize) params.pageSize (params.scanKept rows))
        (if decide (p * params.pageSize < (params.scanKept rows).length) then some (p + 1) else none) := by
    intro p hp hreached
    refine scanAt_of_pass hscroll h.small hp ?_ (h.pass p hp)
    rcases hreached with hlt | rfl
    · rcases Nat.eq_or_lt_of_le hp with rfl | hlt'
      · rw [Nat.one_mul]
        exact h.fits
      · have hsucc := pred_mul_add params.pageSize hp
        have hone : 1 * params.pageSize ≤ (p - 1) * params.pageSize := Nat.mul_le_mul_right _ (by omega)
        have hscroll := h.small
        omega
    · rw [Nat.one_mul]
      exact h.fits
  obtain ⟨items, hwalk, -, hiff⟩ := walk_reaches hpage (fun _ => List.prefix_refl (params.scanKept rows))
    (fun p hmore => of_decide_eq_true hmore)
    (fun p _ hmore => ⟨rfl, not_lt.mp (of_decide_eq_false hmore)⟩) hfetch 1 (.inr rfl) le_rfl
  rw [Nat.sub_self, Nat.zero_mul, List.drop_zero] at hiff
  rwa [hiff.mpr fun q _ => (min_le_left _ _).trans (le_max_left _ _)] at hwalk

theorem walk_scan_iff (huuid : UuidText isUuid) (hscroll : scroll.InOrder isUuid rows)
    (hpage : 0 < params.pageSize) :
    Walk (ScanAt scroll params) 1 (params.scanKept rows) ↔ ScanFits params rows := by
  refine ⟨fun hwalk => ?_, walk_scan hscroll hpage⟩
  obtain ⟨hfits, hsmall, hpass⟩ := walk_scan_fits huuid hscroll le_rfl hwalk
  rw [Nat.one_mul] at hfits
  exact ⟨hfits, hsmall, hpass⟩

/-- The cursors of the scrolls from the start can be used exactly if there are none. -/
theorem cursors_usable_iff (huuid : UuidText isUuid) (hscroll : scroll.InOrder isUuid rows) :
    (∀ n r cursor, 0 < n → getAll scroll n none = .ok r → r.nextOffset = some cursor →
      ∃ r', getAll scroll 1 (some cursor) = .ok r') ↔ rows.length ≤ 1 := by
  constructor
  · intro h
    by_contra hlt
    have hfirst := getAll_start hscroll Nat.zero_lt_one
    rw [List.getElem?_eq_getElem (not_le.mp hlt)] at hfirst
    obtain ⟨r', hr'⟩ := h 1 _ _ Nat.zero_lt_one hfirst rfl
    obtain ⟨e, he⟩ := cursor_refused huuid hscroll hfirst rfl 1
    cases he.symm.trans hr'
  · intro hle n r cursor hn hr hcursor
    rw [getAll_start hscroll hn, List.getElem?_eq_none (hle.trans hn)] at hr
    obtain rfl := Except.ok.inj hr
    cases hcursor

/-- **Scan paging.**  Every cursor is refused, so the cursors of a store can be used exactly if it has no
second point; and the walk of the pages ends and shows every memory that passes, once and in order,
exactly if no page needs a second scroll. -/
theorem scan_paging (scroll : Scroll) (isUuid : String → Bool) (rows : List (PointKey × Memory))
    (params : SearchParams) (huuid : UuidText isUuid) (hscroll : scroll.InOrder isUuid rows)
    (hpage : 0 < params.pageSize) :
    (Walk (ScanAt scroll params) 1 (params.scanKept rows) ↔ ScanFits params rows) ∧
      ((∀ n r cursor, 0 < n → getAll scroll n none = .ok r → r.nextOffset = some cursor →
        ∃ r', getAll scroll 1 (some cursor) = .ok r') ↔ rows.length ≤ 1) ∧
      ∀ n offset r cursor, getAll scroll n offset = .ok r → r.nextOffset = some cursor →
        ∀ limit, ∃ e, getAll scroll limit (some cursor) = .error e :=
  ⟨walk_scan_iff huuid hscroll hpage, cursors_usable_iff huuid hscroll,
    fun _ _ _ _ h hcursor => cursor_refused huuid hscroll h hcursor⟩

end

/-! ### A store of three points -/

namespace ThreePoints

/-- The texts that are as long as a UUID and start like one. -/
def isUuid (text : String) : Bool := 32 ≤ text.length && text.toList.head? ≠ some '"'

theorem uuidText : UuidText isUuid where
  short text h := by
    rw [isUuid, Bool.and_eq_false_iff, decide_eq_false_iff_not]
    exact .inl (not_le.mpr h)
  quoted text := by
    simp [isUuid]

/-- A superseded memory and two live ones, with integer ids. -/
def rows : List (PointKey × Memory) :=
  [(.num 1, HiddenRun.memory true), (.num 2, HiddenRun.memory false), (.num 3, HiddenRun.memory false)]

/-- A store that scrolls them in order. -/
def scroll : Scroll
  | n, none => .ok ((rows.take n).map Prod.snd, (rows[n]?).map Prod.fst)
  | n, some (.number (.posInt 1)) => .ok ((rows.take n).map Prod.snd, (rows[n]?).map Prod.fst)
  | n, some (.number (.posInt 2)) => .ok (((rows.drop 1).take n).map Prod.snd, (rows[1 + n]?).map Prod.fst)
  | n, some (.number (.posInt 3)) => .ok (((rows.drop 2).take n).map Prod.snd, (rows[2 + n]?).map Prod.fst)
  | _, some _ => .error (.storage "not a valid point id")

theorem inOrder : scroll.InOrder isUuid rows where
  start _ _ := rfl
  onward n i key _ hkey := by
    match i with
    | 0 =>
      obtain rfl := Option.some.inj hkey
      show scroll n _ = .ok (((rows.drop 0).take n).map Prod.snd, (rows[0 + n]?).map Prod.fst)
      rw [Nat.zero_add]
      rfl
    | 1 | 2 =>
      obtain rfl := Option.some.inj hkey
      rfl
    | i + 3 => cases hkey
  refused _ _ _ := ⟨_, rfl⟩

/-- All memories, one to a page. -/
def params : SearchParams := { HiddenRun.params with pageSize := 1, includeSuperseded := true }

end ThreePoints

/-- Three memories that pass are shown, one to a page. -/
theorem scan_paging_three :
    Walk (ScanAt ThreePoints.scroll ThreePoints.params) 1 (ThreePoints.params.scanKept ThreePoints.rows) := by
  refine (scan_paging ThreePoints.scroll ThreePoints.isUuid ThreePoints.rows ThreePoints.params
    ThreePoints.uuidText ThreePoints.inOrder (by decide)).1.mpr ⟨by decide, by decide, fun p _ _ m hm => ?_⟩
  have hall : ∀ m ∈ memoriesOf ThreePoints.rows, MemoryService.scanKeeps ThreePoints.params m = true := by decide
  exact hall m (List.mem_of_mem_take hm)

/-- With the superseded memory left out, the first page of one memory needs a second scroll, and that is
refused. -/
theorem scan_paging_refused :
    ¬ ∀ (scroll : Scroll) (isUuid : String → Bool) (rows : List (PointKey × Memory)) (params : SearchParams),
      UuidText isUuid → scroll.InOrder isUuid rows → 0 < params.pageSize →
        Walk (ScanAt scroll params) 1 (params.scanKept rows) := by
  intro h
  have hwalk := h ThreePoints.scroll ThreePoints.isUuid ThreePoints.rows
    { ThreePoints.params with includeSuperseded := false } ThreePoints.uuidText ThreePoints.inOrder (by decide)
  have hfits := (walk_scan_iff ThreePoints.uuidText ThreePoints.inOrder (by decide)).mp hwalk
  exact absurd (hfits.pass 1 le_rfl (by decide)) (by decide)

end Alaya
