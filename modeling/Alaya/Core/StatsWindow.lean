import Alaya.Backends.Points
import Alaya.Core.Calendar
import Alaya.Core.Stats
import Alaya.Lib.Grid
import Alaya.Types.Float

/-!
# The days of the statistics

Two series of the statistics have a row for each of the last fourteen UTC days: the writes by how near
they came to a stored memory, and the contradictions by the verdict they were given.  Three places compare
a time with the window: the query of the vector store and the query of the graph with its lower bound, and
the service, which finds the day of what the two answer.

The series are grids filled from zero, so what they hold in all is what fell into the window.
-/

namespace Alaya

open Rows Json

/-! ### Days -/

def daySecs : ℚ := 86400

/-- The UTC days in a series, today included. -/
def statsWindowDays : ℤ := 14

/-- `as i64`, of a whole number: what does not fit becomes the nearest that does. -/
def asI64 (n : ℤ) : ℤ := max (-2 ^ 63) (min n (2 ^ 63 - 1))

/-- The day of a time, as the service finds it. -/
def dayOf (secs : ℚ) : ℤ := asI64 ⌊secs / daySecs⌋

/-- `toInteger(floor(secs / 86400))`, the day as the graph's query finds it. -/
def queryDay (secs : ℚ) : ℤ := ⌊secs / 86400⌋

/-- What the clock says: the seconds of a `Duration`, which has a `u64` of whole seconds. -/
structure ClockReading where
  secs : ℚ
  nonneg : 0 ≤ secs
  le : secs ≤ 2 ^ 64

/-- The first day of the window at a time. -/
def firstDay (now : ℚ) : ℤ := dayOf now - (statsWindowDays - 1)

/-- The lower bound both queries are given. -/
def windowSince (now : ℚ) : ℚ := firstDay now * daySecs

/-- `first..=last`. -/
def dayRange (first last : ℤ) : List ℤ := (List.range (last + 1 - first).toNat).map fun i : ℕ => first + i

/-! ### Dates -/

/-- A day's counts, in a series. -/
structure DayCounts where
  date : String
  counts : List (String × ℕ)
  deriving DecidableEq

/-- The first second of a day that has a date. -/
def epochSecs (day : ℤ) : Option ℕ :=
  if 0 ≤ day ∧ day * 86400 < 2 ^ 64 then some (day.toNat * 86400) else none

/-- A series with its dates; a day without one is left out. -/
def dated (perDay : List (ℤ × List (String × ℕ))) : List DayCounts :=
  perDay.filterMap fun row => (epochSecs row.1).map fun secs => ⟨utcDateStr secs, row.2⟩

/-! ### Writes by novelty -/

/-- A literal of the source: the double nearest to what is written. -/
def literal (x : ℚ) : ℚ := (toDouble x).getD x

/-- The bands of similarity with their floors, highest first; the last has no floor. -/
def noveltyBands : List (String × WithBot ℚ) :=
  [("0.95+", literal (95 / 100)), ("0.85-0.95", literal (85 / 100)), ("0.70-0.85", literal (70 / 100)),
    ("below_0.70", ⊥)]

/-- The key of a write without a similarity. -/
def noNovelty : String := "none"

def noveltyKeys : List String := noveltyBands.map Prod.fst ++ [noNovelty]

def noveltyBucket (nearestSimilarity : Option ℚ) : String :=
  match nearestSimilarity with
  | none => noNovelty
  | some s => ((noveltyBands.find? fun band => decide (band.2 ≤ (s : WithBot ℚ))).map Prod.fst).getD noNovelty

/-- Each day's writes by band, from zero. -/
def noveltyPerDay (rows : List (ℚ × Option ℚ)) (first today : ℤ) : List DayCounts :=
  dated (rows.foldl (Grid.countItem (fun row => some (dayOf row.1, noveltyBucket row.2)) fun _ => 1)
    (Grid.ofCounts (dayRange first today) noveltyKeys fun _ _ => 0))

/-- The time a stored point was created, where its payload has one. -/
def createdAt? (p : Payload) : Option ℚ := (p.get "created_at").bind Value.asF64

/-- `{"key": "created_at", "range": {"gte": since}}`. -/
def createdSince (since : ℚ) (p : Payload) : Bool := (createdAt? p).any fun t => since ≤ t

/-- What the service reads of a point: nothing without the time it was created. -/
def noveltyRow (p : Payload) : Option (ℚ × Option ℚ) :=
  (createdAt? p).map fun t => (t, (p.get "nearest_similarity").bind Value.asF64)

/-- The rows of `write_novelty`, page by page. -/
def writeNovelty (pages : List (List Payload)) : List (ℚ × Option ℚ) :=
  pages.flatMap fun page => page.filterMap noveltyRow

/-! ### Contradictions by verdict -/

/-- What the query reads of a CONTRADICTS edge: a verdict may be any text. -/
structure JudgedEdge where
  judgedAt : Option ℚ
  verdict : Option String

/-- The edges of a graph as the query reads them. -/
def Graph.judgedEdges (g : Graph) : List JudgedEdge :=
  g.matchContradicts.map fun p => ⟨p.e.judgement.judgedAt, p.verdict⟩

/-- The keys `contradiction_stats_judged_per_day` counts by; a comparison with NULL is not true. -/
def contradictionStatsJudgedPerDay (since : ℚ) (edges : List JudgedEdge) : List (ℤ × Option String) :=
  edges.filterMap fun e =>
    match e.judgedAt with
    | some t => if since ≤ t then some (queryDay t, e.verdict) else none
    | none => none

/-- A day's count of a verdict. -/
structure DayTally where
  day : ℤ
  verdict : Option String
  count : ℕ

/-- A row of the query. -/
def dayTally (row : (ℤ × Option String) × ℕ) : DayTally := ⟨row.1.1, row.1.2, row.2⟩

/-- The series of the verdicts, from zero; a row outside the window or without a verdict the report knows
is left out. -/
def judgedPerDay (tallies : List DayTally) (first today : ℤ) : List DayCounts :=
  dated (tallies.foldl
    (Grid.countItem (fun t => (verdictKey t.verdict).map fun key => (t.day, key)) DayTally.count)
    (Grid.ofCounts (dayRange first today) (Verdict.all.map Verdict.asStr) fun _ _ => 0))

/-- What a series counts in all. -/
def seriesTotal (series : List DayCounts) : ℕ := (series.map fun row => (row.counts.map Prod.snd).sum).sum

/-! ### The window

Both bounds of the window are midnights, so a time is between them exactly if its day is one of the
fourteen, whichever of the two finds the day.
-/

/-- The end of the window: the midnight after the day of the clock. -/
def windowUntil (now : ℚ) : ℚ := (dayOf now + 1) * daySecs

/-- A time between the bounds of the window. -/
def InWindow (now secs : ℚ) : Prop := windowSince now ≤ secs ∧ secs < windowUntil now

instance (now secs : ℚ) : Decidable (InWindow now secs) := inferInstanceAs (Decidable (_ ∧ _))

theorem daySecs_pos : 0 < daySecs := by decide +kernel

theorem le_queryDay {d : ℤ} {secs : ℚ} : d ≤ queryDay secs ↔ d * daySecs ≤ secs := by
  show d ≤ ⌊secs / daySecs⌋ ↔ _
  rw [Int.le_floor, le_div_iff₀ daySecs_pos]

theorem queryDay_le {d : ℤ} {secs : ℚ} : queryDay secs ≤ d ↔ secs < (d + 1) * daySecs := by
  rw [← not_lt, ← Int.add_one_le_iff, le_queryDay, not_le]
  push_cast
  rfl

/-- Away from the ends of an `i64`, both find the same day. -/
theorem dayOf_eq_iff {d : ℤ} (hmin : -2 ^ 63 < d) (hmax : d < 2 ^ 63 - 1) {secs : ℚ} :
    dayOf secs = d ↔ queryDay secs = d := by
  show asI64 (queryDay secs) = d ↔ _
  unfold asI64
  omega

theorem mem_dayRange {first last d : ℤ} : d ∈ dayRange first last ↔ first ≤ d ∧ d ≤ last := by
  unfold dayRange
  rw [List.mem_map]
  constructor
  · rintro ⟨i, hi, rfl⟩
    have hlt := List.mem_range.mp hi
    omega
  · intro h
    exact ⟨(d - first).toNat, List.mem_range.mpr (by omega), by omega⟩

theorem nodup_dayRange (first last : ℤ) : (dayRange first last).Nodup := by
  refine List.nodup_range.map fun i j h => ?_
  have hcast : (i : ℤ) = j := Int.add_left_cancel h
  exact_mod_cast hcast

namespace ClockReading

variable (now : ClockReading)

/-- Fourteen days after the epoch, every day of the window is one of an `i64`, and has a date. -/
theorem today_bounds (h : statsWindowDays * daySecs ≤ now.secs) :
    dayOf now.secs = queryDay now.secs ∧ 14 ≤ dayOf now.secs ∧ dayOf now.secs * 86400 < 2 ^ 64 := by
  have hlow : 14 ≤ queryDay now.secs := le_queryDay.mpr h
  have hhigh : queryDay now.secs ≤ 213503982334601 := by
    rw [queryDay_le]
    exact lt_of_le_of_lt now.le (by decide +kernel)
  have hday : dayOf now.secs = queryDay now.secs := by
    rw [dayOf_eq_iff (by omega) (by omega)]
  rw [hday]
  exact ⟨rfl, hlow, by omega⟩

theorem mem_window {d : ℤ} : d ∈ dayRange (firstDay now.secs) (dayOf now.secs) ↔
    dayOf now.secs - 13 ≤ d ∧ d ≤ dayOf now.secs :=
  mem_dayRange

theorem length_window :
    (dayRange (firstDay now.secs) (dayOf now.secs)).length = statsWindowDays := by
  rw [dayRange, List.length_map, List.length_range, firstDay]
  unfold statsWindowDays
  omega

/-- The day the query finds is in the window exactly if the time is. -/
theorem queryDay_mem {secs : ℚ} :
    queryDay secs ∈ dayRange (firstDay now.secs) (dayOf now.secs) ↔ InWindow now.secs secs := by
  rw [mem_dayRange, le_queryDay, queryDay_le]
  rfl

/-- So is the day the service finds. -/
theorem dayOf_mem (h : statsWindowDays * daySecs ≤ now.secs) {secs : ℚ} :
    dayOf secs ∈ dayRange (firstDay now.secs) (dayOf now.secs) ↔ InWindow now.secs secs := by
  obtain ⟨-, hlow, hhigh⟩ := now.today_bounds h
  rw [← now.queryDay_mem]
  constructor <;> intro hmem
  · obtain ⟨hfirst, hlast⟩ := now.mem_window.mp hmem
    rwa [← (dayOf_eq_iff (d := dayOf secs) (by omega) (by omega)).mp rfl] at hmem
  · obtain ⟨hfirst, hlast⟩ := now.mem_window.mp hmem
    rwa [(dayOf_eq_iff (d := queryDay secs) (by omega) (by omega)).mpr rfl]

/-- A grid of the days of the window keeps every row when it is dated. -/
theorem dated_ofCounts (h : statsWindowDays * daySecs ≤ now.secs) (keys : List String)
    (c : ℤ → String → ℕ) :
    dated (Grid.ofCounts (dayRange (firstDay now.secs) (dayOf now.secs)) keys c) =
      (dayRange (firstDay now.secs) (dayOf now.secs)).map fun d =>
        ⟨utcDateStr (d.toNat * 86400), keys.map fun k => (k, c d k)⟩ := by
  obtain ⟨-, hlow, hhigh⟩ := now.today_bounds h
  rw [dated, Grid.ofCounts, List.filterMap_map, ← List.filterMap_eq_map]
  refine List.filterMap_congr fun d hd => ?_
  obtain ⟨hfirst, hlast⟩ := now.mem_window.mp hd
  rw [Function.comp_apply, epochSecs, if_pos ⟨by omega, by omega⟩]
  rfl

/-- The total of a series filled from zero. -/
theorem seriesTotal_count {ι : Type} (h : statsWindowDays * daySecs ≤ now.secs) {keys : List String}
    (hkeys : keys.Nodup) (cell : ι → Option (ℤ × String)) (weight : ι → ℕ) (items : List ι) :
    seriesTotal (dated (items.foldl (Grid.countItem cell weight)
        (Grid.ofCounts (dayRange (firstDay now.secs) (dayOf now.secs)) keys fun _ _ => 0))) =
      ((items.filter (Grid.Within cell (dayRange (firstDay now.secs) (dayOf now.secs)) keys)).map
        weight).sum := by
  rw [← Grid.total_count (nodup_dayRange _ _) hkeys, Grid.foldl_count, now.dated_ofCounts h,
    Grid.total_ofCounts, seriesTotal, List.map_map]
  simp only [Function.comp_def, List.map_map]

end ClockReading

/-! ### What the writes add up to -/

theorem nodup_noveltyKeys : noveltyKeys.Nodup := by decide

/-- Every write has a band: the last one has no floor. -/
theorem noveltyBucket_mem (nearestSimilarity : Option ℚ) : noveltyBucket nearestSimilarity ∈ noveltyKeys := by
  unfold noveltyBucket noveltyKeys
  cases nearestSimilarity with
  | none => exact List.mem_append_right _ List.mem_cons_self
  | some s =>
    cases hfind : noveltyBands.find? fun band => decide (band.2 ≤ (s : WithBot ℚ)) with
    | none =>
      dsimp only
      rw [hfind]
      exact List.mem_append_right _ List.mem_cons_self
    | some band =>
      dsimp only
      rw [hfind]
      exact List.mem_append_left _ (List.mem_map_of_mem (List.mem_of_find?_eq_some hfind))

/-- **A band holds the similarities from its floor up to the floor above.** -/
theorem noveltyBucket_eq (s : ℚ) : noveltyBucket (some s) =
    if literal (95 / 100) ≤ s then "0.95+" else if literal (85 / 100) ≤ s then "0.85-0.95"
    else if literal (70 / 100) ≤ s then "0.70-0.85" else "below_0.70" := by
  unfold noveltyBucket noveltyBands
  simp only [List.find?_cons, WithBot.coe_le_coe, bot_le, decide_true]
  split_ifs with h95 h85 h70 <;> simp [*]

/-- The number of writes of a day and a band. -/
def writesOf (rows : List (ℚ × Option ℚ)) (day : ℤ) (key : String) : ℕ :=
  rows.countP fun row => dayOf row.1 = day ∧ noveltyBucket row.2 = key

theorem sum_ones {α : Type} (l : List α) : (l.map fun _ => 1).sum = l.length := by simp

theorem weightAt_novelty (rows : List (ℚ × Option ℚ)) (day : ℤ) (key : String) :
    Grid.weightAt (fun row : ℚ × Option ℚ => some (dayOf row.1, noveltyBucket row.2)) (fun _ => 1) rows
      day key = writesOf rows day key := by
  rw [Grid.weightAt, sum_ones, writesOf, List.countP_eq_length_filter]
  simp only [Option.some.injEq, Prod.mk.injEq]

namespace ClockReading

variable (now : ClockReading)

/-- The series of the writes: a row for each day of the window, a count for each band. -/
theorem noveltyPerDay_eq (h : statsWindowDays * daySecs ≤ now.secs) (rows : List (ℚ × Option ℚ)) :
    noveltyPerDay rows (firstDay now.secs) (dayOf now.secs) =
      (dayRange (firstDay now.secs) (dayOf now.secs)).map fun d =>
        ⟨utcDateStr (d.toNat * 86400), noveltyKeys.map fun key => (key, writesOf rows d key)⟩ := by
  rw [noveltyPerDay, Grid.foldl_count, now.dated_ofCounts h]
  simp only [Nat.zero_add, weightAt_novelty]

/-- Its counts add up to the writes between the bounds of the window. -/
theorem noveltyPerDay_total (h : statsWindowDays * daySecs ≤ now.secs) (rows : List (ℚ × Option ℚ)) :
    seriesTotal (noveltyPerDay rows (firstDay now.secs) (dayOf now.secs)) =
      rows.countP fun row => InWindow now.secs row.1 := by
  rw [noveltyPerDay, now.seriesTotal_count h nodup_noveltyKeys, sum_ones, ← List.countP_eq_length_filter]
  refine List.countP_congr fun row _ => ?_
  simp only [Grid.Within, Option.any_some, Bool.and_eq_true, decide_eq_true_eq, now.dayOf_mem h,
    noveltyBucket_mem, and_true]

/-- The query's bound leaves out no write of the window, and a point is read if it has a time. -/
theorem countP_writeNovelty {points : List Payload} {pages : List (List Payload)}
    (hpages : pages.flatten.Perm (points.filter (createdSince (windowSince now.secs)))) :
    (writeNovelty pages).countP (fun row => InWindow now.secs row.1) =
      points.countP fun p => (createdAt? p).any fun t => InWindow now.secs t := by
  have hflat : writeNovelty pages = pages.flatten.filterMap noveltyRow := by
    rw [writeNovelty, List.filterMap_flatten, List.flatMap_def]
  rw [hflat, List.countP_filterMap, hpages.countP_eq, List.countP_filter]
  refine List.countP_congr fun p _ => ?_
  unfold noveltyRow createdSince
  cases createdAt? p with
  | none => simp
  | some t =>
    simp only [Option.map_some, Option.getD_some, Option.any_some, Bool.and_eq_true, decide_eq_true_eq]
    exact and_iff_left_of_imp fun hwindow => hwindow.1

end ClockReading

/-! ### What the verdicts add up to -/

/-- A text is reported as a verdict exactly if it is one. -/
theorem verdictKey_mem {v : Option String} {key : String} (h : verdictKey v = some key) :
    key ∈ Verdict.all.map Verdict.asStr ↔ (v.bind Verdict.parse).isSome := by
  cases v with
  | none =>
    obtain rfl := Option.some.inj h
    simp only [Option.bind_none, Option.isSome_none, Bool.false_eq_true, iff_false, List.mem_map, not_exists,
      not_and]
    exact fun v _ => asStr_ne_neverJudged v
  | some s =>
    obtain ⟨v, hparse, rfl⟩ := Option.map_eq_some_iff.mp (show (Verdict.parse s).map Verdict.asStr = _ from h)
    rw [Option.bind_some, hparse]
    exact iff_of_true (List.mem_map_of_mem (Verdict.mem_all v)) rfl

theorem verdictKey_none {v : Option String} (h : verdictKey v = none) : v.bind Verdict.parse = none := by
  cases v with
  | none => cases h
  | some s => exact Option.map_eq_none_iff.mp h

/-- An edge with a verdict the report knows, judged in the window. -/
def JudgedEdge.counts (now : ℚ) (e : JudgedEdge) : Bool :=
  (e.verdict.bind Verdict.parse).isSome && e.judgedAt.any fun t => InWindow now t

namespace ClockReading

variable (now : ClockReading)

/-- The series of the verdicts adds up to the edges with a verdict judged between the bounds. -/
theorem judgedPerDay_total (h : statsWindowDays * daySecs ≤ now.secs) {edges : List JudgedEdge}
    {rows : List ((ℤ × Option String) × ℕ)}
    (hrows : Answers (contradictionStatsJudgedPerDay (windowSince now.secs) edges) rows) :
    seriesTotal (judgedPerDay (rows.map dayTally) (firstDay now.secs) (dayOf now.secs)) =
      edges.countP (JudgedEdge.counts now.secs) := by
  -- The rows within the grid, as a set of the keys they are counted by.
  let within : ℤ × Option String → Bool := fun key =>
    Grid.Within (fun t : DayTally => (verdictKey t.verdict).map fun key => (t.day, key))
      (dayRange (firstDay now.secs) (dayOf now.secs)) (Verdict.all.map Verdict.asStr) ⟨key.1, key.2, 0⟩
  have hwithin : ∀ day v, within (day, v) =
      ((v.bind Verdict.parse).isSome && decide (day ∈ dayRange (firstDay now.secs) (dayOf now.secs))) := by
    intro day v
    dsimp only [within, Grid.Within]
    cases hkey : verdictKey v with
    | none =>
      rw [verdictKey_none hkey]
      rfl
    | some key =>
      rw [Option.map_some, Option.any_some, Bool.and_comm]
      refine congrArg (· && _) (Bool.eq_iff_iff.mpr ?_)
      rw [decide_eq_true_iff, verdictKey_mem hkey]
  have hcounted : seriesTotal (judgedPerDay (rows.map dayTally) (firstDay now.secs) (dayOf now.secs)) =
      counted within rows := by
    rw [judgedPerDay, now.seriesTotal_count h (by decide), List.filter_map, List.map_map]
    rfl
  rw [hcounted, counted_answer hrows, contradictionStatsJudgedPerDay, List.countP_filterMap]
  refine List.countP_congr fun e _ => ?_
  unfold JudgedEdge.counts
  cases e.judgedAt with
  | none => simp
  | some t =>
    by_cases hsince : windowSince now.secs ≤ t
    · simp [hsince, hwithin, now.queryDay_mem]
    · simp [hsince, InWindow]

end ClockReading

/-- A verdict of a graph is one the report knows. -/
theorem counts_matched (now : ℚ) (p : MatchedEdge) :
    JudgedEdge.counts now ⟨p.e.judgement.judgedAt, p.verdict⟩ =
      (p.e.judgement.verdict.isSome && p.e.judgement.judgedAt.any fun t => InWindow now t) := by
  unfold JudgedEdge.counts MatchedEdge.verdict
  cases p.e.judgement.verdict with
  | none => rfl
  | some v => rw [Option.map_some, Option.bind_some, Verdict.parse_asStr]

/-- What the two series say at a clock reading. -/
structure SeriesConserve (now : ClockReading) : Prop where
  /-- The window is the day of the clock and the thirteen before it. -/
  window : (dayRange (firstDay now.secs) (dayOf now.secs)).length = statsWindowDays ∧
    (dayRange (firstDay now.secs) (dayOf now.secs)).Nodup ∧
    dayOf now.secs * daySecs ≤ now.secs ∧ now.secs < windowUntil now.secs
  /-- A row for each of its days, oldest first, with every band. -/
  rows : ∀ writes, noveltyPerDay writes (firstDay now.secs) (dayOf now.secs) =
    (dayRange (firstDay now.secs) (dayOf now.secs)).map fun d =>
      ⟨utcDateStr (d.toNat * 86400), noveltyKeys.map fun key => (key, writesOf writes d key)⟩
  /-- A write has one band, and it is among those of the rows. -/
  band : noveltyKeys.Nodup ∧ ∀ nearestSimilarity, noveltyBucket nearestSimilarity ∈ noveltyKeys
  /-- The counts add up to the writes created in the window. -/
  writes : ∀ writes, seriesTotal (noveltyPerDay writes (firstDay now.secs) (dayOf now.secs)) =
    writes.countP fun row => InWindow now.secs row.1
  /-- So do they over the pages the vector store answers with. -/
  stored : ∀ (points : List Payload) (pages : List (List Payload)),
    pages.flatten.Perm (points.filter (createdSince (windowSince now.secs))) →
      seriesTotal (noveltyPerDay (writeNovelty pages) (firstDay now.secs) (dayOf now.secs)) =
        points.countP fun p => (createdAt? p).any fun t => InWindow now.secs t
  /-- The counts of the verdicts add up to the edges with a known verdict judged in the window. -/
  judged : ∀ (edges : List JudgedEdge) (rows : List ((ℤ × Option String) × ℕ)),
    Answers (contradictionStatsJudgedPerDay (windowSince now.secs) edges) rows →
      seriesTotal (judgedPerDay (rows.map dayTally) (firstDay now.secs) (dayOf now.secs)) =
        edges.countP fun e =>
          (e.verdict.bind Verdict.parse).isSome && e.judgedAt.any fun t => InWindow now.secs t
  /-- So do they for every graph. -/
  graph : ∀ (g : Graph) (rows : List ((ℤ × Option String) × ℕ)),
    Answers (contradictionStatsJudgedPerDay (windowSince now.secs) g.judgedEdges) rows →
      seriesTotal (judgedPerDay (rows.map dayTally) (firstDay now.secs) (dayOf now.secs)) =
        g.matchContradicts.countP fun p =>
          p.e.judgement.verdict.isSome && p.e.judgement.judgedAt.any fun t => InWindow now.secs t
  /-- A time has the same day in the query and in the service, and that day is in the window exactly if
  the time is between its bounds. -/
  days : ∀ secs, (∀ d ∈ dayRange (firstDay now.secs) (dayOf now.secs), dayOf secs = d ↔ queryDay secs = d) ∧
    (queryDay secs ∈ dayRange (firstDay now.secs) (dayOf now.secs) ↔ InWindow now.secs secs) ∧
    (dayOf secs ∈ dayRange (firstDay now.secs) (dayOf now.secs) ↔ InWindow now.secs secs)

/-- **The series of the statistics conserve rows**, at every clock reading fourteen days after the epoch or
later. -/
theorem statistics_conserve_rows (now : ClockReading) (h : statsWindowDays * daySecs ≤ now.secs) :
    SeriesConserve now := by
  obtain ⟨htoday, hlow, hhigh⟩ := now.today_bounds h
  exact {
    window := ⟨now.length_window, nodup_dayRange _ _, le_queryDay.mp htoday.le, queryDay_le.mp htoday.ge⟩
    rows := now.noveltyPerDay_eq h
    band := ⟨nodup_noveltyKeys, noveltyBucket_mem⟩
    writes := now.noveltyPerDay_total h
    stored := by
      intro points pages hpages
      rw [now.noveltyPerDay_total h, now.countP_writeNovelty hpages]
    judged := fun edges rows hrows => now.judgedPerDay_total h hrows
    graph := by
      intro g rows hrows
      rw [now.judgedPerDay_total h hrows, Graph.judgedEdges, List.countP_map]
      refine List.countP_congr fun p _ => ?_
      rw [Function.comp_apply, counts_matched]
    days := by
      intro secs
      refine ⟨fun d hd => ?_, now.queryDay_mem, now.dayOf_mem h⟩
      obtain ⟨hfirst, hlast⟩ := now.mem_window.mp hd
      exact dayOf_eq_iff (by omega) (by omega) }

/-- Noon on the first of October 2026. -/
def noon : ClockReading := ⟨1790856000, by decide +kernel, by decide +kernel⟩

theorem statistics_conserve_rows_noon : SeriesConserve noon :=
  statistics_conserve_rows noon (by decide +kernel)

end Alaya
