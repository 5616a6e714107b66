import Alaya.Bridge.Contradictions

/-!
# The statistics document and the queue

`contradictionsSection` sorts the tallies of the bridge into one slot for each verdict, and one for the
edges never judged.  On a static graph the open count of a slot is the length of the queue with that
verdict as its filter.
-/

namespace Alaya

open Rows

/-- Key of the edges never judged. -/
def neverJudged : String := "never_judged"

/-- The counts of one verdict. -/
structure VerdictSlot where
  openCount : ℕ
  resolvedCount : ℕ
  deriving DecidableEq

/-- The section of the contradictions: the counts by verdict, and the most frequent failures with how
many others there are. -/
structure ContradictionsSection where
  byVerdict : String → Option VerdictSlot
  topFailures : List ReasonTally
  otherFailures : ℕ

/-- The key a verdict is reported under; `none` for a text that is no verdict. -/
def verdictKey : Option String → Option String
  | none => some neverJudged
  | some s => (Verdict.parse s).map Verdict.asStr

/-- The slots of the report, empty. -/
def emptySlots (key : String) : Option VerdictSlot :=
  if key ∈ Verdict.all.map Verdict.asStr ++ [neverJudged] then some ⟨0, 0⟩ else none

/-- Add a tally to a slot. -/
def VerdictSlot.add (t : VerdictTally) (slot : VerdictSlot) : VerdictSlot :=
  if t.resolved then { slot with resolvedCount := slot.resolvedCount + t.count }
  else { slot with openCount := slot.openCount + t.count }

/-- Add a tally to its slot; one without a slot is left out. -/
def addTally (slots : String → Option VerdictSlot) (t : VerdictTally) : String → Option VerdictSlot :=
  match verdictKey t.verdict with
  | none => slots
  | some k => Function.update slots k ((slots k).map (VerdictSlot.add t))

def contradictionsSection (c : ContradictionStats) : ContradictionsSection :=
  let byVerdict := c.verdicts.foldl addTally emptySlots
  let unjudged := (byVerdict Verdict.unjudged.asStr).getD ⟨0, 0⟩
  { byVerdict
    topFailures := c.failures
    otherFailures := unjudged.openCount + unjudged.resolvedCount - (c.failures.map ReasonTally.count).sum }

/-! ### Slots -/

/-- A verdict's text, or its absence, and the key of its slot. -/
def slotKey : Option Verdict → String
  | none => neverJudged
  | some v => v.asStr

theorem asStr_ne_neverJudged (v : Verdict) : v.asStr ≠ neverJudged := by
  cases v <;> decide

theorem slotKey_inj {v v' : Option Verdict} (h : slotKey v = slotKey v') : v = v' := by
  cases v with
  | none =>
    cases v' with
    | none => rfl
    | some v' => exact absurd h.symm (asStr_ne_neverJudged v')
  | some v =>
    cases v' with
    | none => exact absurd h (asStr_ne_neverJudged v)
    | some v' => exact congrArg some (Verdict.asStr_inj h)

theorem verdictKey_asStr (v : Option Verdict) : verdictKey (v.map Verdict.asStr) = some (slotKey v) := by
  cases v with
  | none => rfl
  | some v =>
    rw [Option.map_some, verdictKey, Verdict.parse_asStr]
    rfl

theorem emptySlots_slotKey (v : Option Verdict) : emptySlots (slotKey v) = some ⟨0, 0⟩ := by
  refine if_pos (List.mem_append.mpr ?_)
  cases v with
  | none => exact .inr List.mem_cons_self
  | some v => exact .inl (List.mem_map_of_mem (Verdict.mem_all v))

theorem asStr_map_inj {v v' : Option Verdict} (h : v.map Verdict.asStr = v'.map Verdict.asStr) : v = v' := by
  refine slotKey_inj (Option.some.inj ?_)
  rw [← verdictKey_asStr, ← verdictKey_asStr, h]

/-- Only a verdict's own text is reported under its key. -/
theorem verdictKey_eq_iff {x : Option String} {v : Option Verdict} :
    verdictKey x = some (slotKey v) ↔ x = v.map Verdict.asStr := by
  refine ⟨fun h => ?_, fun h => h ▸ verdictKey_asStr v⟩
  cases x with
  | none =>
    obtain rfl := slotKey_inj (v := none) (Option.some.inj h)
    rfl
  | some s =>
    obtain ⟨w, hparse, hw⟩ := Option.map_eq_some_iff.mp (show (Verdict.parse s).map Verdict.asStr = _ from h)
    obtain rfl := slotKey_inj (v := some w) hw
    have htext := List.find?_some (show Verdict.all.find? (fun v => decide (v.asStr = s)) = _ from hparse)
    exact congrArg some (of_decide_eq_true htext).symm

/-- **Each slot sums the tallies of its verdict.** -/
theorem slot_of_tallies (tallies : List VerdictTally) {slots : String → Option VerdictSlot}
    {v : Option Verdict} {slot : VerdictSlot} (hslot : slots (slotKey v) = some slot) :
    tallies.foldl addTally slots (slotKey v) =
      some ⟨slot.openCount + Bridge.countOf (Bridge.isTallyOf (v.map Verdict.asStr) false) tallies,
        slot.resolvedCount + Bridge.countOf (Bridge.isTallyOf (v.map Verdict.asStr) true) tallies⟩ := by
  induction tallies generalizing slots slot with
  | nil => exact hslot
  | cons t tallies ih =>
    rw [List.foldl_cons]
    by_cases hv : t.verdict = v.map Verdict.asStr
    · have hadd : addTally slots t (slotKey v) = some (VerdictSlot.add t slot) := by
        rw [addTally, verdictKey_eq_iff.mpr hv]
        show Function.update slots (slotKey v) _ (slotKey v) = _
        rw [Function.update_self, hslot, Option.map_some]
      rw [ih hadd, Bridge.countOf_cons, Bridge.countOf_cons]
      cases hresolved : t.resolved <;>
        simp [Bridge.isTallyOf, hv, hresolved, VerdictSlot.add, Nat.add_assoc]
    · have hadd : addTally slots t (slotKey v) = some slot := by
        unfold addTally
        cases hk : verdictKey t.verdict with
        | none => exact hslot
        | some k =>
          have hne : slotKey v ≠ k := by
            rintro rfl
            exact hv (verdictKey_eq_iff.mp hk)
          exact (Function.update_of_ne hne _ _).trans hslot
      rw [ih hadd, Bridge.countOf_cons, Bridge.countOf_cons]
      simp [Bridge.isTallyOf, hv]

/-! ### The counts of a static graph -/

namespace Graph

variable (g : Graph)

/-- How many edges carry a verdict, or none. -/
def edgesWith (v : Option Verdict) : ℕ :=
  g.matchContradicts.countP fun p => p.e.judgement.verdict = v

theorem verdict_eq_iff {p : MatchedEdge} {v : Option Verdict} :
    p.verdict = v.map Verdict.asStr ↔ p.e.judgement.verdict = v :=
  ⟨fun h => asStr_map_inj h, fun h => congrArg (Option.map Verdict.asStr) h⟩

variable {g} {counts : List ((Option String × Ternary) × ℕ)} {reverse : List (Option String × ℕ)}

/-- The tally of a row of the counts. -/
def tallyRow (row : (Option String × Ternary) × ℕ) : VerdictTally := ⟨row.1.1, row.1.2.holds, row.2⟩

theorem key_of_counts (h : Answers g.contradictionStatsCounts counts) {row : (Option String × Ternary) × ℕ}
    (hrow : row ∈ counts) : ∃ p ∈ g.matchContradicts, row.1 = (p.verdict, some !g.directlyOpen p) := by
  have hkey : row.1 ∈ g.contradictionStatsCounts := mem_keys h hrow
  obtain ⟨p, hp, heq⟩ := List.mem_map.mp hkey
  exact ⟨p, hp, by rw [← heq, g.holds_directlyResolved]⟩

/-- Every row of the counts is readable. -/
theorem mapM_counts (h : Answers g.contradictionStatsCounts counts) :
    counts.mapM Bridge.verdictTally = some (counts.map tallyRow) := by
  refine mapM_eq_map fun row hrow => ?_
  obtain ⟨p, -, hkey⟩ := key_of_counts h hrow
  rw [Bridge.verdictTally, tallyRow, hkey]
  rfl

theorem onePerKey_counts (h : Answers g.contradictionStatsCounts counts) :
    Bridge.OnePerKey (counts.map tallyRow) := by
  rw [Bridge.OnePerKey, List.map_map]
  refine List.Nodup.map_on ?_ (nodup_keys h).of_map
  intro row hrow row' hrow' heq
  obtain ⟨p, -, hkey⟩ := key_of_counts h hrow
  obtain ⟨p', -, hkey'⟩ := key_of_counts h hrow'
  obtain ⟨hverdict, hholds⟩ : row.1.1 = row'.1.1 ∧ row.1.2.holds = row'.1.2.holds :=
    Prod.mk.inj heq
  have hsame : row.1 = row'.1 := by
    rw [hkey, hkey'] at hverdict hholds ⊢
    exact Prod.ext hverdict (congrArg some hholds)
  exact Prod.ext hsame (by rw [count_of_mem h hrow, count_of_mem h hrow', hsame])

/-- The tallies of a verdict count the edges that carry it, open or resolved by the direct test. -/
theorem countOf_counts (h : Answers g.contradictionStatsCounts counts) (v : Option Verdict)
    (resolved : Bool) : Bridge.countOf (Bridge.isTallyOf (v.map Verdict.asStr) resolved)
        (counts.map tallyRow) =
      g.matchContradicts.countP fun p =>
        decide (p.e.judgement.verdict = v) && (!g.directlyOpen p) == resolved := by
  have hcounted := counted_answer h fun k => decide (k.1 = v.map Verdict.asStr) && k.2.holds == resolved
  have hrows : Bridge.countOf (Bridge.isTallyOf (v.map Verdict.asStr) resolved) (counts.map tallyRow) =
      counted (fun k => decide (k.1 = v.map Verdict.asStr) && k.2.holds == resolved) counts := by
    rw [Bridge.countOf, counted, List.filter_map, List.map_map]
    rfl
  rw [hrows, hcounted, contradictionStatsCounts, List.countP_map]
  refine List.countP_congr fun p _ => ?_
  rw [Function.comp_apply, g.holds_directlyResolved, Ternary.holds_some, decide_eq_decide.mpr verdict_eq_iff]

/-- The reverse-stamped rows of a verdict count its edges under a reverse stamp. -/
theorem counted_reverse (h : Answers g.contradictionStatsReverseStamped reverse) (v : Option Verdict) :
    counted (fun k => decide (k = v.map Verdict.asStr)) reverse =
      g.matchContradicts.countP fun p =>
        decide (p.e.judgement.verdict = v) && (g.directlyOpen p && g.reverseStamped p) := by
  rw [counted_answer h, contradictionStatsReverseStamped, List.countP_map,
    g.perm_reverseStampedEdges.countP_eq, List.countP_filter]
  refine List.countP_congr fun p _ => ?_
  rw [Function.comp_apply, decide_eq_decide.mpr verdict_eq_iff]

theorem counted_le_open (hcounts : Answers g.contradictionStatsCounts counts)
    (hreverse : Answers g.contradictionStatsReverseStamped reverse) {row : Option String × ℕ}
    (hrow : row ∈ reverse) :
    row.2 ≤ Bridge.countOf (Bridge.isTallyOf row.1 false) (counts.map tallyRow) := by
  obtain ⟨p, -, hkey⟩ := List.mem_map.mp (mem_keys hreverse hrow)
  have hcounted : row.2 = counted (fun k => decide (k = row.1)) reverse := by
    rw [counted_answer hreverse, count_of_mem hreverse hrow]
    rfl
  have hverdict : row.1 = p.e.judgement.verdict.map Verdict.asStr := hkey.symm
  rw [hcounted, hverdict, counted_reverse hreverse, countOf_counts hcounts]
  refine List.countP_mono_left fun p' _ hp' => ?_
  simp only [Bool.and_eq_true] at hp' ⊢
  exact ⟨hp'.1, by rw [hp'.2.1]; rfl⟩

/-- Dropping empty tallies drops no edge. -/
theorem countOf_nonempty (p : VerdictTally → Bool) (tallies : List VerdictTally) :
    Bridge.countOf p (tallies.filter fun t => 0 < t.count) = Bridge.countOf p tallies := by
  induction tallies with
  | nil => rfl
  | cons t tallies ih =>
    rcases Nat.eq_zero_or_pos t.count with hzero | hpos
    · rw [List.filter_cons_of_neg (by simp [hzero]), Bridge.countOf_cons, hzero, ite_self, zero_add]
      exact ih
    · rw [List.filter_cons_of_pos (by simpa using hpos), Bridge.countOf_cons, Bridge.countOf_cons, ih]

/-- The edges of a verdict the queue lists. -/
def queued (g : Graph) (v : Option Verdict) : ℕ :=
  g.matchContradicts.countP fun p =>
    decide (p.e.judgement.verdict = v) && (g.directlyOpen p && !g.reverseStamped p)

theorem countP_split {α : Type} (l : List α) (p q : α → Bool) :
    l.countP p = (l.countP fun a => p a && q a) + l.countP fun a => p a && !q a := by
  induction l with
  | nil => rfl
  | cons a l ih =>
    simp only [List.countP_cons, ih]
    cases p a <;> cases q a <;> simp <;> omega

theorem open_split (g : Graph) (v : Option Verdict) :
    (g.matchContradicts.countP fun p => decide (p.e.judgement.verdict = v) && (!g.directlyOpen p) == false) =
      g.queued v + g.matchContradicts.countP fun p =>
        decide (p.e.judgement.verdict = v) && (g.directlyOpen p && g.reverseStamped p) := by
  rw [countP_split _ _ g.reverseStamped, Nat.add_comm, queued]
  congr 1 <;> refine List.countP_congr fun p _ => ?_ <;>
    cases g.directlyOpen p <;> simp

theorem edges_split (g : Graph) (v : Option Verdict) :
    g.edgesWith v = (g.matchContradicts.countP fun p =>
        decide (p.e.judgement.verdict = v) && (!g.directlyOpen p) == false) +
      g.matchContradicts.countP fun p =>
        decide (p.e.judgement.verdict = v) && (!g.directlyOpen p) == true := by
  rw [edgesWith, countP_split _ _ g.directlyOpen]
  congr 1 <;> refine List.countP_congr fun p _ => ?_ <;> cases g.directlyOpen p <;> simp

/-- **The statistics of a static graph**: a slot's open count is what the queue lists. -/
theorem slots_of_stats (hcounts : Answers g.contradictionStatsCounts counts)
    (hreverse : Answers g.contradictionStatsReverseStamped reverse) (failures : List ReasonTally) :
    ∃ st, Bridge.stats counts reverse failures = some st ∧ ∀ v, ∃ slot,
      (contradictionsSection st).byVerdict (slotKey v) = some slot ∧ slot.openCount = g.queued v ∧
        slot.openCount + slot.resolvedCount = g.edgesWith v := by
  obtain ⟨tallies, hmoves, hspec⟩ := Bridge.moveEach_spec (onePerKey_counts hcounts) (nodup_keys hreverse)
    fun row hrow => counted_le_open hcounts hreverse hrow
  refine ⟨⟨tallies.filter fun t => 0 < t.count, failures⟩, ?_, fun v => ?_⟩
  · rw [Bridge.stats, mapM_counts hcounts]
    show (Bridge.moveEach (counts.map tallyRow) reverse).bind _ = _
    rw [hmoves]
    rfl
  · obtain ⟨hopen, hresolved⟩ := hspec (v.map Verdict.asStr)
    rw [countOf_counts hcounts, counted_reverse hreverse, open_split] at hopen
    rw [countOf_counts hcounts, counted_reverse hreverse] at hresolved
    have hslot := slot_of_tallies (tallies.filter fun t => 0 < t.count) (emptySlots_slotKey v)
    rw [countOf_nonempty, countOf_nonempty, Nat.zero_add, Nat.zero_add] at hslot
    refine ⟨_, hslot, Nat.add_right_cancel hopen, ?_⟩
    rw [edges_split, open_split]
    dsimp only
    omega

/-- The queue without resolved pairs, with one verdict as its filter. -/
def openQuery (v : Verdict) (limit : ℕ) : ContradictionQuery where
  limit
  skip := 0
  verdicts := some [v.asStr]
  excludeResolved := true
  needsJudging := false
  rejudgeModel := none

/-- What the queue with one verdict as its filter lists: unjudged stands for an absent one too. -/
def listed (g : Graph) (v : Verdict) : ℕ :=
  if v = .unjudged then g.queued (some v) + g.queued none else g.queued (some v)

theorem holds_verdictClause (v : Verdict) (p : MatchedEdge) :
    (verdictClause [v.asStr] p).holds = (decide (p.e.judgement.verdict = some v) ||
      (decide (v = .unjudged) && decide (p.e.judgement.verdict = none))) := by
  have hin : (Ternary.isIn p.verdict [v.asStr]).holds = decide (p.e.judgement.verdict = some v) := by
    rw [Ternary.holds_isIn, MatchedEdge.verdict]
    cases p.e.judgement.verdict with
    | none => rfl
    | some w =>
      rw [Option.map_some, Option.any_some]
      exact decide_eq_decide.mpr (List.mem_singleton.trans
        ⟨fun h => congrArg some (Verdict.asStr_inj h), fun h => congrArg Verdict.asStr (Option.some.inj h)⟩)
  have hunjudged : ([v.asStr].any fun s => decide (s = Verdict.unjudged.asStr)) = decide (v = .unjudged) := by
    cases v <;> decide
  rw [verdictClause, hunjudged]
  by_cases hv : v = .unjudged
  · rw [if_pos (decide_eq_true hv), Ternary.holds_or, hin, Ternary.holds_isNull, MatchedEdge.verdict,
      decide_eq_true hv, Bool.true_and, Bool.or_comm]
    cases p.e.judgement.verdict <;> rfl
  · rw [if_neg (by simpa using hv), hin, decide_eq_false hv, Bool.false_and, Bool.or_false]

theorem length_matched (g : Graph) (v : Verdict) (limit : ℕ) :
    (g.matchedContradictions (openQuery v limit)).length = g.listed v := by
  have hholds : ∀ p, (Ternary.all (g.queueClauses (openQuery v limit) p)).holds =
      ((verdictClause [v.asStr] p).holds && (g.directlyOpen p && !g.reverseStamped p)) := by
    intro p
    rw [Ternary.holds_all, queueClauses]
    show (verdictClause [v.asStr] p :: ([] ++ g.openClauses p)).all Ternary.holds = _
    rw [List.all_cons, List.nil_append, holds_openClauses]
  rw [matchedContradictions, List.length_mergeSort, ← List.countP_eq_length_filter]
  simp only [hholds, holds_verdictClause]
  unfold listed queued
  by_cases hv : v = .unjudged
  · subst hv
    rw [if_pos rfl, countP_split _ _ fun p => decide (p.e.judgement.verdict = some .unjudged)]
    congr 1 <;> refine List.countP_congr fun p _ => ?_ <;>
      rcases p.e.judgement.verdict with _ | ⟨⟨⟩⟩ <;> simp
  · rw [if_neg hv]
    refine List.countP_congr fun p _ => ?_
    simp [hv]

end Graph

/-- **The queue and the statistics agree.**  On a static graph the open count of each verdict is the
number of edges the queue lists over all its pages with that verdict as its filter, unjudged standing
for the edges never judged too, and each verdict's counts add up to the edges that carry it.  Whatever
rows the two queries answer, moving keeps each verdict's total and never counts below zero. -/
theorem queue_agrees_with_stats {g : Graph} (hnodes : "" ∉ g.nodes)
    {counts : List ((Option String × Ternary) × ℕ)} {reverse : List (Option String × ℕ)}
    (hcounts : Answers g.contradictionStatsCounts counts)
    (hreverse : Answers g.contradictionStatsReverseStamped reverse) (failures : List ReasonTally) :
    (∃ st, Bridge.stats counts reverse failures = some st ∧
      ∃ slots : Option Verdict → VerdictSlot,
        (∀ v, (contradictionsSection st).byVerdict (slotKey v) = some (slots v)) ∧
        (∀ v limit n, (Bridge.all g { Graph.openQuery v limit with
            skip := n * (Graph.openQuery v limit).pageLimit }).length < (Graph.openQuery v limit).pageLimit →
          (g.pages (Graph.openQuery v limit) (n + 1)).length =
            if v = .unjudged then (slots (some v)).openCount + (slots none).openCount
            else (slots (some v)).openCount) ∧
        ∀ v, (slots v).openCount + (slots v).resolvedCount = g.edgesWith v) ∧
    ∀ (tallies : List VerdictTally) (reverse : List (Option String × ℕ)),
      ∃ tallies', Bridge.moveEach tallies reverse = some tallies' ∧
        ∀ v, Bridge.totalOf v tallies' = Bridge.totalOf v tallies := by
  refine ⟨?static, Bridge.total_moveEach⟩
  case static =>
    obtain ⟨st, hstats, hslots⟩ := Graph.slots_of_stats hcounts hreverse failures
    choose slots hslot hopen htotal using hslots
    refine ⟨st, hstats, slots, hslot, fun v limit n hshort => ?_, htotal⟩
    have hpages := g.pages_of_short hnodes (q := Graph.openQuery v limit) (n := n)
      (by rw [show (Graph.openQuery v limit).skip = 0 from rfl, Nat.zero_add]; exact hshort)
    rw [hpages, List.length_map, show (Graph.openQuery v limit).skip = 0 from rfl, List.drop_zero,
      Graph.length_matched, Graph.listed, hopen, hopen]

def differing : EdgeVerdict := ⟨.contradiction, none, "they differ", 0.9, "m", 5⟩

/-- A memory with two edges: one that nobody has judged, whose reverse edge an operator stamped, and one judged a
contradiction. -/
def disputed : Graph :=
  let g := ((Graph.empty.ensureNode "a").ensureNode "b").ensureNode "c"
  let g := (g.createTypedEdge "a" "b" .contradicts 1 none).2
  let g := (g.createTypedEdge "b" "a" .contradicts 2 none).2
  let g := (g.createTypedEdge "a" "c" .contradicts 3 none).2
  let g := (g.settleContradiction "b" "a" "cli" 4).2
  (g.setContradictionVerdict "a" "c" differing).2

/-- The edges of a graph whose nodes are known, in order. -/
theorem Graph.matchContradicts_eq {g : Graph} {hashes : List String} (hnodes : g.nodes = hashes.toFinset)
    (hsorted : hashes.Pairwise (· ≤ ·) ∧ hashes.Nodup) : g.matchContradicts =
      hashes.flatMap fun a => hashes.filterMap fun b => (g.contradicts a b).map fun e => ⟨a, b, e⟩ := by
  rw [matchContradicts, hnodes, (List.toFinset_sort (· ≤ ·) hsorted.2).mpr hsorted.1]

theorem matched_disputed : disputed.matchContradicts =
    [⟨"a", "b", { createdAt := some 1 }⟩,
      ⟨"a", "c", { createdAt := some 3, judgement := differing.judgement }⟩,
      ⟨"b", "a", { createdAt := some 2, stamp := Graph.keepBoth "cli" 4 }⟩] := by
  have hnodes : disputed.nodes = ["a", "b", "c"].toFinset := by decide +kernel
  rw [Graph.matchContradicts_eq hnodes (by decide +kernel)]
  decide +kernel

/-- One page holds what the queue lists of a verdict. -/
theorem pages_disputed (v : Verdict) :
    (Bridge.all disputed (Graph.openQuery v 20)).length < (Graph.openQuery v 20).pageLimit ∧
      (disputed.pages (Graph.openQuery v 20) 1).length = disputed.listed v := by
  have hnodes : "" ∉ disputed.nodes := by decide +kernel
  have hshort : (Bridge.all disputed (Graph.openQuery v 20)).length < (Graph.openQuery v 20).pageLimit := by
    have hfew : disputed.listed v < (Graph.openQuery v 20).pageLimit := by
      unfold Graph.listed Graph.queued
      rw [matched_disputed]
      cases v <;> decide +kernel
    rw [disputed.all_eq_map hnodes, List.length_map, Graph.getAllContradictions, page, List.length_take,
      List.length_drop, Graph.length_matched]
    omega
  refine ⟨hshort, ?_⟩
  have hpages := disputed.pages_of_short hnodes (q := Graph.openQuery v 20) (n := 0) hshort
  rw [hpages, List.length_map, show (Graph.openQuery v 20).skip = 0 from rfl, List.drop_zero, Graph.length_matched]

/-- The edge nobody has judged is moved, with its stamped reverse, to the resolved ones. -/
theorem stats_of_disputed : ∃ st, ∃ slots : Option Verdict → VerdictSlot,
    Bridge.stats (tally disputed.contradictionStatsCounts) (tally disputed.contradictionStatsReverseStamped) [] =
      some st ∧
    (∀ v, (contradictionsSection st).byVerdict (slotKey v) = some (slots v)) ∧
    (slots none).openCount = 0 ∧ (slots none).resolvedCount = 2 ∧
    (slots (some .contradiction)).openCount = 1 ∧ (slots (some .contradiction)).resolvedCount = 0 := by
  have hnodes : "" ∉ disputed.nodes := by decide +kernel
  obtain ⟨⟨st, hstats, slots, hslot, hopen, htotal⟩, -⟩ :=
    queue_agrees_with_stats hnodes (.refl _) (.refl _) []
  have hcounts : disputed.listed .unjudged = 0 ∧ disputed.listed .contradiction = 1 ∧
      disputed.edgesWith none = 2 ∧ disputed.edgesWith (some .contradiction) = 1 := by
    unfold Graph.listed Graph.queued Graph.edgesWith
    rw [matched_disputed]
    decide +kernel
  have hlisted : ∀ v, disputed.listed v =
      if v = .unjudged then (slots (some v)).openCount + (slots none).openCount else (slots (some v)).openCount :=
    fun v => (pages_disputed v).2.symm.trans (hopen v 20 0 (pages_disputed v).1)
  have hunjudged := hlisted .unjudged
  have hjudged := hlisted .contradiction
  have hnone := htotal none
  have hone := htotal (some .contradiction)
  rw [if_pos rfl, hcounts.1] at hunjudged
  rw [if_neg nofun, hcounts.2.1] at hjudged
  rw [hcounts.2.2.1] at hnone
  rw [hcounts.2.2.2] at hone
  exact ⟨st, slots, hstats, hslot, by omega, by omega, by omega, by omega⟩

end Alaya
