import Alaya.Bridge.Graph
import Alaya.Lib.Rows
import Mathlib.Algebra.Order.Ring.Unbundled.Rat
import Mathlib.Data.List.Sort
import Mathlib.Data.Prod.Lex
import Mathlib.Order.WithBot

/-!
# The contradiction queue and its statistics

`getAllContradictions` is one page of the queue, every filter evaluated on the graph; the statistics
count all edges by verdict and whether their pair is resolved.  The counts know a stamp on the edge
itself only, so the handler moves what another query counts under a stamp on the reverse edge.
-/

namespace Alaya

open Rows

/-- A CONTRADICTS edge `a -> b` that a pattern matched. -/
structure MatchedEdge where
  a : String
  b : String
  e : Link
  deriving DecidableEq

namespace MatchedEdge

/-- `e.verdict`. -/
def verdict (p : MatchedEdge) : Option String := p.e.judgement.verdict.map Verdict.asStr

end MatchedEdge

/-- `ORDER BY e.created_at DESC, a.content_hash, b.content_hash`: NULL is the greatest. -/
def queueKey (createdAt : WithTop ℚ) (a b : String) : (WithTop ℚ)ᵒᵈ ×ₗ (String ×ₗ String) :=
  toLex (OrderDual.toDual createdAt, toLex (a, b))

/-- Where an edge stands in the queue. -/
def MatchedEdge.key (p : MatchedEdge) : (WithTop ℚ)ᵒᵈ ×ₗ (String ×ₗ String) :=
  queueKey p.e.createdAt p.a p.b

namespace Graph

/-- `MATCH (a)-[e:CONTRADICTS]->(b)`. -/
def matchContradicts (g : Graph) : List MatchedEdge :=
  let hashes := g.nodes.sort (· ≤ ·)
  hashes.flatMap fun a => hashes.filterMap fun b => (g.contradicts a b).map fun e => ⟨a, b, e⟩

section

variable (g : Graph)

/-- `NOT (b)-[:CONTRADICTS {resolution: r}]->(a)`. -/
def notReverseStamped (p : MatchedEdge) (r : Resolution) : Ternary :=
  Ternary.not (some ((g.contradicts p.b p.a).any fun s => s.stamp.resolution = some r))

/-- The clause on the verdicts asked for: an absent one counts as unjudged. -/
def verdictClause (verdicts : List String) (p : MatchedEdge) : Ternary :=
  if verdicts.any fun s => s = Verdict.unjudged.asStr then
    Ternary.or (Ternary.isNull p.verdict) (Ternary.isIn p.verdict verdicts)
  else Ternary.isIn p.verdict verdicts

/-- The clause of a backfill: every failure and what another model judged too, when one is given. -/
def judgingClause (rejudgeModel : Option String) (p : MatchedEdge) : Ternary :=
  match rejudgeModel with
  | none => Ternary.isNull p.verdict
  | some m =>
    Ternary.or (Ternary.or (Ternary.or (Ternary.isNull p.verdict) (Ternary.isEq p.verdict Verdict.unjudged.asStr))
      (Ternary.isNull p.e.judgement.verdictModel)) (Ternary.not (Ternary.isEq p.e.judgement.verdictModel m))

/-- The clauses that leave out resolved pairs. -/
def openClauses (p : MatchedEdge) : List Ternary :=
  [some (decide (g.indegree p.a = 0)), some (decide (g.indegree p.b = 0)),
    Ternary.isNull p.e.stamp.resolution] ++ Resolution.all.map (g.notReverseStamped p)

/-- The clauses of a query's `WHERE`. -/
def queueClauses (q : ContradictionQuery) (p : MatchedEdge) : List Ternary :=
  (q.verdicts.map fun verdicts => verdictClause verdicts p).toList ++
    (if q.selectsUnjudged then [judgingClause q.rejudgeModel p] else []) ++
    if q.excludeResolved then g.openClauses p else []

/-- All edges a query matches, in the order of the queue. -/
def matchedContradictions (q : ContradictionQuery) : List MatchedEdge :=
  (g.matchContradicts.filter fun p => (Ternary.all (g.queueClauses q p)).holds).mergeSort
    fun p q => p.key ≤ q.key

/-- One page of the queue. -/
def getAllContradictions (q : ContradictionQuery) : List MatchedEdge :=
  page q.skip q.pageLimit (g.matchedContradictions q)

/-- Whether the counts call an edge resolved: a stamp on it, or an endpoint that is superseded. -/
def directlyResolved (p : MatchedEdge) : Ternary :=
  Ternary.or (Ternary.or (Ternary.not (Ternary.isNull p.e.stamp.resolution)) (some (decide (0 < g.indegree p.a))))
    (some (decide (0 < g.indegree p.b)))

/-- The keys `contradiction_stats_counts` counts by. -/
def contradictionStatsCounts : List (Option String × Ternary) :=
  g.matchContradicts.map fun p => (p.verdict, g.directlyResolved p)

/-- The edges under a stamp on their reverse edge `s` that the counts call open. -/
def reverseStampedEdges : List MatchedEdge :=
  let stamped := g.matchContradicts.filter fun s =>
    (Ternary.isIn s.e.stamp.resolution Resolution.all).holds
  let edges := stamped.filterMap fun s => (g.contradicts s.b s.a).map fun e => ⟨s.b, s.a, e⟩
  (edges.filter fun p => (Ternary.all [Ternary.isNull p.e.stamp.resolution,
    some (decide (g.indegree p.a = 0)), some (decide (g.indegree p.b = 0))]).holds).dedup

/-- The keys `contradiction_stats_reverse_stamped` counts by, each edge once. -/
def contradictionStatsReverseStamped : List (Option String) :=
  g.reverseStampedEdges.map MatchedEdge.verdict

end

end Graph

namespace Bridge

/-- The verdict columns of a row; `none` without a verdict. -/
def parseVerdict (p : MatchedEdge) : Option EdgeVerdict :=
  (p.verdict.bind Verdict.parse).map fun verdict =>
    { verdict
      verdictSurvivor := p.e.judgement.verdictSurvivor
      verdictReason := p.e.judgement.verdictReason.getD ""
      verdictConfidence := p.e.judgement.verdictConfidence.getD 0
      verdictModel := p.e.judgement.verdictModel.getD ""
      judgedAt := p.e.judgement.judgedAt.getD 0 }

/-- A row of the queue as a pair. -/
def contradictionRow (p : MatchedEdge) : Contradiction where
  memoryAHash := p.a
  memoryBHash := p.b
  confidence := p.e.confidence
  createdAt := p.e.createdAt
  verdict := parseVerdict p
  resolution := p.e.stamp.resolution
  resolvedAt := p.e.stamp.resolution.bind fun _ => p.e.stamp.resolvedAt
  resolvedVia := p.e.stamp.resolution.bind fun _ => p.e.stamp.resolvedVia
  refuteReason := p.e.refuteReason

/-- A row without both hashes is dropped. -/
def contradictionOf (p : MatchedEdge) : Option Contradiction :=
  if p.a.isEmpty || p.b.isEmpty then none else some (contradictionRow p)

/-- `POST /contradictions/all`. -/
def all (g : Graph) (q : ContradictionQuery) : List Contradiction :=
  (g.getAllContradictions q).filterMap contradictionOf

/-! ### Statistics -/

/-- A subtraction of unsigned integers; `none` below zero. -/
def checkedSub (m n : ℕ) : Option ℕ := if n ≤ m then some (m - n) else none

/-- Change the first entry that passes a test. -/
def updateFirst {α : Type} (p : α → Bool) (f : α → α) : List α → List α
  | [] => []
  | a :: l => if p a then f a :: l else a :: updateFirst p f l

/-- The tally of the open, or of the resolved, edges of a verdict. -/
def isTallyOf (verdict : Option String) (resolved : Bool) (t : VerdictTally) : Bool :=
  t.verdict = verdict && t.resolved = resolved

/-- Add edges of a verdict to its resolved tally. -/
def addResolved (verdict : Option String) (n : ℕ) (tallies : List VerdictTally) :
    List VerdictTally :=
  if tallies.any (isTallyOf verdict true) then
    updateFirst (isTallyOf verdict true) (fun t => { t with count := t.count + n }) tallies
  else tallies ++ [⟨verdict, true, n⟩]

/-- Shift `n` edges of a verdict from its open tally to the resolved one, as many as it holds; `none`
is a count below zero. -/
def moveToResolved (tallies : List VerdictTally) (verdict : Option String) (n : ℕ) :
    Option (List VerdictTally) :=
  match tallies.find? (isTallyOf verdict false) with
  | none => some tallies
  | some unresolved =>
    let n := min n unresolved.count
    (checkedSub unresolved.count n).map fun count =>
      addResolved verdict n
        (updateFirst (isTallyOf verdict false) (fun t => { t with count }) tallies)

/-- A row of the counts; `none` is a cell of the wrong type. -/
def verdictTally (row : (Option String × Ternary) × ℕ) : Option VerdictTally :=
  row.1.2.map fun resolved => ⟨row.1.1, resolved, row.2⟩

/-- Move every row of the reverse-stamped query. -/
def moveEach (tallies : List VerdictTally) (reverse : List (Option String × ℕ)) :
    Option (List VerdictTally) :=
  reverse.foldlM (fun tallies row => moveToResolved tallies row.1 row.2) tallies

/-- `POST /contradictions/stats`, given the rows its queries answered. -/
def stats (counts : List ((Option String × Ternary) × ℕ)) (reverse : List (Option String × ℕ))
    (failures : List ReasonTally) : Option ContradictionStats := do
  let verdicts ← counts.mapM verdictTally
  let verdicts ← moveEach verdicts reverse
  return ⟨verdicts.filter fun t => 0 < t.count, failures⟩

/-! ### What moving does to the tallies -/

/-- How many edges the tallies that pass a test count. -/
def countOf (p : VerdictTally → Bool) (tallies : List VerdictTally) : ℕ :=
  ((tallies.filter p).map VerdictTally.count).sum

/-- The edges of a verdict, open and resolved. -/
def totalOf (verdict : Option String) (tallies : List VerdictTally) : ℕ :=
  countOf (isTallyOf verdict false) tallies + countOf (isTallyOf verdict true) tallies

/-- One tally for each verdict and state. -/
def OnePerKey (tallies : List VerdictTally) : Prop :=
  (tallies.map fun t => (t.verdict, t.resolved)).Nodup

@[simp] theorem countOf_nil (p : VerdictTally → Bool) : countOf p [] = 0 := rfl

theorem countOf_cons (p : VerdictTally → Bool) (t : VerdictTally) (tallies : List VerdictTally) :
    countOf p (t :: tallies) = (if p t then t.count else 0) + countOf p tallies := by
  unfold countOf
  by_cases hp : p t
  · rw [List.filter_cons_of_pos hp, if_pos hp, List.map_cons, List.sum_cons]
  · rw [List.filter_cons_of_neg hp, if_neg hp, zero_add]

theorem countOf_append (p : VerdictTally → Bool) (tallies tallies' : List VerdictTally) :
    countOf p (tallies ++ tallies') = countOf p tallies + countOf p tallies' := by
  rw [countOf, List.filter_append, List.map_append, List.sum_append]
  rfl

theorem countOf_updateFirst (p q : VerdictTally → Bool) (f : VerdictTally → VerdictTally)
    {tallies : List VerdictTally} {t : VerdictTally} (h : tallies.find? q = some t) :
    countOf p (updateFirst q f tallies) + (if p t then t.count else 0) =
      countOf p tallies + if p (f t) then (f t).count else 0 := by
  induction tallies with
  | nil => cases h
  | cons t' tallies ih =>
    unfold updateFirst
    by_cases hq : q t'
    · rw [List.find?_cons_of_pos hq] at h
      obtain rfl := Option.some.inj h
      rw [if_pos hq, countOf_cons, countOf_cons]
      omega
    · rw [List.find?_cons_of_neg hq] at h
      rw [if_neg hq, countOf_cons, countOf_cons]
      have hrest := ih h
      omega

theorem onePerKey_updateFirst (q : VerdictTally → Bool) {f : VerdictTally → VerdictTally}
    (hf : ∀ t, ((f t).verdict, (f t).resolved) = (t.verdict, t.resolved)) {tallies : List VerdictTally}
    (h : OnePerKey tallies) : OnePerKey (updateFirst q f tallies) := by
  have hkeys : (updateFirst q f tallies).map (fun t => (t.verdict, t.resolved)) =
      tallies.map fun t => (t.verdict, t.resolved) := by
    clear h
    induction tallies with
    | nil => rfl
    | cons t tallies ih =>
      unfold updateFirst
      split
      · rw [List.map_cons, List.map_cons, hf]
      · rw [List.map_cons, List.map_cons, ih]
  rw [OnePerKey, hkeys]
  exact h

theorem isTallyOf_iff {verdict : Option String} {resolved : Bool} {t : VerdictTally} :
    isTallyOf verdict resolved t = true ↔ t.verdict = verdict ∧ t.resolved = resolved := by
  simp [isTallyOf]

/-- With one tally for each key, the tally found is all there is of its key. -/
theorem countOf_find {tallies : List VerdictTally} (h : OnePerKey tallies) (verdict : Option String)
    (resolved : Bool) : countOf (isTallyOf verdict resolved) tallies =
      (tallies.find? (isTallyOf verdict resolved)).elim 0 VerdictTally.count := by
  induction tallies with
  | nil => rfl
  | cons t tallies ih =>
    obtain ⟨hnew, hrest⟩ := List.nodup_cons.mp h
    rw [countOf_cons]
    by_cases ht : isTallyOf verdict resolved t
    · rw [if_pos ht, List.find?_cons_of_pos ht, Option.elim_some]
      have hnone : countOf (isTallyOf verdict resolved) tallies = 0 := by
        rw [ih hrest, List.find?_eq_none.mpr, Option.elim_none]
        intro t' ht' hkey
        obtain ⟨rfl, rfl⟩ := isTallyOf_iff.mp ht
        obtain ⟨hverdict, hresolved⟩ := isTallyOf_iff.mp hkey
        exact hnew (List.mem_map.mpr ⟨t', ht', Prod.ext hverdict hresolved⟩)
      rw [hnone, add_zero]
    · rw [if_neg ht, List.find?_cons_of_neg ht, zero_add]
      exact ih hrest

/-- Adding to the resolved tally of a verdict adds to it alone. -/
theorem countOf_addResolved (verdict v : Option String) (n : ℕ) (resolved : Bool)
    (tallies : List VerdictTally) : countOf (isTallyOf v resolved) (addResolved verdict n tallies) =
      countOf (isTallyOf v resolved) tallies + if v = verdict ∧ resolved = true then n else 0 := by
  unfold addResolved
  split
  · next hany =>
    obtain ⟨t, ht⟩ := Option.isSome_iff_exists.mp (List.find?_isSome.mpr (List.any_eq_true.mp hany))
    have hupdate := countOf_updateFirst (isTallyOf v resolved) (isTallyOf verdict true)
      (fun t => { t with count := t.count + n }) ht
    obtain ⟨hverdict, hresolved⟩ := isTallyOf_iff.mp (List.find?_some ht)
    by_cases hv : v = verdict ∧ resolved = true
    · have hmine : isTallyOf v resolved t = true := isTallyOf_iff.mpr
        ⟨hverdict.trans hv.1.symm, hresolved.trans hv.2.symm⟩
      rw [if_pos hmine, if_pos (show isTallyOf v resolved { t with count := t.count + n } = true from hmine)]
        at hupdate
      dsimp only at hupdate
      rw [if_pos hv]
      omega
    · have hother : ¬isTallyOf v resolved t = true := fun hmine =>
        hv ⟨(isTallyOf_iff.mp hmine).1.symm.trans hverdict, (isTallyOf_iff.mp hmine).2.symm.trans hresolved⟩
      rw [if_neg hother,
        if_neg (show ¬isTallyOf v resolved { t with count := t.count + n } = true from hother)] at hupdate
      rw [if_neg hv]
      exact hupdate
  · rw [countOf_append, countOf_cons, countOf_nil, add_zero]
    have hkey : isTallyOf v resolved ⟨verdict, true, n⟩ = true ↔ v = verdict ∧ resolved = true := by
      rw [isTallyOf_iff]
      exact and_congr eq_comm eq_comm
    by_cases hv : v = verdict ∧ resolved = true
    · rw [if_pos (hkey.mpr hv), if_pos hv]
    · rw [if_neg (mt hkey.mp hv), if_neg hv]

theorem onePerKey_addResolved {tallies : List VerdictTally} (h : OnePerKey tallies)
    (verdict : Option String) (n : ℕ) : OnePerKey (addResolved verdict n tallies) := by
  unfold addResolved
  split
  · exact onePerKey_updateFirst _ (by simp) h
  · next hnone =>
    rw [OnePerKey, List.map_append, List.nodup_append]
    refine ⟨h, List.nodup_singleton _, ?_⟩
    rintro key hkey _ hmem rfl
    obtain rfl := List.mem_singleton.mp hmem
    obtain ⟨t, ht, heq⟩ := List.mem_map.mp hkey
    obtain ⟨hverdict, hresolved⟩ := Prod.mk.inj heq
    exact hnone (List.any_eq_true.mpr ⟨t, ht, isTallyOf_iff.mpr ⟨hverdict, hresolved⟩⟩)

/-- **What a move does**: it never counts below zero, takes what it adds to the resolved tally off the
open one, and leaves every other verdict. -/
theorem moveToResolved_spec (tallies : List VerdictTally) (verdict : Option String) (n : ℕ) :
    ∃ tallies' moved, moveToResolved tallies verdict n = some tallies' ∧ moved ≤ n ∧
      (OnePerKey tallies → OnePerKey tallies' ∧
        moved = min n (countOf (isTallyOf verdict false) tallies)) ∧
      ∀ v, countOf (isTallyOf v false) tallies' + (if v = verdict then moved else 0) =
          countOf (isTallyOf v false) tallies ∧
        countOf (isTallyOf v true) tallies' =
          countOf (isTallyOf v true) tallies + if v = verdict then moved else 0 := by
  unfold moveToResolved
  cases hfind : tallies.find? (isTallyOf verdict false) with
  | none =>
    refine ⟨tallies, 0, rfl, Nat.zero_le n, fun hkeys => ⟨hkeys, ?_⟩, fun v => by simp⟩
    rw [countOf_find hkeys, hfind, Option.elim_none, Nat.min_zero]
  | some t =>
    have hsub : checkedSub t.count (min n t.count) = some (t.count - min n t.count) :=
      if_pos (Nat.min_le_right _ _)
    dsimp only
    rw [hsub, Option.map_some]
    refine ⟨_, min n t.count, rfl, Nat.min_le_left _ _, fun hkeys => ⟨?_, ?_⟩, fun v => ?_⟩
    · exact onePerKey_addResolved (onePerKey_updateFirst _ (by simp) hkeys) _ _
    · rw [countOf_find hkeys, hfind, Option.elim_some]
    · obtain ⟨hverdict, hresolved⟩ := isTallyOf_iff.mp (List.find?_some hfind)
      have hopen := countOf_updateFirst (isTallyOf v false) (isTallyOf verdict false)
        (fun t' => { t' with count := t.count - min n t.count }) hfind
      have hclosed := countOf_updateFirst (isTallyOf v true) (isTallyOf verdict false)
        (fun t' => { t' with count := t.count - min n t.count }) hfind
      have hnot : ∀ count, ¬isTallyOf v true { t with count } = true := fun count hmine => by
        have hmine := (isTallyOf_iff.mp hmine).2
        rw [show ({ t with count } : VerdictTally).resolved = t.resolved from rfl, hresolved] at hmine
        cases hmine
      rw [if_neg (hnot t.count), if_neg (hnot _)] at hclosed
      rw [countOf_addResolved, countOf_addResolved]
      by_cases hv : v = verdict
      · have hmine : ∀ count, isTallyOf v false { t with count } = true := fun count =>
          isTallyOf_iff.mpr ⟨hverdict.trans hv.symm, hresolved⟩
        rw [if_pos (hmine t.count), if_pos (hmine _)] at hopen
        rw [if_neg (by simp), if_pos hv, if_pos ⟨hv, rfl⟩]
        have hle : min n t.count ≤ t.count := Nat.min_le_right _ _
        dsimp only at hopen hclosed
        omega
      · have hother : ∀ count, ¬isTallyOf v false { t with count } = true := fun count hmine =>
          hv ((isTallyOf_iff.mp hmine).1.symm.trans hverdict)
        rw [if_neg (hother t.count), if_neg (hother _)] at hopen
        rw [if_neg (by simp), if_neg hv, if_neg fun h => hv h.1]
        omega

/-- A move keeps the edges of every verdict. -/
theorem total_moveToResolved (tallies : List VerdictTally) (verdict : Option String) (n : ℕ) :
    ∃ tallies', moveToResolved tallies verdict n = some tallies' ∧
      ∀ v, totalOf v tallies' = totalOf v tallies := by
  obtain ⟨tallies', moved, hmove, -, -, hcount⟩ := moveToResolved_spec tallies verdict n
  refine ⟨tallies', hmove, fun v => ?_⟩
  obtain ⟨hopen, hresolved⟩ := hcount v
  unfold totalOf
  omega

theorem moveEach_cons (tallies : List VerdictTally) (row : Option String × ℕ)
    (reverse : List (Option String × ℕ)) : moveEach tallies (row :: reverse) =
      (moveToResolved tallies row.1 row.2).bind fun tallies => moveEach tallies reverse :=
  List.foldlM_cons

/-- So do all moves, whatever the rows say. -/
theorem total_moveEach (tallies : List VerdictTally) (reverse : List (Option String × ℕ)) :
    ∃ tallies', moveEach tallies reverse = some tallies' ∧
      ∀ v, totalOf v tallies' = totalOf v tallies := by
  induction reverse generalizing tallies with
  | nil => exact ⟨tallies, rfl, fun _ => rfl⟩
  | cons row reverse ih =>
    obtain ⟨next, hmove, htotal⟩ := total_moveToResolved tallies row.1 row.2
    obtain ⟨tallies', hrest, htotal'⟩ := ih next
    refine ⟨tallies', ?_, fun v => (htotal' v).trans (htotal v)⟩
    rw [moveEach_cons, hmove]
    exact hrest

theorem counted_cons (v : Option String) (row : Option String × ℕ) (rows : List (Option String × ℕ)) :
    counted (fun k => decide (k = v)) (row :: rows) =
      (if v = row.1 then row.2 else 0) + counted (fun k => decide (k = v)) rows := by
  unfold counted
  by_cases hv : v = row.1
  · rw [List.filter_cons_of_pos (by simp [hv]), if_pos hv, List.map_cons, List.sum_cons]
  · rw [List.filter_cons_of_neg (by simpa using Ne.symm hv), if_neg hv, zero_add]

/-- Where the open tallies hold what the rows say, exactly that much moves. -/
theorem moveEach_spec {tallies : List VerdictTally} {reverse : List (Option String × ℕ)}
    (htallies : OnePerKey tallies) (hreverse : (reverse.map Prod.fst).Nodup)
    (hle : ∀ row ∈ reverse, row.2 ≤ countOf (isTallyOf row.1 false) tallies) :
    ∃ tallies', moveEach tallies reverse = some tallies' ∧
      ∀ v, countOf (isTallyOf v false) tallies' + counted (fun k => decide (k = v)) reverse =
          countOf (isTallyOf v false) tallies ∧
        countOf (isTallyOf v true) tallies' =
          countOf (isTallyOf v true) tallies + counted (fun k => decide (k = v)) reverse := by
  induction reverse generalizing tallies with
  | nil => exact ⟨tallies, rfl, fun _ => ⟨rfl, rfl⟩⟩
  | cons row reverse ih =>
    obtain ⟨hnew, hrest⟩ := List.nodup_cons.mp hreverse
    obtain ⟨next, moved, hmove, -, hkeys, hcount⟩ := moveToResolved_spec tallies row.1 row.2
    obtain ⟨hnext, hmoved⟩ := hkeys htallies
    have hfull : moved = row.2 := hmoved.trans (Nat.min_eq_left (hle row List.mem_cons_self))
    have hle' : ∀ row' ∈ reverse, row'.2 ≤ countOf (isTallyOf row'.1 false) next := by
      intro row' hrow'
      have hother : row'.1 ≠ row.1 := fun heq => hnew (heq ▸ List.mem_map_of_mem hrow')
      have hsame := (hcount row'.1).1
      rw [if_neg hother, add_zero] at hsame
      rw [hsame]
      exact hle row' (List.mem_cons_of_mem _ hrow')
    obtain ⟨tallies', hrun, hspec⟩ := ih hnext hrest hle'
    refine ⟨tallies', ?_, fun v => ?_⟩
    · rw [moveEach_cons, hmove]
      exact hrun
    · obtain ⟨hopen, hresolved⟩ := hspec v
      obtain ⟨hopen', hresolved'⟩ := hcount v
      rw [counted_cons, ← hfull]
      omega

end Bridge

/-! ### What the queries say of a graph -/

namespace Graph

variable (g : Graph)

/-- No stamp on the edge, and neither endpoint superseded. -/
def directlyOpen (p : MatchedEdge) : Bool :=
  p.e.stamp.resolution.isNone && (g.indegree p.a = 0 && g.indegree p.b = 0)

/-- A stamp on the reverse edge. -/
def reverseStamped (p : MatchedEdge) : Bool :=
  (g.contradicts p.b p.a).any fun s => s.stamp.resolution.isSome

theorem mem_matchContradicts {p : MatchedEdge} :
    p ∈ g.matchContradicts ↔ g.contradicts p.a p.b = some p.e := by
  simp only [matchContradicts, List.mem_flatMap, Finset.mem_sort, List.mem_filterMap,
    Option.map_eq_some_iff]
  constructor
  · rintro ⟨a, -, b, -, e, hlink, rfl⟩
    exact hlink
  · intro hlink
    obtain ⟨ha, hb⟩ := g.contradicts_nodes p.a p.b (Option.isSome_of_eq_some hlink)
    exact ⟨p.a, ha, p.b, hb, p.e, hlink, rfl⟩

/-- Every edge is matched once. -/
theorem nodup_matchContradicts : g.matchContradicts.Nodup := by
  have hhashes : (g.nodes.sort (· ≤ ·)).Nodup := Finset.sort_nodup _ _
  refine List.nodup_flatMap.mpr ⟨fun a _ => ?_, hhashes.imp fun {a a'} hne => ?_⟩
  · refine hhashes.filterMap fun b b' p hb hb' => ?_
    obtain ⟨e, -, rfl⟩ := Option.map_eq_some_iff.mp hb
    obtain ⟨e', -, heq⟩ := Option.map_eq_some_iff.mp hb'
    exact (congrArg MatchedEdge.b heq).symm
  · rintro p hp hp'
    obtain ⟨b, -, hb⟩ := List.mem_filterMap.mp hp
    obtain ⟨b', -, hb'⟩ := List.mem_filterMap.mp hp'
    obtain ⟨e, -, rfl⟩ := Option.map_eq_some_iff.mp hb
    obtain ⟨e', -, heq⟩ := Option.map_eq_some_iff.mp hb'
    exact hne (congrArg MatchedEdge.a heq).symm

theorem holds_directlyResolved (p : MatchedEdge) :
    g.directlyResolved p = some !g.directlyOpen p := by
  unfold directlyResolved directlyOpen Ternary.isNull
  simp only [Ternary.not_some, Ternary.or_some, Nat.pos_iff_ne_zero, decide_not, Bool.not_and,
    Bool.or_assoc]

theorem holds_notReverseStamped (p : MatchedEdge) :
    (Resolution.all.map (g.notReverseStamped p)).all Ternary.holds = !g.reverseStamped p := by
  unfold notReverseStamped reverseStamped
  cases g.contradicts p.b p.a with
  | none => simp [Ternary.not]
  | some s =>
    cases hstamp : s.stamp.resolution with
    | none => simp [Ternary.not, hstamp]
    | some r =>
      have hr := Resolution.mem_all r
      simp only [Option.any_some, hstamp, Option.isSome_some, Bool.not_true, List.all_map,
        List.all_eq_false, Function.comp_apply]
      exact ⟨r, hr, by simp [Ternary.not]⟩

/-- The clauses of the queue leave the edges the counts call open and no reverse stamp settles. -/
theorem holds_openClauses (p : MatchedEdge) :
    (g.openClauses p).all Ternary.holds = (g.directlyOpen p && !g.reverseStamped p) := by
  rw [openClauses, List.all_append, holds_notReverseStamped, directlyOpen]
  cases hstamp : p.e.stamp.resolution <;> simp

/-- **The reverse-stamped query lists the edges that the counts call open and the queue does not.** -/
theorem perm_reverseStampedEdges : g.reverseStampedEdges.Perm
    (g.matchContradicts.filter fun p => g.directlyOpen p && g.reverseStamped p) := by
  refine (List.perm_ext_iff_of_nodup (List.nodup_dedup _) (g.nodup_matchContradicts.filter _)).mpr
    fun p => ?_
  have hreverse : (∃ s, (s ∈ g.matchContradicts ∧ s.e.stamp.resolution.isSome) ∧
      (g.contradicts s.b s.a).map (fun e => (⟨s.b, s.a, e⟩ : MatchedEdge)) = some p) ↔
      g.contradicts p.a p.b = some p.e ∧ g.reverseStamped p := by
    constructor
    · rintro ⟨s, ⟨hs, hstamp⟩, hp⟩
      obtain ⟨e, hlink, rfl⟩ := Option.map_eq_some_iff.mp hp
      refine ⟨hlink, ?_⟩
      rw [reverseStamped, g.mem_matchContradicts.mp hs]
      exact hstamp
    · rintro ⟨hlink, hstamp⟩
      rw [reverseStamped, Option.any_eq_true] at hstamp
      obtain ⟨s, hs, hstamp⟩ := hstamp
      exact ⟨⟨p.b, p.a, s⟩, ⟨g.mem_matchContradicts.mpr hs, hstamp⟩, by rw [hlink]; rfl⟩
  have hin : ∀ s : MatchedEdge, (Ternary.isIn s.e.stamp.resolution Resolution.all).holds =
      s.e.stamp.resolution.isSome := by
    intro s
    cases hstamp : s.e.stamp.resolution with
    | none => rfl
    | some r => exact decide_eq_true (Resolution.mem_all r)
  have hwhere : (Ternary.all [Ternary.isNull p.e.stamp.resolution, some (decide (g.indegree p.a = 0)),
      some (decide (g.indegree p.b = 0))]).holds = g.directlyOpen p := by
    simp [Ternary.holds_all, directlyOpen]
  simp only [List.mem_dedup, List.mem_filter, List.mem_filterMap, hin, hwhere,
    hreverse, Bool.and_eq_true]
  rw [mem_matchContradicts, and_assoc, and_comm (a := g.reverseStamped p = true)]

theorem mem_matchedContradictions {q : ContradictionQuery} {p : MatchedEdge} :
    p ∈ g.matchedContradictions q ↔
      g.contradicts p.a p.b = some p.e ∧ (g.queueClauses q p).all Ternary.holds := by
  rw [matchedContradictions, List.mem_mergeSort, List.mem_filter, mem_matchContradicts,
    Ternary.holds_all]

theorem contradictionOf_eq {p : MatchedEdge} (ha : p.a ≠ "") (hb : p.b ≠ "") :
    Bridge.contradictionOf p = some (Bridge.contradictionRow p) := by
  have hne : ∀ {s : String}, s ≠ "" → s.isEmpty = false := by
    intro s hs
    rw [← Bool.not_eq_true, String.isEmpty_iff]
    exact hs
  rw [Bridge.contradictionOf, hne ha, hne hb]
  rfl

/-- **The handler drops no row of a page** of edges with the hashes of both endpoints. -/
theorem all_eq_map_of {q : ContradictionQuery}
    (h : ∀ p ∈ g.matchedContradictions q, p.a ≠ "" ∧ p.b ≠ "") :
    Bridge.all g q = (g.getAllContradictions q).map Bridge.contradictionRow := by
  have hpage : ∀ p ∈ g.getAllContradictions q,
      Bridge.contradictionOf p = some (Bridge.contradictionRow p) := by
    intro p hp
    obtain ⟨ha, hb⟩ := h p (List.mem_of_mem_drop (List.mem_of_mem_take hp))
    exact contradictionOf_eq ha hb
  rw [Bridge.all, List.filterMap_congr hpage, List.filterMap_eq_map']

/-- No edge is matched without the hash of an endpoint. -/
theorem all_eq_map (hnodes : "" ∉ g.nodes) (q : ContradictionQuery) :
    Bridge.all g q = (g.getAllContradictions q).map Bridge.contradictionRow := by
  refine g.all_eq_map_of fun p hp => ?_
  obtain ⟨ha, hb⟩ := g.contradicts_nodes p.a p.b
    (Option.isSome_of_eq_some (g.mem_matchedContradictions.mp hp).1)
  exact ⟨fun h => hnodes (h ▸ ha), fun h => hnodes (h ▸ hb)⟩

/-- No two edges of the queue have the same endpoints. -/
theorem nodup_ends (q : ContradictionQuery) :
    ((g.matchedContradictions q).map fun p => (p.a, p.b)).Nodup := by
  have hmatched : (g.matchedContradictions q).Nodup :=
    (List.mergeSort_perm _ _).nodup_iff.mpr (g.nodup_matchContradicts.filter _)
  refine hmatched.map_on fun p hp p' hp' heq => ?_
  obtain ⟨ha, hb⟩ := Prod.mk.inj heq
  have hlink := (g.mem_matchedContradictions.mp hp).1
  rw [ha, hb, (g.mem_matchedContradictions.mp hp').1] at hlink
  cases p
  cases p'
  simp_all

/-- A page has one row for a pair. -/
theorem nodup_hashes (q : ContradictionQuery) :
    ((Bridge.all g q).map fun c => (c.memoryAHash, c.memoryBHash)).Nodup := by
  have hrows : ∀ l : List MatchedEdge, ((l.filterMap Bridge.contradictionOf).map fun c =>
      (c.memoryAHash, c.memoryBHash)).Sublist (l.map fun p => (p.a, p.b)) := by
    intro l
    induction l with
    | nil => exact .slnil
    | cons p l ih =>
      rw [List.filterMap_cons, List.map_cons]
      unfold Bridge.contradictionOf
      split
      · next h =>
        split at h
        · exact ih.cons _
        · cases h
      · next c h =>
        split at h
        · cases h
        · obtain rfl := Option.some.inj h
          exact ih.cons_cons _
  refine (g.nodup_ends q).sublist ((hrows _).trans (List.Sublist.map _ ?_))
  exact (List.take_sublist _ _).trans (List.drop_sublist _ _)

/-- The pages of a query one after another, from its own offset on. -/
def pages (q : ContradictionQuery) (n : ℕ) : List Contradiction :=
  (List.range n).flatMap fun i => Bridge.all g { q with skip := q.skip + i * q.pageLimit }

theorem pages_eq (hnodes : "" ∉ g.nodes) (q : ContradictionQuery) (n : ℕ) :
    g.pages q n = (((g.matchedContradictions q).drop q.skip).take (n * q.pageLimit)).map
      Bridge.contradictionRow := by
  rw [← pages_eq_take, List.map_flatMap, pages]
  refine List.flatMap_congr fun i _ => ?_
  rw [g.all_eq_map hnodes, getAllContradictions, page, page, List.drop_drop]
  rfl

/-- **The pages up to one that is not full are the queue from the offset on.** -/
theorem pages_of_short (hnodes : "" ∉ g.nodes) {q : ContradictionQuery} {n : ℕ}
    (h : (Bridge.all g { q with skip := q.skip + n * q.pageLimit }).length < q.pageLimit) :
    g.pages q (n + 1) = ((g.matchedContradictions q).drop q.skip).map Bridge.contradictionRow := by
  rw [g.pages_eq hnodes]
  congr 1
  refine List.take_of_length_le ?_
  rw [g.all_eq_map hnodes, List.length_map, getAllContradictions, page, List.length_take,
    List.length_drop] at h
  rw [List.length_drop, Nat.succ_mul]
  change min q.pageLimit ((g.matchedContradictions q).length - (q.skip + n * q.pageLimit)) <
    q.pageLimit at h
  omega

end Graph

end Alaya
