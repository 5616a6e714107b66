import Alaya.Backends.Rerank
import Alaya.Search.Visibility
import Mathlib.Tactic.NormNum

/-!
# The ranking of a hybrid search

A dense and a keyword pool are fused by rank, the neighbours the graph activates are injected behind them, a
cross-encoder reorders the first candidates, and the boosts decide the order of the rest.  The ranked list holds
every admitted candidate once, the reranked ones first (`ranked_once`).

Scores are rationals, so none is NaN; the logarithm, the exponential and the square root are parameters.
-/

namespace Alaya

open Json

/-! ### Boosts -/

/-- What the scores take from the mathematical library. -/
structure Libm where
  ln : ℚ → ℚ
  exp : ℚ → ℚ
  sqrt : ℚ → ℚ

/-- Runtime switches for the hybrid boosts that feed on popularity and age. -/
structure RankingSwitches where
  graph : Bool
  accessSalience : Bool
  spacing : Bool
  decayExemptTypes : List String

namespace Ranking

def boostSalience : ℚ := 0.15
def boostSpacing : ℚ := 0.10
def boostContext : ℚ := 0.10
def boostSummary : ℚ := 0.15
def recencyDecayLambda : ℚ := 0.01
def boostGraphActivation : ℚ := 0.10
def boostHebbian : ℚ := 0.10
def boostTrust : ℚ := 0.15
def scoreCap : ℚ := 1.5
def rrfBlendWeight : ℚ := 0.4
def defaultTrustScore : ℚ := 0.5

def clamp01 (q : ℚ) : ℚ := max 0 (min 1 q)

def number (o : Option Object) (key : String) : Option ℚ :=
  (o.bind fun o => Object.get o key).bind Value.asF64

def computeSalience (lib : Libm) (emotional : ℚ) (accessCount : ℕ) (importance : ℚ) : ℚ :=
  clamp01 (0.3 * emotional + 0.3 * (lib.ln (1 + accessCount) / lib.ln 101) + 0.4 * importance)

/-- Quality of the intervals between accesses, from their coefficient of variation. -/
def computeSpacingQuality (lib : Libm) (timestamps : List ℚ) : ℚ :=
  if timestamps.length < 2 then 0
  else
    let sorted := timestamps.mergeSort fun a b => a ≤ b
    let intervals : List ℚ := (sorted.zip sorted.tail).map fun w => w.2 - w.1
    let mean : ℚ := intervals.sum / intervals.length
    if mean ≤ 0 then 0
    else
      let variance : ℚ := (intervals.map fun i => (i - mean) * (i - mean)).sum / intervals.length
      clamp01 (1 - lib.sqrt variance / mean / 2)

/-- Similarity of two encoding contexts: the fields both carry, and the overlap of their tags. -/
def computeContextSimilarity (stored current : Object) : ℚ :=
  let shared := ["time_of_day", "day_type", "agent"].filterMap fun field =>
    (Object.get stored field).bind fun s => (Object.get current field).map fun c => decide (s = c)
  let overlap := ((Object.get stored "task_tags").bind Value.asArray).bind fun s =>
    ((Object.get current "task_tags").bind Value.asArray).map fun c =>
      let s := (s.filterMap Value.asStr).dedup
      let c := (c.filterMap Value.asStr).dedup
      let union : ℕ := (s ++ c).dedup.length
      if 0 < union then ((s.filter fun tag => tag ∈ c).length / union : ℚ) else 0
  let total : ℚ := shared.length + if overlap.isSome then 1 else 0
  if total = 0 then 0 else ((shared.filter fun same => same).length + overlap.getD 0) / total

def cosineSimilarity (lib : Libm) (a b : List ℚ) : ℚ :=
  if a.length ≠ b.length ∨ a = [] then 0
  else
    let dot := ((a.zip b).map fun p => p.1 * p.2).sum
    let normA := lib.sqrt (a.map fun x => x * x).sum
    let normB := lib.sqrt (b.map fun x => x * x).sum
    if normA = 0 ∨ normB = 0 then 0 else dot / (normA * normB)

def applyRecencyDecay (lib : Libm) (score createdAt now decayRate : ℚ) : ℚ :=
  let daysOld := (now - createdAt) / 86400
  if daysOld ≤ 0 then score else score * lib.exp (-decayRate * daysOld)

/-- What a search brings to the boosts. -/
structure RankQuery where
  lib : Libm
  switches : RankingSwitches
  embedding : List ℚ
  encodingContext : Option Object
  /-- The time recency is reckoned from. -/
  rankTime : ℚ

/-- The boosts a memory's own fields give its score. -/
def boosted (q : RankQuery) (m : Memory) (score : ℚ) : ℚ :=
  let salience := computeSalience q.lib ((number m.emotionalValence "sentiment").getD 0)
    (if q.switches.accessSalience then m.accessCount.toNat else 0) ((number m.metadata "importance").getD 0)
  let score := score * (1 + boostSalience * salience)
  let trust := match m.provenance with
    | some p => (number (some p) "trust_score").getD defaultTrustScore
    | none => defaultTrustScore
  let score := score * (1 + boostTrust * trust)
  let score := if q.switches.spacing then
    score * (1 + boostSpacing * computeSpacingQuality q.lib m.accessTimestamps) else score
  let score := match m.encodingContext, q.encodingContext with
    | some stored, some current => score * (1 + boostContext * computeContextSimilarity stored current)
    | _, _ => score
  let score := match m.summaryEmbedding with
    | some summary =>
      let sim := cosineSimilarity q.lib q.embedding summary
      if 0 < sim then score * (1 + boostSummary * sim) else score
    | none => score
  if m.memoryType ∈ q.switches.decayExemptTypes then score
  else applyRecencyDecay q.lib score m.createdAt q.rankTime recencyDecayLambda

/-! ### Fusion -/

/-- A candidate: its fused score and the score it is displayed with. -/
structure Fused where
  hash : String
  rrf : ℚ
  display : ℚ
  deriving DecidableEq

/-- The order in which a table of hashes is iterated: any. -/
structure TableOrder where
  order : List String → List String
  perm : ∀ hashes, (order hashes).Perm hashes

/-- Display score of a keyword-only hit. -/
def keywordOnlyBaseScore : ℚ := 0.02

def rrfK : ℕ := 20

def getAdaptiveAlpha (corpusSize : ℕ) : ℚ :=
  if corpusSize < 500 then 0.72 else if corpusSize < 5000 then 0.7 else 0.8

def rrfScore (rank k : ℕ) : ℚ := 1 / ((k + rank : ℕ) : ℚ)

/-- The rank and the score of a hash in the vector pool: where it is repeated, the last. -/
def vectorRank (results : List (String × ℚ)) (hash : String) : Option (ℕ × ℚ) :=
  (results.zipIdx.reverse.find? fun p => p.1.1 = hash).map fun p => (p.2 + 1, p.1.2)

/-- The keyword score of a hash at its first rank. -/
def keywordRrf (results : List (String × ℚ)) (k : ℕ) (hash : String) : Option ℚ :=
  (results.zipIdx.find? fun p => p.1.1 = hash).map fun p => rrfScore (p.2 + 1) k

def combineResultsRrf (table : TableOrder) (vectorResults keywordResults : List (String × ℚ)) (alpha : ℚ) (k : ℕ) :
    List Fused :=
  let allHashes := table.order ((vectorResults ++ keywordResults).map Prod.fst).dedup
  let results := allHashes.map fun hash =>
    let vRrf := ((vectorRank vectorResults hash).map fun r => rrfScore r.1 k).getD 0
    let kwRrf := (keywordRrf keywordResults k hash).getD 0
    { hash, rrf := alpha * vRrf + (1 - alpha) * kwRrf
      display := ((vectorRank vectorResults hash).map Prod.snd).getD keywordOnlyBaseScore : Fused }
  results.mergeSort fun a b => b.rrf ≤ a.rrf

def tuples (pool : List ScoredMemory) : List (String × ℚ) := pool.map fun sm => (sm.memory.contentHash, sm.score)

/-- The memory of a hash: the last of the vector pool, else the first of the others. -/
def memoryMap (vector bm25 injected : List ScoredMemory) (hash : String) : Option ScoredMemory :=
  (vector.reverse ++ bm25 ++ injected).find? fun sm => sm.memory.contentHash = hash

/-! ### Injection -/

/-- What the graph activates around the seeds. -/
structure Activations where
  entries : List (String × ℚ)
  keys : (entries.map Prod.fst).Nodup

/-- The activated memories in the order the table is iterated. -/
def Activations.iterate (spreading : Activations) (table : TableOrder) : List (String × ℚ) :=
  (table.order (spreading.entries.map Prod.fst)).filterMap fun h => (spreading.entries.lookup h).map fun a => (h, a)

/-- Activated neighbours not among the candidates, strongest first. -/
def injectCandidates (table : TableOrder) (spreading : Activations) (fused : List Fused) : List (String × ℚ) :=
  ((spreading.iterate table).filter fun p => p.1 ∉ fused.map Fused.hash).mergeSort fun a b => b.2 ≤ a.2

/-- The floor of an injected score.  With no candidate there is no seed, and nothing is injected. -/
def minExisting (fused : List Fused) : ℚ := max ((fused.map Fused.display).min?.getD 0.1) 0.1

def maxInjected : ℕ := 10

/-- The first of the candidates that are stored and admitted.  Each candidate takes its memory out of the batch; no
two have one hash. -/
def pickNeighbors (admits : Memory → Bool) (floor : ℚ) (memories : List Memory) (candidates : List (String × ℚ)) :
    List ScoredMemory :=
  let found := candidates.filterMap fun p => (MemoryService.lookupMemory memories p.1).map fun m => (m, p.2)
  ((found.filter fun p => admits p.1).take maxInjected).map fun p => ⟨p.1, max floor p.2⟩

/-- The memories of the candidates, and when their survivors were created. -/
def readNeighbors (getBatch : List String → Except AlayaError (List Memory)) (vis : Visibility)
    (hashes : List String) : Except AlayaError (List Memory × (String → Option ℚ)) := do
  let memories ← getBatch hashes
  let survivors ← MemoryService.survivorTimes getBatch vis memories
  return (memories, survivors)

/-- The neighbours to inject; a failed read skips the injection. -/
def injectNeighbors (table : TableOrder) (getBatch : List String → Except AlayaError (List Memory)) (vis : Visibility)
    (admits : Memory → (String → Option ℚ) → Bool) (spreading : Activations) (fused : List Fused) :
    List ScoredMemory :=
  let candidates := injectCandidates table spreading fused
  if candidates.isEmpty then []
  else match readNeighbors getBatch vis (candidates.map Prod.fst) with
    | .error _ => []
    | .ok (memories, survivors) => pickNeighbors (admits · survivors) (minExisting fused) memories candidates

/-! ### Rerank -/

structure RerankItem where
  index : ℕ
  score : ℚ

/-- Place one score; `seen` are the indices placed. -/
def placeItem (n : ℕ) (placed : List ℚ × List ℕ) (item : RerankItem) : Except AlayaError (List ℚ × List ℕ) :=
  if n ≤ item.index then
    .error (.rerank ("rerank index " ++ toString item.index ++ " out of range for " ++ toString n ++ " texts"))
  else if item.index ∈ placed.2 then
    .error (.rerank ("rerank returned duplicate index " ++ toString item.index ++ " (would silently overwrite)"))
  else .ok (placed.1.set item.index item.score, item.index :: placed.2)

/-- The scores of `n` texts in their order. -/
def rerankScores (n : ℕ) (parsed : List RerankItem) : Except AlayaError (List ℚ) :=
  if parsed.length ≠ n then
    .error (.rerank ("rerank returned " ++ toString parsed.length ++ " scores for " ++ toString n ++ " texts"))
  else (parsed.foldlM (placeItem n) (List.replicate n 0, [])).map Prod.fst

/-- A cross-encoder, and how its endpoint answers a query and its texts; `none` past the budget. -/
structure Reranker where
  topN : ℕ
  answer : String → List String → Option (Except AlayaError (List RerankItem))

/-- How a rerank pass ended. -/
inductive Rerank where
  | notConfigured
  | noCandidates
  | ran
  | fellBack (why : String)
  deriving DecidableEq

def Reranker.rerank (reranker : Reranker) (query : String) (texts : List String) :
    Option (Except AlayaError (List ℚ)) :=
  if texts.isEmpty then some (.ok [])
  else (reranker.answer query texts).map fun answer => answer.bind (rerankScores texts.length)

/-- The first candidates in the order of their scores, the rest behind them, and the score of each. -/
def spliceScores (scores : List ℚ) (topN : ℕ) (fused : List Fused) : List (String × ℚ) × List Fused :=
  let topWithScores := ((fused.take topN).zip scores).mergeSort fun a b => b.2 ≤ a.2
  (topWithScores.map fun p => (p.1.hash, p.2), topWithScores.map Prod.fst ++ fused.drop topN)

def rerankStage (reranker : Option Reranker) (query : String) (contents : String → String) (fused : List Fused) :
    List (String × ℚ) × List Fused × Rerank :=
  match reranker with
  | none => ([], fused, .notConfigured)
  | some reranker =>
    let topN := min reranker.topN fused.length
    if topN = 0 then ([], fused, .noCandidates)
    else match reranker.rerank query ((fused.take topN).map fun f => contents f.hash) with
      | some (.ok scores) =>
        if scores.length = topN then
          let spliced := spliceScores scores topN fused
          (spliced.1, spliced.2, .ran)
        else ([], fused, .fellBack "score count mismatch")
      | some (.error _) => ([], fused, .fellBack "error")
      | none => ([], fused, .fellBack "timed out")

/-- The loop over the items, by the list of the indices placed. -/
theorem placeScores_eq_foldlM {n : ℕ} (items : List RerankItem) {done : List (ℕ × ℚ)} {slots : ScoreSlots ℚ}
    (h : slots.Holds n done) {seen : List ℕ} (hseen : ∀ i, i ∈ seen ↔ i ∈ done.map Prod.fst) :
    (placeScores n slots (items.map fun item => (item.index, item.score))).map
        (fun placed => placed.map ScoreSlots.scores) =
      some ((items.foldlM (placeItem n) (slots.scores, seen)).map Prod.fst) := by
  induction items generalizing done slots seen with
  | nil => rfl
  | cons item items ih =>
    rw [List.map_cons, List.foldlM_cons]
    unfold placeScores placeItem
    rcases placeScore_spec h (item.index, item.score) with
      ⟨hrange, hplace⟩ | ⟨hlt, htaken, hplace⟩ | ⟨hlt, hfresh, hplace⟩
    · rw [hplace, if_pos hrange]
      rfl
    · rw [hplace, if_neg (not_le.mpr hlt), if_pos ((hseen item.index).mpr htaken)]
      rfl
    · rw [hplace, if_neg (not_le.mpr hlt), if_neg (fun hmem => hfresh ((hseen item.index).mp hmem))]
      refine ih (h.place hlt hfresh) fun i => ?_
      rw [List.mem_cons, hseen i, List.map_append, List.mem_append, List.map_singleton, List.mem_singleton, or_comm]

/-- What the ranking takes for the scores of an answer is what the client computes. -/
theorem remapScores_eq_rerankScores (n : ℕ) (items : List RerankItem) :
    remapScores n 0 (items.map fun item => (item.index, item.score)) = some (rerankScores n items) := by
  unfold remapScores rerankScores
  rw [List.length_map]
  split
  · rfl
  · exact placeScores_eq_foldlM items (.start n 0) fun i => Iff.rfl

/-! ### The ranked list -/

/-- The score a hash was given by the cross-encoder. -/
def scoreOf (scores : List (String × ℚ)) (hash : String) : Option ℚ :=
  (scores.reverse.find? fun p => p.1 = hash).map Prod.snd

/-- The greatest fused score: it is scaled to one. -/
def maxRrf (fused : List Fused) : ℚ := max ((fused.map Fused.rrf).foldl max 0) 1e-9

/-- The score of a candidate: the cross-encoder's, or else the blend of its fused and its displayed score, boosted
and capped. -/
def finalScore (q : RankQuery) (memories : String → Option ScoredMemory) (activation hebbian : String → Option ℚ)
    (rerankScores : List (String × ℚ)) (maxRrf : ℚ) (f : Fused) : ℚ :=
  let score := (scoreOf rerankScores f.hash).getD
    (rrfBlendWeight * (f.rrf / maxRrf) + (1 - rrfBlendWeight) * f.display)
  let score := (memories f.hash).elim score fun sm => boosted q sm.memory score
  let score := (activation f.hash).elim score fun a => score * (1 + boostGraphActivation * a)
  let score := (hebbian f.hash).elim score fun b => score * (1 + boostHebbian * b)
  min score scoreCap

/-- Reranked entries first, then by score. -/
def sortKey (rerankScores : List (String × ℚ)) (p : String × ℚ) : Boolᵒᵈ ×ₗ ℚᵒᵈ :=
  toLex (OrderDual.toDual (scoreOf rerankScores p.1).isSome, OrderDual.toDual p.2)

/-- What a search asks the graph and the cross-encoder. -/
structure Signals where
  spreading : List String → Activations
  hebbian : List String → String → Option ℚ
  reranker : Option Reranker

/-- What a hybrid search is asked for. -/
structure HybridParams where
  query : String
  page : ℕ
  pageSize : ℕ
  memoryType : Option String
  minTrustScore : Option ℚ
  minSimilarity : Option ℚ
  includeSuperseded : Bool
  encodingContext : Option Object

/-- A memory without a stored score never meets a bound. -/
def meetsTrust (m : Memory) (min : ℚ) : Bool := (number m.provenance "trust_score").any fun t => min ≤ t

def HybridParams.admits (params : HybridParams) (vis : Visibility) (m : Memory) (survivors : String → Option ℚ) :
    Bool :=
  vis.shows m survivors && (params.memoryType.all fun t => m.memoryType = t) &&
    params.minTrustScore.all (meetsTrust m)

/-- A ranked list, with what was injected and reranked on the way. -/
structure Ranked where
  results : List (String × ℚ)
  memories : String → Option ScoredMemory
  injected : List ScoredMemory
  rerankScores : List (String × ℚ)
  rerank : Rerank

def seedCount : ℕ := 5
def boostedCount : ℕ := 20

/-- The bridge activates nothing without a seed. -/
def activate (q : RankQuery) (signals : Signals) (fused : List Fused) : Activations :=
  let seeds := ((fused.take boostedCount).map Fused.hash).take seedCount
  if q.switches.graph ∧ seeds ≠ [] then signals.spreading seeds else ⟨[], List.nodup_nil⟩

/-- An injected neighbour has no fused rank. -/
def neighborEntry (sm : ScoredMemory) : Fused := ⟨sm.memory.contentHash, 0, sm.score⟩

/-- The candidates in the order they are returned, and the scores the cross-encoder gave. -/
def orderCandidates (q : RankQuery) (reranker : Option Reranker) (query : String)
    (memories : String → Option ScoredMemory) (activation hebbian : String → Option ℚ) (fused : List Fused) :
    List (String × ℚ) × List (String × ℚ) × Rerank :=
  let contents := fun hash => (memories hash).elim "" fun sm => sm.memory.content
  let staged := rerankStage reranker query contents fused
  let scored := staged.2.1.map fun f =>
    (f.hash, finalScore q memories activation hebbian staged.1 (maxRrf staged.2.1) f)
  (scored.mergeSort fun a b => sortKey staged.1 a ≤ sortKey staged.1 b, staged.1, staged.2.2)

/-- Rank the admitted pools. -/
def rankPools (table : TableOrder) (q : RankQuery) (signals : Signals)
    (getBatch : List String → Except AlayaError (List Memory)) (params : HybridParams) (vis : Visibility) (alpha : ℚ)
    (vector bm25 : List ScoredMemory) : Ranked :=
  let fused := combineResultsRrf table (tuples vector) (tuples bm25) alpha rrfK
  let spreading := activate q signals fused
  let hebbian : String → Option ℚ := fun hash =>
    if q.switches.graph then signals.hebbian ((fused.take boostedCount).map Fused.hash) hash else none
  let injected := injectNeighbors table getBatch vis (params.admits vis) spreading fused
  let memories := memoryMap vector bm25 injected
  let ordered := orderCandidates q signals.reranker params.query memories (spreading.entries.lookup ·) hebbian
    (fused ++ injected.map neighborEntry)
  { results := ordered.1, memories, injected, rerankScores := ordered.2.1, rerank := ordered.2.2 }

/-- Admit and rank the pools a search fetched; a failed survivor lookup fails the search. -/
def rankHybrid (table : TableOrder) (q : RankQuery) (signals : Signals)
    (getBatch : List String → Except AlayaError (List Memory)) (params : HybridParams) (vis : Visibility) (alpha : ℚ)
    (vector bm25 : List ScoredMemory) : Except AlayaError Ranked := do
  let survivors ← MemoryService.survivorTimes getBatch vis ((vector ++ bm25).map ScoredMemory.memory)
  let admitted := fun pool : List ScoredMemory => pool.filter fun sm => params.admits vis sm.memory survivors
  return rankPools table q signals getBatch params vis alpha (admitted vector) (admitted bm25)

/-! ### What a ranking is made of -/

/-- The pool that is ranked. -/
def HybridParams.admitted (params : HybridParams) (vis : Visibility) (survivors : String → Option ℚ)
    (pool : List ScoredMemory) : List ScoredMemory :=
  pool.filter fun sm => params.admits vis sm.memory survivors

/-- The memories that the graph answers around the first of the candidates `listed`. -/
def Signals.around (signals : Signals) (graph : Bool) (listed : List String) : List (String × ℚ) :=
  if graph = true ∧ listed ≠ [] then (signals.spreading (listed.take seedCount)).entries else []

/-- **Which neighbours are injected** behind the candidates `listed`: of the activated memories that are none of them,
the strongest first, those that are stored and are admitted as they are read, ten at most; none where the read fails. -/
structure InjectedFrom (getBatch : List String → Except AlayaError (List Memory)) (vis : Visibility)
    (admits : Memory → (String → Option ℚ) → Bool) (activated : List (String × ℚ)) (listed : List String)
    (neighbours : List (String × ℚ)) (injected : List ScoredMemory) : Prop where
  fresh : neighbours.Perm (activated.filter fun p => p.1 ∉ listed)
  strongest : neighbours.Pairwise fun p p' => p'.2 ≤ p.2
  read : ∀ memories survivors, getBatch (neighbours.map Prod.fst) = .ok memories →
    MemoryService.survivorTimes getBatch vis memories = .ok survivors →
    injected.map ScoredMemory.memory = ((neighbours.filterMap fun p => MemoryService.lookupMemory memories p.1).filter
      fun m => admits m survivors).take maxInjected
  failed : (∀ memories survivors, getBatch (neighbours.map Prod.fst) = .ok memories →
    MemoryService.survivorTimes getBatch vis memories ≠ .ok survivors) → injected = []

/-- **The score a candidate receives.**  The cross-encoder is sent the texts of the first candidates of the list, and its
answer counts where it scores each of them once; the candidate's is the item at its place. -/
def Receives (reranker : Option Reranker) (query : String) (contents : String → String) (candidates : List String)
    (hash : String) (score : ℚ) : Prop :=
  ∃ rr ∈ reranker, ∃ items, rr.answer query ((candidates.take rr.topN).map contents) = some (.ok items) ∧
    (items.map RerankItem.index).Perm (List.range (candidates.take rr.topN).length) ∧
    ∃ item ∈ items, (candidates.take rr.topN)[item.index]? = some hash ∧ item.score = score

/-! ### Every candidate once -/

section

variable {table : TableOrder} {q : RankQuery} {signals : Signals} {vis : Visibility} {params : HybridParams} {alpha : ℚ}
  {getBatch : List String → Except AlayaError (List Memory)} {vector bm25 : List ScoredMemory}

/-- Fusion lists the hashes of both pools, each once. -/
theorem hashes_combineResultsRrf (table : TableOrder) (vectorResults keywordResults : List (String × ℚ)) (alpha : ℚ)
    (k : ℕ) : ((combineResultsRrf table vectorResults keywordResults alpha k).map Fused.hash).Perm
      ((vectorResults ++ keywordResults).map Prod.fst).dedup := by
  unfold combineResultsRrf
  refine ((List.mergeSort_perm _ _).map Fused.hash).trans ?_
  rw [List.map_map]
  show ((table.order _).map id).Perm _
  rw [List.map_id]
  exact table.perm _

theorem contentHash_of_lookupMemory {memories : List Memory} {h : String} {m : Memory}
    (hm : MemoryService.lookupMemory memories h = some m) : m.contentHash = h := by
  simpa using List.find?_some hm

/-- The memories found for the candidates come in their order. -/
theorem found_sublist (memories : List Memory) (candidates : List (String × ℚ)) :
    ((candidates.filterMap fun p => (MemoryService.lookupMemory memories p.1).map fun m => (m, p.2)).map
      fun p => p.1.contentHash).Sublist (candidates.map Prod.fst) := by
  induction candidates with
  | nil => exact List.Sublist.slnil
  | cons p candidates ih =>
    cases hm : MemoryService.lookupMemory memories p.1 with
    | none =>
      rw [List.filterMap_cons_none (by rw [hm]; rfl), List.map_cons]
      exact ih.cons p.1
    | some m =>
      rw [List.filterMap_cons_some (by rw [hm]; rfl), List.map_cons, List.map_cons, contentHash_of_lookupMemory hm]
      exact ih.cons_cons p.1

/-- What may be injected: activated memories that are no candidates yet, each once and admitted. -/
structure Injects (admits : Memory → (String → Option ℚ) → Bool) (spreading : Activations) (fused : List Fused)
    (injected : List ScoredMemory) : Prop where
  nodup : (injected.map fun sm => sm.memory.contentHash).Nodup
  few : injected.length ≤ maxInjected
  activated : ∀ sm ∈ injected, sm.memory.contentHash ∈ spreading.entries.map Prod.fst
  unlisted : ∀ sm ∈ injected, sm.memory.contentHash ∉ fused.map Fused.hash
  admitted : ∀ sm ∈ injected, ∃ survivors, admits sm.memory survivors = true

theorem pickNeighbors_sublist (admits : Memory → Bool) (floor : ℚ) (memories : List Memory)
    (candidates : List (String × ℚ)) :
    ((pickNeighbors admits floor memories candidates).map fun sm => sm.memory.contentHash).Sublist
      (candidates.map Prod.fst) := by
  unfold pickNeighbors
  rw [List.map_map]
  exact ((List.take_sublist _ _).trans List.filter_sublist |>.map _).trans (found_sublist memories candidates)

/-- The table is iterated over its own hashes, each once. -/
theorem iterate_spec (spreading : Activations) (table : TableOrder) :
    ((spreading.iterate table).map Prod.fst).Nodup ∧
      ∀ p ∈ spreading.iterate table, p.1 ∈ spreading.entries.map Prod.fst := by
  have hsub : ((spreading.iterate table).map Prod.fst).Sublist (table.order (spreading.entries.map Prod.fst)) := by
    unfold Activations.iterate
    rw [List.map_filterMap]
    generalize table.order (spreading.entries.map Prod.fst) = hashes
    induction hashes with
    | nil => exact List.Sublist.slnil
    | cons h hashes ih =>
      cases ha : spreading.entries.lookup h with
      | none =>
        rw [List.filterMap_cons_none (by rw [ha]; rfl)]
        exact ih.cons h
      | some a =>
        rw [List.filterMap_cons_some (by rw [ha]; rfl)]
        exact ih.cons_cons h
  have hperm := table.perm (spreading.entries.map Prod.fst)
  exact ⟨(hperm.nodup_iff.mpr spreading.keys).sublist hsub,
    fun p hp => hperm.mem_iff.mp (hsub.subset (List.mem_map.mpr ⟨p, hp, rfl⟩))⟩

theorem mem_iterate (s : Activations) (table : TableOrder) {p : String × ℚ} : p ∈ s.iterate table ↔ p ∈ s.entries := by
  unfold Activations.iterate
  rw [List.mem_filterMap]
  constructor
  · rintro ⟨hash, -, hlookup⟩
    obtain ⟨a, ha, rfl⟩ := Option.map_eq_some_iff.mp hlookup
    obtain ⟨before, after, heq, -⟩ := List.lookup_eq_some_iff.mp ha
    rw [heq]
    exact List.mem_append_right _ List.mem_cons_self
  · intro hp
    refine ⟨p.1, (table.perm _).mem_iff.mpr (List.mem_map.mpr ⟨p, hp, rfl⟩), Option.map_eq_some_iff.mpr ⟨p.2, ?_, rfl⟩⟩
    obtain ⟨before, after, heq⟩ := List.append_of_mem hp
    refine List.lookup_eq_some_iff.mpr ⟨before, after, heq, fun q hq => ?_⟩
    have hkeys := s.keys
    rw [heq, List.map_append, List.map_cons] at hkeys
    have hne := (List.nodup_append.mp hkeys).2.2 q.1 (List.mem_map.mpr ⟨q, hq, rfl⟩) p.1 List.mem_cons_self
    simpa using hne.symm

/-- The table is iterated over its entries, each once. -/
theorem iterate_perm (s : Activations) (table : TableOrder) : (s.iterate table).Perm s.entries :=
  (List.perm_ext_iff_of_nodup (iterate_spec s table).1.of_map s.keys.of_map).mpr fun _ => mem_iterate s table

theorem injectNeighbors_spec (table : TableOrder) (getBatch : List String → Except AlayaError (List Memory))
    (vis : Visibility) (admits : Memory → (String → Option ℚ) → Bool) (spreading : Activations) (fused : List Fused) :
    Injects admits spreading fused (injectNeighbors table getBatch vis admits spreading fused) := by
  have hnone : Injects admits spreading fused [] := ⟨List.nodup_nil, Nat.zero_le _, fun _ h => absurd h List.not_mem_nil,
    fun _ h => absurd h List.not_mem_nil, fun _ h => absurd h List.not_mem_nil⟩
  have hperm := List.mergeSort_perm ((spreading.iterate table).filter fun p => p.1 ∉ fused.map Fused.hash)
    fun a b => b.2 ≤ a.2
  obtain ⟨hkeys, hentries⟩ := iterate_spec spreading table
  unfold injectNeighbors
  dsimp only
  split
  · exact hnone
  · cases readNeighbors getBatch vis ((injectCandidates table spreading fused).map Prod.fst) with
    | error e => exact hnone
    | ok read =>
      obtain ⟨memories, survivors⟩ := read
      have hsub := pickNeighbors_sublist (admits · survivors) (minExisting fused) memories
        (injectCandidates table spreading fused)
      have hcandidate : ∀ sm ∈ pickNeighbors (admits · survivors) (minExisting fused) memories
          (injectCandidates table spreading fused), sm.memory.contentHash ∈ spreading.entries.map Prod.fst ∧
            sm.memory.contentHash ∉ fused.map Fused.hash := by
        intro sm hsm
        obtain ⟨p, hp, heq⟩ := List.mem_map.mp (hsub.subset (List.mem_map.mpr ⟨sm, hsm, rfl⟩))
        obtain ⟨hentry, hnew⟩ := List.mem_filter.mp (hperm.mem_iff.mp hp)
        rw [← heq]
        exact ⟨hentries p hentry, of_decide_eq_true hnew⟩
      refine ⟨?_, ?_, fun sm hsm => (hcandidate sm hsm).1, fun sm hsm => (hcandidate sm hsm).2,
        fun sm hsm => ⟨survivors, ?_⟩⟩
      · refine List.Nodup.sublist hsub ?_
        exact (hperm.map Prod.fst).nodup_iff.mpr (hkeys.sublist (List.filter_sublist.map Prod.fst))
      · unfold pickNeighbors
        rw [List.length_map]
        exact List.length_take_le _ _
      · obtain ⟨p, hp, rfl⟩ := List.mem_map.mp hsm
        exact (List.mem_filter.mp (List.mem_of_mem_take hp)).2

/-- **The injected neighbours are the strongest that may be.** -/
theorem injectNeighbors_from (table : TableOrder) (getBatch : List String → Except AlayaError (List Memory))
    (vis : Visibility) (admits : Memory → (String → Option ℚ) → Bool) (spreading : Activations) (fused : List Fused) :
    InjectedFrom getBatch vis admits spreading.entries (fused.map Fused.hash) (injectCandidates table spreading fused)
      (injectNeighbors table getBatch vis admits spreading fused) where
  fresh := (List.mergeSort_perm _ _).trans ((iterate_perm spreading table).filter _)
  strongest := Rows.pairwise_mergeSort_key (fun p : String × ℚ => OrderDual.toDual p.2) _
  read memories survivors hbatch hsurvivors := by
    have hread : readNeighbors getBatch vis ((injectCandidates table spreading fused).map Prod.fst) =
        .ok (memories, survivors) := by
      unfold readNeighbors
      rw [hbatch]
      show (MemoryService.survivorTimes getBatch vis memories >>= _) = _
      rw [hsurvivors]
      rfl
    unfold injectNeighbors
    dsimp only
    split
    · next hempty =>
      rw [List.isEmpty_iff.mp hempty]
      rfl
    · rw [hread]
      dsimp only
      have hfound : ((injectCandidates table spreading fused).filterMap fun p =>
          (MemoryService.lookupMemory memories p.1).map fun m => (m, p.2)).map Prod.fst =
            (injectCandidates table spreading fused).filterMap fun p => MemoryService.lookupMemory memories p.1 := by
        rw [List.map_filterMap]
        refine List.filterMap_congr fun p _ => ?_
        rw [Option.map_map]
        exact congrFun Option.map_id _
      unfold pickNeighbors
      rw [List.map_map, ← hfound, List.filter_map, List.map_take]
      rfl
  failed hfail := by
    unfold injectNeighbors
    dsimp only
    split
    · rfl
    · cases hread : readNeighbors getBatch vis ((injectCandidates table spreading fused).map Prod.fst) with
      | error e => rfl
      | ok read =>
        obtain ⟨memories, hbatch, hread⟩ := bind_eq_ok.mp hread
        obtain ⟨survivors, hsurvivors, -⟩ := bind_eq_ok.mp hread
        exact absurd hsurvivors (hfail memories survivors hbatch)

/-- The score a hash was given, where no two scores are of one hash. -/
theorem scoreOf_eq_some {scores : List (String × ℚ)} (hnodup : (scores.map Prod.fst).Nodup) {hash : String} {score : ℚ} :
    scoreOf scores hash = some score ↔ (hash, score) ∈ scores := by
  unfold scoreOf
  constructor
  · intro h
    obtain ⟨p, hp, rfl⟩ := Option.map_eq_some_iff.mp h
    obtain rfl : p.1 = hash := by simpa using List.find?_some hp
    exact List.mem_reverse.mp (List.mem_of_find?_eq_some hp)
  · intro hmem
    obtain ⟨p, hp⟩ : ∃ p, scores.reverse.find? (fun p => p.1 = hash) = some p := by
      refine Option.isSome_iff_exists.mp (List.find?_isSome.mpr ⟨_, List.mem_reverse.mpr hmem, decide_eq_true rfl⟩)
    have hkey : p.1 = hash := by simpa using List.find?_some hp
    rw [hp, Option.map_some, List.inj_on_of_nodup_map hnodup (List.mem_reverse.mp (List.mem_of_find?_eq_some hp)) hmem hkey]

/-- The scores of an answer that counts. -/
theorem rerankScores_spec (n : ℕ) (items : List RerankItem) :
    (∃ scores, rerankScores n items = .ok scores ∧ (items.map RerankItem.index).Perm (List.range n) ∧ scores.length = n ∧
      ∀ i score, scores[i]? = some score ↔ ∃ item ∈ items, item.index = i ∧ item.score = score) ∨
    ∃ e, rerankScores n items = .error e ∧ ¬(items.map RerankItem.index).Perm (List.range n) := by
  have hindices : (items.map fun item => (item.index, item.score)).map Prod.fst = items.map RerankItem.index := by
    rw [List.map_map]
    rfl
  rcases remapScores_spec (n := n) 0 (items.map fun item => (item.index, item.score)) with
    ⟨scores, hplaced, hperm, hscores⟩ | ⟨e, hrefused, hnot⟩
  · rw [remapScores_eq_rerankScores] at hplaced
    rw [hindices] at hperm
    have hitems : ∀ i score, scores[i]? = some score ↔ ∃ item ∈ items, item.index = i ∧ item.score = score := by
      intro i score
      rw [hscores, List.mem_map]
      simp only [Prod.mk.injEq]
    refine .inl ⟨scores, Option.some.inj hplaced, hperm, Nat.le_antisymm ?_ ?_, hitems⟩
    · by_contra hlong
      obtain ⟨item, hitem, hindex, -⟩ := (hitems n _).mp (List.getElem?_eq_getElem (not_le.mp hlong))
      have hlt := List.mem_range.mp (hperm.mem_iff.mp (List.mem_map_of_mem hitem))
      omega
    · by_contra hshort
      obtain ⟨item, hitem, hindex⟩ := List.mem_map.mp (hperm.mem_iff.mpr (List.mem_range.mpr (not_le.mp hshort)))
      have hlt := (List.getElem?_eq_some_iff.mp ((hitems _ _).mpr ⟨item, hitem, hindex, rfl⟩)).1
      omega
  · rw [remapScores_eq_rerankScores] at hrefused
    rw [hindices] at hnot
    exact .inr ⟨_, Option.some.inj hrefused, hnot⟩

/-- Each of the first candidates is there with its score. -/
theorem map_fst_top {scores : List ℚ} {topN : ℕ} (fused : List Fused) (hscores : scores.length = topN) :
    ((fused.take topN).zip scores).map Prod.fst = fused.take topN :=
  List.map_fst_zip (by rw [List.length_take, hscores]; exact min_le_left _ _)

/-- The scores reorder the candidates and lose none. -/
theorem spliceScores_perm {scores : List ℚ} {topN : ℕ} {fused : List Fused} (hscores : scores.length = topN) :
    (spliceScores scores topN fused).2.Perm fused := by
  unfold spliceScores
  have hperm := ((List.mergeSort_perm ((fused.take topN).zip scores) fun a b => b.2 ≤ a.2).map Prod.fst)
  rw [map_fst_top fused hscores] at hperm
  exact (hperm.append_right _).trans (by rw [List.take_append_drop])

theorem rerankStage_perm (reranker : Option Reranker) (query : String) (contents : String → String)
    (fused : List Fused) : (rerankStage reranker query contents fused).2.1.Perm fused := by
  unfold rerankStage
  cases reranker with
  | none => exact List.Perm.refl _
  | some reranker =>
    dsimp only
    split
    · exact List.Perm.refl _
    · split
      · split
        · next hscores => exact spliceScores_perm hscores
        · exact List.Perm.refl _
      · exact List.Perm.refl _
      · exact List.Perm.refl _

/-- The order of the results loses no candidate. -/
theorem orderCandidates_perm (reranker : Option Reranker) (query : String)
    (memories : String → Option ScoredMemory) (activation hebbian : String → Option ℚ) (fused : List Fused) :
    ((orderCandidates q reranker query memories activation hebbian fused).1.map Prod.fst).Perm
      (fused.map Fused.hash) := by
  unfold orderCandidates
  refine ((List.mergeSort_perm _ _).map Prod.fst).trans ?_
  rw [List.map_map]
  exact (rerankStage_perm reranker query _ fused).map Fused.hash

/-- The reranked ones come first, then by score. -/
theorem sorted_orderCandidates (reranker : Option Reranker) (query : String)
    (memories : String → Option ScoredMemory) (activation hebbian : String → Option ℚ) (fused : List Fused) :
    let ordered := orderCandidates q reranker query memories activation hebbian fused
    ordered.1.Pairwise fun a b => sortKey ordered.2.1 a ≤ sortKey ordered.2.1 b :=
  Rows.pairwise_mergeSort_key _ _

/-- A reranked result never stands behind another. -/
theorem reranked_of_sortKey_le {scores : List (String × ℚ)} {a b : String × ℚ}
    (h : sortKey scores a ≤ sortKey scores b) (hb : (scoreOf scores b.1).isSome = true) :
    (scoreOf scores a.1).isSome = true := by
  have hfirst : (scoreOf scores b.1).isSome ≤ (scoreOf scores a.1).isSome :=
    (Prod.Lex.le_iff.mp h).elim (fun hlt => le_of_lt hlt) fun heq => le_of_eq heq.1.symm
  rw [hb] at hfirst
  exact top_le_iff.mp hfirst

/-- The hashes of a pool. -/
def hashes (pool : List ScoredMemory) : List String := pool.map fun sm => sm.memory.contentHash

theorem map_fst_tuples (pool : List ScoredMemory) : (tuples pool).map Prod.fst = hashes pool := by
  unfold tuples hashes
  rw [List.map_map]
  rfl

/-- **What a ranked list holds**: the pools and what is injected behind them. -/
theorem rankPools_perm (table : TableOrder) (q : RankQuery) (signals : Signals)
    (getBatch : List String → Except AlayaError (List Memory)) (params : HybridParams) (vis : Visibility) (alpha : ℚ)
    (vector bm25 : List ScoredMemory) :
    let r := rankPools table q signals getBatch params vis alpha vector bm25
    (r.results.map Prod.fst).Perm ((hashes vector ++ hashes bm25).dedup ++ hashes r.injected) ∧
      ((hashes vector ++ hashes bm25).dedup ++ hashes r.injected).Nodup := by
  set fused := combineResultsRrf table (tuples vector) (tuples bm25) alpha rrfK with hfused
  have hpool : (fused.map Fused.hash).Perm (hashes vector ++ hashes bm25).dedup := by
    have hperm := hashes_combineResultsRrf table (tuples vector) (tuples bm25) alpha rrfK
    rwa [List.map_append, map_fst_tuples, map_fst_tuples] at hperm
  have hinjects := injectNeighbors_spec table getBatch vis (params.admits vis) (activate q signals fused) fused
  constructor
  · refine (orderCandidates_perm signals.reranker params.query _ _ _ _).trans ?_
    rw [List.map_append, List.map_map]
    exact hpool.append_right _
  · refine List.nodup_append.mpr ⟨List.nodup_dedup _, hinjects.nodup, fun h hh h' hh' => ?_⟩
    rintro rfl
    obtain ⟨sm, hsm, rfl⟩ := List.mem_map.mp hh'
    exact hinjects.unlisted sm hsm (hpool.mem_iff.mpr hh)

/-- What the cross-encoder gave, by place. -/
theorem mem_spliceScores {scores : List ℚ} {n : ℕ} {fused : List Fused} {hash : String} {score : ℚ} :
    (hash, score) ∈ (spliceScores scores n fused).1 ↔
      ∃ i : ℕ, ((fused.take n).map Fused.hash)[i]? = some hash ∧ scores[i]? = some score := by
  unfold spliceScores
  dsimp only
  rw [List.mem_map]
  constructor
  · rintro ⟨⟨f, s⟩, hmem, heq⟩
    obtain ⟨rfl, rfl⟩ := Prod.mk.inj heq
    obtain ⟨i, hi⟩ := List.mem_iff_getElem?.mp (List.mem_mergeSort.mp hmem)
    obtain ⟨hf, hs⟩ := List.getElem?_zip_eq_some.mp hi
    exact ⟨i, by rw [List.getElem?_map, hf]; rfl, hs⟩
  · rintro ⟨i, hhash, hscore⟩
    rw [List.getElem?_map] at hhash
    obtain ⟨f, hf, rfl⟩ := Option.map_eq_some_iff.mp hhash
    exact ⟨(f, score), List.mem_mergeSort.mpr (List.mem_of_getElem? (List.getElem?_zip_eq_some.mpr ⟨hf, hscore⟩)), rfl⟩

/-- It gave a candidate one score. -/
theorem nodup_spliceScores {scores : List ℚ} {n : ℕ} {fused : List Fused} (hscores : scores.length = n)
    (hnodup : (fused.map Fused.hash).Nodup) : ((spliceScores scores n fused).1.map Prod.fst).Nodup := by
  have hperm := (List.mergeSort_perm ((fused.take n).zip scores) fun a b => b.2 ≤ a.2).map (Fused.hash ∘ Prod.fst)
  rw [← List.map_map (f := Prod.fst) (l := (fused.take n).zip scores), map_fst_top fused hscores] at hperm
  unfold spliceScores
  dsimp only
  rw [List.map_map]
  exact hperm.nodup_iff.mpr (hnodup.sublist ((List.take_sublist _ _).map _))

/-- **The scores are those of the answer**, for the first candidates. -/
theorem scoreOf_rerankStage (reranker : Option Reranker) (query : String) (contents : String → String)
    {fused : List Fused} (hnodup : (fused.map Fused.hash).Nodup) (hash : String) (score : ℚ) :
    scoreOf (rerankStage reranker query contents fused).1 hash = some score ↔
      Receives reranker query contents (fused.map Fused.hash) hash score := by
  unfold rerankStage Receives
  cases reranker with
  | none => exact ⟨nofun, fun ⟨_, h, _⟩ => nomatch h⟩
  | some rr =>
    set n := min rr.topN fused.length with hn
    have hsent : (fused.map Fused.hash).take rr.topN = (fused.take n).map Fused.hash := by
      rw [← List.map_take, hn, List.take_eq_take_min]
    have hlength : ((fused.take n).map Fused.hash).length = n := by
      rw [List.length_map, List.length_take]
      omega
    simp only [Option.mem_some_iff, exists_eq_left', hsent, hlength, List.map_map]
    by_cases hzero : n = 0
    · rw [if_pos hzero, hzero, List.take_zero]
      refine ⟨nofun, ?_⟩
      rintro ⟨items, -, -, item, -, hnone, -⟩
      cases hnone
    · rw [if_neg hzero]
      have hcount : ((fused.take n).map fun f => contents f.hash).length = n := by
        rw [List.length_map]
        exact (List.length_map _).symm.trans hlength
      have hrerank : rr.rerank query ((fused.take n).map fun f => contents f.hash) =
          (rr.answer query ((fused.take n).map (contents ∘ Fused.hash))).map fun answer =>
            answer.bind (rerankScores n) := by
        unfold Reranker.rerank
        rw [if_neg, hcount]
        · rfl
        · rw [List.isEmpty_iff, ← List.length_eq_zero_iff, hcount]
          exact hzero
      rw [hrerank]
      cases rr.answer query ((fused.take n).map (contents ∘ Fused.hash)) with
      | none => exact ⟨nofun, nofun⟩
      | some answer =>
        cases answer with
        | error e => exact ⟨nofun, nofun⟩
        | ok items =>
          rcases rerankScores_spec n items with ⟨scores, hok, hperm, hlen, hscores⟩ | ⟨e, herror, hnot⟩
          · rw [show (some (Except.ok items)).map (fun answer => answer.bind (rerankScores n)) = some (.ok scores) from
              congrArg some hok]
            dsimp only
            rw [if_pos hlen, scoreOf_eq_some (nodup_spliceScores hlen hnodup), mem_spliceScores]
            constructor
            · rintro ⟨i, hhash, hscore⟩
              obtain ⟨item, hitem, rfl, rfl⟩ := (hscores i score).mp hscore
              exact ⟨items, rfl, hperm, item, hitem, hhash, rfl⟩
            · rintro ⟨items', heq, -, item, hitem, hhash, rfl⟩
              obtain rfl := Except.ok.inj (Option.some.inj heq)
              exact ⟨item.index, hhash, (hscores _ _).mpr ⟨item, hitem, rfl, rfl⟩⟩
          · rw [show (some (Except.ok items)).map (fun answer => answer.bind (rerankScores n)) = some (.error e) from
              congrArg some herror]
            refine ⟨nofun, ?_⟩
            rintro ⟨items', heq, hperm, -⟩
            obtain rfl := Except.ok.inj (Option.some.inj heq)
            exact absurd hperm hnot

/-- What a ranked list holds of the pools it was given. -/
theorem rankHybrid_perm {r : Ranked} (h : rankHybrid table q signals getBatch params vis alpha vector bm25 = .ok r) :
    ∃ survivors, MemoryService.survivorTimes getBatch vis ((vector ++ bm25).map ScoredMemory.memory) = .ok survivors ∧
      r = rankPools table q signals getBatch params vis alpha
        (vector.filter fun sm => params.admits vis sm.memory survivors)
        (bm25.filter fun sm => params.admits vis sm.memory survivors) ∧ (r.results.map Prod.fst).Nodup := by
  obtain ⟨survivors, hsurvivors, hr⟩ := bind_eq_ok.mp h
  obtain rfl := Except.ok.inj hr
  obtain ⟨hperm, hnodup⟩ := rankPools_perm table q signals getBatch params vis alpha
    (vector.filter fun sm => params.admits vis sm.memory survivors)
    (bm25.filter fun sm => params.admits vis sm.memory survivors)
  exact ⟨survivors, hsurvivors, rfl, hperm.nodup_iff.mpr hnodup⟩

/-- Every ranked hash has its memory. -/
theorem memories_isSome {r : Ranked} (h : rankHybrid table q signals getBatch params vis alpha vector bm25 = .ok r)
    {p : String × ℚ} (hp : p ∈ r.results) : (r.memories p.1).isSome = true := by
  obtain ⟨survivors, -, rfl, -⟩ := rankHybrid_perm h
  have hmem := (rankPools_perm table q signals getBatch params vis alpha _ _).1.mem_iff.mp
    (List.mem_map.mpr ⟨p, hp, rfl⟩)
  show (List.find? _ _).isSome = true
  rw [List.find?_isSome]
  rw [List.mem_append, List.mem_dedup, List.mem_append] at hmem
  rcases hmem with (hmem | hmem) | hmem
  all_goals
    obtain ⟨sm, hsm, heq⟩ := List.mem_map.mp hmem
    refine ⟨sm, ?_, decide_eq_true heq⟩
    rw [List.mem_append, List.mem_append, List.mem_reverse]
  · exact .inl (.inl hsm)
  · exact .inl (.inr hsm)
  · exact .inr hsm

/-- The admitted candidates of the pools, in the order of their fusion. -/
def fusedHashes (table : TableOrder) (alpha : ℚ) (vector bm25 : List ScoredMemory) : List String :=
  (combineResultsRrf table (tuples vector) (tuples bm25) alpha rrfK).map Fused.hash

/-- What the graph activates is its answer for the first of the candidates. -/
theorem entries_activate (q : RankQuery) (signals : Signals) (fused : List Fused) :
    (activate q signals fused).entries = signals.around q.switches.graph (fused.map Fused.hash) := by
  have hseeds : ((fused.take boostedCount).map Fused.hash).take seedCount = (fused.map Fused.hash).take seedCount := by
    rw [List.map_take, List.take_take]
    rfl
  have hsome : (fused.map Fused.hash).take seedCount ≠ [] ↔ fused.map Fused.hash ≠ [] := by
    cases fused <;> simp [seedCount]
  unfold activate Signals.around
  dsimp only
  rw [hseeds]
  by_cases hasks : q.switches.graph = true ∧ fused.map Fused.hash ≠ []
  · rw [if_pos (hasks.imp_right hsome.mpr), if_pos hasks]
  · rw [if_neg fun h => hasks (h.imp_right hsome.mp), if_neg hasks]

/-- The list that is reranked: the fused candidates, and the neighbours behind them. -/
theorem hashes_append_neighborEntry (fused : List Fused) (injected : List ScoredMemory) :
    (fused ++ injected.map neighborEntry).map Fused.hash = fused.map Fused.hash ++ hashes injected := by
  rw [List.map_append, List.map_map]
  rfl

/-- The scores of a ranking are those its candidates received. -/
theorem scoreOf_rankPools (table : TableOrder) (q : RankQuery) (signals : Signals)
    (getBatch : List String → Except AlayaError (List Memory)) (params : HybridParams) (vis : Visibility) (alpha : ℚ)
    (vector bm25 : List ScoredMemory) (hash : String) (score : ℚ) :
    let r := rankPools table q signals getBatch params vis alpha vector bm25
    scoreOf r.rerankScores hash = some score ↔
      Receives signals.reranker params.query
        (fun hash => (memoryMap vector bm25 r.injected hash).elim "" fun sm => sm.memory.content)
        (fusedHashes table alpha vector bm25 ++ hashes r.injected) hash score := by
  have hnodup := (rankPools_perm table q signals getBatch params vis alpha vector bm25).2
  have hfused := hashes_combineResultsRrf table (tuples vector) (tuples bm25) alpha rrfK
  rw [List.map_append, map_fst_tuples, map_fst_tuples] at hfused
  intro r
  unfold fusedHashes
  rw [← hashes_append_neighborEntry]
  refine scoreOf_rerankStage signals.reranker params.query _ ?_ hash score
  rw [hashes_append_neighborEntry]
  exact (hfused.append_right _).nodup_iff.mpr hnodup

/-- **The ranking neither loses nor duplicates candidates.**  The ranked list holds each admitted candidate of the
pools and each injected neighbour once, and nothing else; injected are the strongest activated memories that are stored,
admitted and no candidates yet.  The scores of the cross-encoder are those it answered for the first of the fused
candidates and the neighbours behind them, and the candidates that received one come before all others. -/
theorem ranked_once {r : Ranked} (h : rankHybrid table q signals getBatch params vis alpha vector bm25 = .ok r) :
    ∃ survivors neighbours,
      MemoryService.survivorTimes getBatch vis ((vector ++ bm25).map ScoredMemory.memory) = .ok survivors ∧
      let dense := params.admitted vis survivors vector
      let keyword := params.admitted vis survivors bm25
      let listed := fusedHashes table alpha dense keyword
      let contents := fun hash => (memoryMap dense keyword r.injected hash).elim "" fun sm => sm.memory.content
      (r.results.map Prod.fst).Nodup ∧
      (∀ hash, hash ∈ r.results.map Prod.fst ↔
        (∃ sm ∈ vector ++ bm25, params.admits vis sm.memory survivors = true ∧ sm.memory.contentHash = hash) ∨
          ∃ sm ∈ r.injected, sm.memory.contentHash = hash) ∧
      InjectedFrom getBatch vis (params.admits vis) (signals.around q.switches.graph listed) listed neighbours r.injected ∧
      (∀ hash score, scoreOf r.rerankScores hash = some score ↔
        Receives signals.reranker params.query contents (listed ++ hashes r.injected) hash score) ∧
      r.results.Pairwise fun a b =>
        (∃ score, Receives signals.reranker params.query contents (listed ++ hashes r.injected) b.1 score) →
          ∃ score, Receives signals.reranker params.query contents (listed ++ hashes r.injected) a.1 score := by
  obtain ⟨survivors, hsurvivors, rfl, hnodup⟩ := rankHybrid_perm h
  set dense := params.admitted vis survivors vector with hdense
  set keyword := params.admitted vis survivors bm25 with hkeyword
  set fused := combineResultsRrf table (tuples dense) (tuples keyword) alpha rrfK with hfused
  have hscores := scoreOf_rankPools table q signals getBatch params vis alpha dense keyword
  refine ⟨survivors, injectCandidates table (activate q signals fused) fused, hsurvivors, hnodup, fun hash => ?members,
    ?injected, hscores, ?first⟩
  case members =>
    obtain ⟨hperm, -⟩ := rankPools_perm table q signals getBatch params vis alpha dense keyword
    have hadmitted : ∀ pool : List ScoredMemory, hash ∈ hashes (params.admitted vis survivors pool) ↔
        ∃ sm ∈ pool, params.admits vis sm.memory survivors = true ∧ sm.memory.contentHash = hash := by
      intro pool
      simp only [hashes, HybridParams.admitted, List.mem_map, List.mem_filter, and_assoc]
    show hash ∈ (rankPools table q signals getBatch params vis alpha dense keyword).results.map Prod.fst ↔ _
    rw [hperm.mem_iff, List.mem_append, List.mem_dedup, List.mem_append, hadmitted, hadmitted]
    refine or_congr ?_ List.mem_map
    simp only [List.mem_append, or_and_right, exists_or]
  case injected =>
    have hinjected := injectNeighbors_from table getBatch vis (params.admits vis) (activate q signals fused) fused
    rw [entries_activate] at hinjected
    exact hinjected
  case first =>
    have hsorted := sorted_orderCandidates (q := q) signals.reranker params.query
      (rankPools table q signals getBatch params vis alpha dense keyword).memories
      ((activate q signals fused).entries.lookup ·)
      (fun hash => if q.switches.graph then signals.hebbian ((fused.take boostedCount).map Fused.hash) hash else none)
      (fused ++ (rankPools table q signals getBatch params vis alpha dense keyword).injected.map neighborEntry)
    refine hsorted.imp fun hle => ?_
    rintro ⟨score, hscore⟩
    have hsome := reranked_of_sortKey_le hle (Option.isSome_iff_exists.mpr ⟨score, (hscores _ _).mpr hscore⟩)
    obtain ⟨score', hscore'⟩ := Option.isSome_iff_exists.mp hsome
    exact ⟨score', (hscores _ _).mp hscore'⟩

end

/-- The candidates of a pool that is admitted whole. -/
theorem exists_admitted_iff {admits : ScoredMemory → Prop} {pool : List ScoredMemory} (h : ∀ sm ∈ pool, admits sm)
    (hash : String) : (∃ sm ∈ pool, admits sm ∧ sm.memory.contentHash = hash) ↔ hash ∈ hashes pool := by
  constructor
  · rintro ⟨sm, hsm, -, heq⟩
    exact List.mem_map.mpr ⟨sm, hsm, heq⟩
  · intro hmem
    obtain ⟨sm, hsm, heq⟩ := List.mem_map.mp hmem
    exact ⟨sm, hsm, h sm hsm, heq⟩

/-! ### A search of two memories -/

/-- A live memory without what a boost reads. -/
def plainMemory (hash : String) : Memory where
  content := hash
  contentHash := hash
  tags := []
  memoryType := "note"
  metadata := none
  createdAt := 0
  updatedAt := 0
  embedding := none
  summary := none
  salienceScore := 0
  accessCount := 0
  accessTimestamps := []
  emotionalValence := none
  encodingContext := none
  provenance := none
  summaryEmbedding := none
  supersessionLog := none
  supersessionReason := none
  nearestSimilarity := none

def inOrder : TableOrder := ⟨id, fun _ => List.Perm.refl _⟩

/-- A query whose logarithm, exponential and square root are not called on to differ. -/
def plainQuery : RankQuery where
  lib := ⟨fun _ => 0, fun _ => 1, id⟩
  switches := ⟨false, false, false, []⟩
  embedding := []
  encodingContext := none
  rankTime := 0

def plainParams : HybridParams where
  query := "q"
  page := 1
  pageSize := 1
  memoryType := none
  minTrustScore := none
  minSimilarity := none
  includeSuperseded := false
  encodingContext := none

/-- A cross-encoder for two texts, which prefers the second. -/
def twoTexts : Reranker := ⟨2, fun _ _ => some (.ok [⟨1, 0.9⟩, ⟨0, 0.2⟩])⟩

/-- A search that asks the graph. -/
def linkedQuery : RankQuery := { plainQuery with switches := ⟨true, false, false, []⟩ }

/-- The graph activates a candidate, a superseded memory and a live one. -/
def linkedSignals : Signals where
  spreading _ := ⟨[("a", 0.5), ("d", 0.4), ("c", 0.3)], by decide⟩
  hebbian _ _ := none
  reranker := some twoTexts

def linkedStore : List Memory :=
  [plainMemory "c", { plainMemory "d" with metadata := some [(supersededByKey, .string "a")] }]

/-- Two candidates, one of them in both pools, are reranked, and the live neighbour is injected behind them. -/
theorem ranked_once_linked : ∃ r, rankHybrid inOrder linkedQuery linkedSignals (fun _ => .ok linkedStore) plainParams
      ⟨false, none⟩ 0.72 [⟨plainMemory "a", 0.9⟩] [⟨plainMemory "a", 3⟩, ⟨plainMemory "b", 2⟩] = .ok r ∧
    r.injected.map ScoredMemory.memory = [plainMemory "c"] ∧ (r.results.map Prod.fst).Nodup ∧
    (∀ hash, hash ∈ r.results.map Prod.fst ↔ hash ∈ ["a", "b", "c"]) ∧
    ∀ hash ∈ ["a", "b"], ∃ score, scoreOf r.rerankScores hash = some score := by
  obtain ⟨r, hr⟩ : ∃ r, rankHybrid inOrder linkedQuery linkedSignals (fun _ => .ok linkedStore) plainParams
      ⟨false, none⟩ 0.72 [⟨plainMemory "a", 0.9⟩] [⟨plainMemory "a", 3⟩, ⟨plainMemory "b", 2⟩] = .ok r := ⟨_, rfl⟩
  obtain ⟨survivors, neighbours, hsurvivors, hnodup, hmembers, hinjected, hscores, -⟩ := ranked_once hr
  obtain rfl := Except.ok.inj hsurvivors
  set listed := fusedHashes inOrder 0.72 (plainParams.admitted ⟨false, none⟩ (fun _ => none) [⟨plainMemory "a", 0.9⟩])
    (plainParams.admitted ⟨false, none⟩ (fun _ => none) [⟨plainMemory "a", 3⟩, ⟨plainMemory "b", 2⟩]) with hlisted
  have hperm : listed.Perm ["a", "b"] := hashes_combineResultsRrf ..
  have hsome : listed ≠ [] := fun hnil => by simpa [hnil] using hperm.length_eq
  have hfresh : neighbours.Perm [("d", 0.4), ("c", 0.3)] := by
    refine hinjected.fresh.trans (.of_eq ?_)
    unfold Signals.around
    rw [if_pos ⟨rfl, hsome⟩]
    have hkept : ∀ p : String × ℚ, decide (p.1 ∉ listed) = decide (p.1 ∉ ["a", "b"]) := fun p =>
      decide_eq_decide.mpr (not_congr hperm.mem_iff)
    exact (List.filter_congr fun p _ => hkept p).trans rfl
  have hlive : r.injected.map ScoredMemory.memory = [plainMemory "c"] := by
    rw [hinjected.read linkedStore _ rfl rfl]
    have hlive : ((neighbours.filterMap fun p => MemoryService.lookupMemory linkedStore p.1).filter fun m =>
        plainParams.admits ⟨false, none⟩ m fun _ => none).Perm [plainMemory "c"] :=
      (hfresh.filterMap _).filter _
    rw [List.perm_singleton.mp hlive]
    rfl
  have hhashes : hashes r.injected = ["c"] := by
    show r.injected.map (Memory.contentHash ∘ ScoredMemory.memory) = _
    rw [← List.map_map, hlive]
    rfl
  refine ⟨r, hr, hlive, hnodup, fun hash => ?_, fun hash hmem => ?_⟩
  · have hadmits : ∀ sm ∈ [(⟨plainMemory "a", 0.9⟩ : ScoredMemory)] ++ [⟨plainMemory "a", 3⟩, ⟨plainMemory "b", 2⟩],
        plainParams.admits ⟨false, none⟩ sm.memory (fun _ => none) = true := by decide
    have hcandidate := exists_admitted_iff hadmits hash
    have hneighbour : (∃ sm ∈ r.injected, sm.memory.contentHash = hash) ↔ hash ∈ ["c"] := by
      rw [← hhashes]
      exact List.mem_map.symm
    rw [hmembers, hneighbour, hcandidate]
    show hash ∈ ["a", "a", "b"] ∨ hash ∈ ["c"] ↔ _
    simp only [List.mem_cons, List.not_mem_nil, or_false]
    tauto
  · -- The cross-encoder is sent the two candidates, and scores both.
    have htake : (listed ++ hashes r.injected).take 2 = listed := List.take_left' hperm.length_eq
    obtain ⟨i, hi⟩ := List.mem_iff_getElem?.mp (hperm.mem_iff.mpr hmem)
    have hlt : i < 2 := by
      have hlt := (List.getElem?_eq_some_iff.mp hi).1
      rwa [hperm.length_eq] at hlt
    have hitem : ∃ item ∈ [(⟨1, 0.9⟩ : RerankItem), ⟨0, 0.2⟩], item.index = i := by
      interval_cases i
      · exact ⟨⟨0, 0.2⟩, by simp, rfl⟩
      · exact ⟨⟨1, 0.9⟩, by simp, rfl⟩
    obtain ⟨item, hitem, rfl⟩ := hitem
    refine ⟨item.score, (hscores hash item.score).mpr ⟨twoTexts, rfl, _, rfl, ?_, item, hitem, ?_, rfl⟩⟩
    · rw [show twoTexts.topN = 2 from rfl, htake, hperm.length_eq]
      decide
    · rw [show twoTexts.topN = 2 from rfl, htake]
      exact hi

end Ranking

end Alaya
