import Alaya.Core.Contradictions
import Alaya.Core.Judge

/-!
# Backfilling the judge's verdicts

A pass selects one page of the unresolved edges without a verdict and judges its pairs concurrently,
each with its own retries.  A pair whose judgement fails the same way every time is marked, so that it
leaves the selection; the edge from a memory to itself is the one pair that is neither judged nor
marked.
-/

namespace Alaya

open Interleave Labelled Rows

/-- Retries of a rate-limited pair before it is given up. -/
def judgeMaxRetries : ℕ := 5

/-- The pairs a pass judges: unresolved, and without a verdict. -/
def backfillSelection (limit : ℕ) (rejudgeModel : Option String) (verdicts : Option (List String)) :
    ContradictionQuery where
  limit
  skip := 0
  verdicts
  excludeResolved := true
  needsJudging := true
  rejudgeModel

/-- Judge one pair until it is not rate limited; its outcome, and how many attempts it took. -/
def withBackoff (attempt : ℕ → Flow JudgeOutcome) : (left n : ℕ) → Flow (JudgeOutcome × ℕ)
  | 0, n => pure (.unjudged false false, n)
  | left + 1, n => do
    match ← attempt n with
    | .rateLimited _ =>
      if n = judgeMaxRetries then return (.unjudged false false, n + 1)
      else withBackoff attempt left (n + 1)
    | outcome => return (outcome, n + 1)

/-- Judge one pair of a pass, given the judge and the clock of each attempt. -/
def backfillOne (judge : ℕ → Judge) (clock : ℕ → ℚ) (src dst : String) : Flow (JudgeOutcome × ℕ) :=
  withBackoff (fun n => MemoryService.judgeContradiction (some (judge n)) src dst (clock n))
    (judgeMaxRetries + 1) 0

/-! ### Judges -/

/-- The judge's own checks of an answer: a class, and a probability. -/
def Judge.Valid (judge : Judge) : Prop :=
  ∀ a b answer, judge.judge a b = .ok answer →
    answer.verdict ≠ .unjudged ∧ 0 ≤ answer.confidence ∧ answer.confidence ≤ 1

/-- A failure that is retried later. -/
def TransientFailure : AlayaError → Prop
  | .rateLimited _ | .unavailable .. => True
  | _ => False

/-- A judge that answers, or fails the same way every time. -/
def Judge.Deterministic (judge : Judge) : Prop :=
  judge.Valid ∧ ∀ a b e, judge.judge a b = .error e → ¬TransientFailure e

/-! ### A pass -/

/-- The judging of one pair in a pass: the judge and the clock of each attempt, what came of the pair,
and after how many attempts. -/
structure Judging where
  pair : Contradiction
  judges : ℕ → Judge
  clocks : ℕ → ℚ
  outcome : JudgeOutcome
  attempts : ℕ

namespace Judging

variable (j : Judging)

def src : String := j.pair.memoryAHash

def dst : String := j.pair.memoryBHash

def program : Program Reply (Except AlayaError (JudgeOutcome × ℕ)) :=
  (backfillOne j.judges j.clocks j.src j.dst).run

end Judging

/-- **A pass** from `s` to `s'`: it judges the pairs of one page, interleaved in any way. -/
structure BackfillPass (serve : Server Reply Service) (limit : ℕ) (verdicts : Option (List String))
    (s : Service) (judgings : List Judging) (s' : Service) : Prop where
  selected : judgings.map Judging.pair = Bridge.all s.graph (backfillSelection limit none verdicts)
  ran : ∃ tr, Run (Steps (Pool.step serve)) ⟨fun i : Fin judgings.length => judgings[i].program, s⟩ tr
    ⟨fun i => .done (.ok (judgings[i].outcome, judgings[i].attempts)), s'⟩

/-- Passes one after another, with no other writer between them. -/
inductive BackfillPasses (limit : ℕ) (verdicts : Option (List String)) :
    Service → List (List Judging) → Service → Prop
  | start {s : Service} : BackfillPasses limit verdicts s [] s
  | pass {s s' s'' : Service} {judgings : List Judging} {passes : List (List Judging)} :
      BackfillPass Service.serve limit verdicts s judgings s' →
      BackfillPasses limit verdicts s' passes s'' →
      BackfillPasses limit verdicts s (judgings :: passes) s''

/-- The edges a pass selects from. -/
def backfillEdges (verdicts : Option (List String)) (g : Graph) : List MatchedEdge :=
  g.matchedContradictions (backfillSelection 0 none verdicts)

/-- Stores that answer as they do, or fail and are left as they were. -/
def Falters (serve : Server Reply Service) : Prop :=
  ∀ c s, serve c s = Service.serve c s ∨ ∃ e, serve c s = (.error e, s)

/-- At a pair either no verdict can be written, or at every attempt its memories cannot be read or the
judge fails transiently on them. -/
def Judging.FailsTransiently (serve : Server Reply Service) (s : Service) (j : Judging) : Prop :=
  (∀ t v, t.points = s.points →
    ∃ e, (serve (.graph (.setContradictionVerdict j.src j.dst v)) t).1 = .error e) ∨
  ∀ n t, t.points = s.points →
    (∃ e, (serve (.vectors (.getBatch [j.src, j.dst])) t).1 = .error e) ∨
    ∃ (batch : List Memory) (a b : Memory) (e : AlayaError),
      (serve (.vectors (.getBatch [j.src, j.dst])) t).1 = .ok batch ∧
      batch.find? (fun m => m.contentHash = j.src) = some a ∧
      batch.find? (fun m => m.contentHash = j.dst) = some b ∧
      (j.judges n).judge a b = .error e ∧ TransientFailure e

namespace Graph

/-- The edge carries a verdict, or the marker of a failure. -/
def Judged (g : Graph) (a b : String) : Prop :=
  ∃ link, g.contradicts a b = some link ∧ link.judgement.verdict.isSome

/-- From `g` to `g'` nothing was written but judgements, on edges in `W`. -/
structure OnlyJudged (W : String → String → Prop) (g g' : Graph) : Prop where
  nodes : g'.nodes = g.nodes
  supersedes : g'.supersedes = g.supersedes
  links : ∀ a b, g'.contradicts a b = g.contradicts a b ∨
    W a b ∧ ∃ link judgement, g.contradicts a b = some link ∧
      g'.contradicts a b = some { link with judgement } ∧ judgement.verdict.isSome

section

variable {W : String → String → Prop} {g g' g'' : Graph} {a b src dst : String}

theorem OnlyJudged.refl (g : Graph) : OnlyJudged W g g := ⟨rfl, rfl, fun _ _ => .inl rfl⟩

theorem OnlyJudged.trans (h : OnlyJudged W g g') (h' : OnlyJudged W g' g'') : OnlyJudged W g g'' where
  nodes := h'.nodes.trans h.nodes
  supersedes := h'.supersedes.trans h.supersedes
  links a b := by
    rcases h'.links a b with heq | ⟨hW, link', judgement', hlink', hnext, hverdict⟩
    · rw [heq]
      exact h.links a b
    · right
      rcases h.links a b with heq | ⟨-, link, judgement, hlink, hmid, -⟩
      · exact ⟨hW, link', judgement', heq ▸ hlink', hnext, hverdict⟩
      · obtain rfl := Option.some.inj (hlink'.symm.trans hmid)
        exact ⟨hW, link, judgement', hlink, hnext, hverdict⟩

/-- Whatever verdict is written, its edge carries one afterwards. -/
theorem judged_setContradictionVerdict (h : (g.contradicts src dst).isSome) (v : EdgeVerdict) :
    (g.setContradictionVerdict src dst v).2.Judged src dst := by
  obtain ⟨link, hlink⟩ := Option.isSome_iff_exists.mp h
  unfold Judged setContradictionVerdict
  rw [contradicts_editLink, if_pos ⟨rfl, rfl⟩, hlink, Option.map_some]
  refine ⟨_, rfl, ?_⟩
  split
  · rfl
  · next hrefused =>
    -- A marker is refused by the verdict the edge carries.
    simp only [Bool.or_eq_true, decide_eq_true_eq, not_or] at hrefused
    exact Option.isSome_iff_ne_none.mpr hrefused.1.2

theorem onlyJudged_setContradictionVerdict (hW : W src dst) (v : EdgeVerdict) :
    OnlyJudged W g (g.setContradictionVerdict src dst v).2 where
  nodes := g.nodes_editLink _ _
  supersedes := g.supersedes_editLink _ _
  links a b := by
    unfold setContradictionVerdict
    rw [contradicts_editLink]
    split_ifs with hedge
    · obtain ⟨rfl, rfl⟩ := hedge
      cases hlink : g.contradicts a b with
      | none => exact .inl rfl
      | some link =>
        rw [Option.map_some]
        split
        · exact .inr ⟨hW, link, _, rfl, rfl, rfl⟩
        · exact .inl rfl
    · exact .inl rfl

theorem OnlyJudged.isSome_iff (h : OnlyJudged W g g') :
    (g'.contradicts a b).isSome ↔ (g.contradicts a b).isSome := by
  rcases h.links a b with heq | ⟨-, link, judgement, hlink, hlink', -⟩
  · rw [heq]
  · rw [hlink, hlink']
    exact .rfl

theorem OnlyJudged.judged (h : OnlyJudged W g g') (hjudged : g.Judged a b) : g'.Judged a b := by
  rcases h.links a b with heq | ⟨-, link, judgement, -, hlink', hverdict⟩
  · obtain ⟨link, hlink, hverdict⟩ := hjudged
    exact ⟨link, heq.trans hlink, hverdict⟩
  · exact ⟨_, hlink', hverdict⟩

/-- Judging stamps no edge. -/
theorem OnlyJudged.any_stamp (h : OnlyJudged W g g') (test : Stamp → Bool) :
    ((g'.contradicts a b).any fun link => test link.stamp) =
      (g.contradicts a b).any fun link => test link.stamp := by
  rcases h.links a b with heq | ⟨-, link, judgement, hlink, hlink', -⟩
  · rw [heq]
  · rw [hlink, hlink']
    rfl

theorem OnlyJudged.openClauses (h : OnlyJudged W g g') (p : MatchedEdge) :
    g'.openClauses p = g.openClauses p := by
  have hreverse : ∀ r, g'.notReverseStamped p r = g.notReverseStamped p r := fun r =>
    congrArg (fun b : Bool => Ternary.not (some b))
      (h.any_stamp fun stamp => stamp.resolution = some r)
  unfold Graph.openClauses indegree
  rw [h.supersedes, funext hreverse]

/-- An edge that is selected carries no verdict. -/
theorem verdict_of_queueClauses {verdicts : Option (List String)} {p : MatchedEdge}
    (h : (g.queueClauses (backfillSelection 0 none verdicts) p).all Ternary.holds) :
    p.e.judgement.verdict = none := by
  have hnull : (Ternary.isNull p.verdict).holds = true := by
    refine List.all_eq_true.mp h _ ?_
    show Ternary.isNull p.verdict ∈ _ ++ [Ternary.isNull p.verdict] ++ g.openClauses p
    simp
  rw [Ternary.holds_isNull, Option.isNone_iff_eq_none] at hnull
  exact Option.map_eq_none_iff.mp hnull

theorem not_judged_of_mem {verdicts : Option (List String)} {p : MatchedEdge}
    (h : p ∈ backfillEdges verdicts g) : ¬g.Judged p.a p.b := by
  obtain ⟨hlink, hheld⟩ := g.mem_matchedContradictions.mp h
  rintro ⟨link, hlink', hverdict⟩
  obtain rfl := Option.some.inj (hlink.symm.trans hlink')
  rw [verdict_of_queueClauses hheld] at hverdict
  cases hverdict

/-- What is selected afterwards was selected before, and is as it was. -/
theorem OnlyJudged.mem_backfillEdges (h : OnlyJudged W g g') {verdicts : Option (List String)}
    {p : MatchedEdge} : p ∈ backfillEdges verdicts g' ↔
      p ∈ backfillEdges verdicts g ∧ g'.contradicts p.a p.b = some p.e := by
  have hclauses : g'.queueClauses (backfillSelection 0 none verdicts) p =
      g.queueClauses (backfillSelection 0 none verdicts) p := by
    unfold queueClauses
    rw [h.openClauses]
  unfold backfillEdges
  rw [mem_matchedContradictions, mem_matchedContradictions, hclauses]
  constructor
  · rintro ⟨hlink', hheld⟩
    refine ⟨⟨?_, hheld⟩, hlink'⟩
    rcases h.links p.a p.b with heq | ⟨-, link, judgement, -, hjudged, hverdict⟩
    · exact heq.symm.trans hlink'
    · have hsame := Option.some.inj (hjudged.symm.trans hlink')
      have hnone := verdict_of_queueClauses hheld
      rw [← hsame] at hnone
      exact absurd hnone (Option.isSome_iff_ne_none.mp hverdict)
  · rintro ⟨⟨-, hheld⟩, hlink'⟩
    exact ⟨hlink', hheld⟩

/-- What was selected still is, or carries a verdict. -/
theorem OnlyJudged.mem_or_judged (h : OnlyJudged W g g') {verdicts : Option (List String)}
    {p : MatchedEdge} (hp : p ∈ backfillEdges verdicts g) :
    p ∈ backfillEdges verdicts g' ∨ W p.a p.b ∧ g'.Judged p.a p.b := by
  rcases h.links p.a p.b with heq | ⟨hW, link, judgement, -, hjudged, hverdict⟩
  · exact .inl (h.mem_backfillEdges.mpr ⟨hp, heq.trans (g.mem_matchedContradictions.mp hp).1⟩)
  · exact .inr ⟨hW, _, hjudged, hverdict⟩

end

end Graph

/-! ### What the program of a pair does -/

/-- The calls that write no more than verdicts, on edges in `W`. -/
def Call.WritesVerdicts (W : String → String → Prop) : Call → Prop
  | .vectors (.getBatch _) => True
  | .graph (.setContradictionVerdict src dst _) => W src dst
  | _ => False

section

open Alaya.Flow Program

variable {serve : Server Reply Service} {I : Service → Prop} {P : Call → Prop} {judge : Judge}
  {judges : ℕ → Judge} {clocks : ℕ → ℚ} {src dst : String} {now : ℚ}

/-- The judgement of a pair from its memories, once they are read. -/
def judgeFound (judge : Judge) (src dst : String) (now : ℚ) (batch : List Memory) : Flow JudgeOutcome :=
  match batch.find? fun m : Memory => m.contentHash = src, batch.find? fun m : Memory => m.contentHash = dst with
  | some a, some b => MemoryService.recordJudgement judge src dst now (judge.judge a b)
  | _, _ => do
    let marked ← MemoryService.markUnjudged src dst judge.modelName "endpoint missing from vector store" now
    return .unjudged marked false

/-- A read that fails, or a judge that fails transiently, writes nothing. -/
theorem makesIn_judgeContradiction (hread : P (.vectors (.getBatch [src, dst])))
    (hfails : ∀ t, I t → (∃ e, (serve (.vectors (.getBatch [src, dst])) t).1 = .error e) ∨
      ∃ (batch : List Memory) (a b : Memory) (e : AlayaError),
        (serve (.vectors (.getBatch [src, dst])) t).1 = .ok batch ∧
        batch.find? (fun m => m.contentHash = src) = some a ∧
        batch.find? (fun m => m.contentHash = dst) = some b ∧
        judge.judge a b = .error e ∧ TransientFailure e) :
    (MemoryService.judgeContradiction (some judge) src dst now).run.MakesIn serve I P := by
  unfold MemoryService.judgeContradiction
  dsimp only
  split
  · trivial
  · refine ⟨hread, fun t ht => ?_⟩
    rcases hfails t ht with ⟨e, he⟩ | ⟨batch, a, b, e, hbatch, ha, hb, hjudge, htransient⟩
    · rw [he]
      trivial
    · rw [hbatch]
      show (judgeFound judge src dst now batch).run.MakesIn serve I P
      unfold judgeFound
      rw [ha, hb]
      dsimp only
      rw [hjudge]
      cases e <;> trivial

theorem makesIn_withBackoff {attempt : ℕ → Flow JudgeOutcome}
    (h : ∀ n, (attempt n).run.MakesIn serve I P) (left n : ℕ) :
    (withBackoff attempt left n).run.MakesIn serve I P := by
  induction left generalizing n with
  | zero => trivial
  | succ left ih =>
    refine (h n).seq fun outcome => ?_
    split
    · split
      · trivial
      · exact ih _
    · trivial

/-- A judge that does not fail transiently is not asked again. -/
theorem returns_judgeContradiction (hjudge : judge.Deterministic) :
    (MemoryService.judgeContradiction (some judge) src dst now).run.Returns
      (IfOk fun outcome => ∀ r, outcome ≠ .rateLimited r) := by
  have hlast : ∀ (p : Flow Bool) (f : Bool → JudgeOutcome), (∀ b r, f b ≠ .rateLimited r) →
      (do let b ← p; return f b : Flow JudgeOutcome).run.Returns
        (IfOk fun outcome => ∀ r, outcome ≠ .rateLimited r) :=
    fun p f hf => Returns.seq (R := fun _ => True) (.of_forall _ fun r => by cases r <;> trivial)
      fun b _ => hf b
  unfold MemoryService.judgeContradiction
  dsimp only
  split
  · exact fun r h => by cases h
  · refine Returns.seq (R := fun _ => True) (.of_forall _ fun r => by cases r <;> trivial) fun batch _ => ?_
    split
    · exact fun r h => by cases h
    · split
      · next a b _ _ =>
        unfold MemoryService.recordJudgement
        split
        · exact hlast _ (.judged _) fun _ _ h => by cases h
        · next h => exact (hjudge.2 a b _ h trivial).elim
        · next h => exact (hjudge.2 a b _ h trivial).elim
        · exact hlast _ (.unjudged · true) fun _ _ h => by cases h
      · exact hlast _ (.unjudged · false) fun _ _ h => by cases h

theorem returns_withBackoff {attempt : ℕ → Flow JudgeOutcome} {left n : ℕ}
    (h : (attempt n).run.Returns (IfOk fun outcome => ∀ r, outcome ≠ .rateLimited r)) :
    (withBackoff attempt (left + 1) n).run.Returns (IfOk fun r => r.2 = n + 1) := by
  refine Returns.seq h fun outcome houtcome => ?_
  split
  · next r => exact (houtcome r rfl).elim
  · rfl

/-- A verdict that passes the bridge's checks is on its edge, or another is, when it was sent. -/
theorem reaches_persistVerdict {v : EdgeVerdict} (hsrc : validateContentHash src)
    (hdst : validateContentHash dst) (hsurvivor : ∀ s ∈ v.verdictSurvivor, validateContentHash s)
    (hconfidence : 0 ≤ v.verdictConfidence ∧ v.verdictConfidence ≤ 1)
    (hedge : ∀ t, I t → (t.graph.contradicts src dst).isSome) :
    (MemoryService.persistVerdict src dst v).run.Reaches Service.serve I
      fun t => t.graph.Judged src dst := by
  have hset : (Bridge.setVerdict src dst v).run.Reaches Service.serve I
      fun t => t.graph.Judged src dst := by
    unfold Bridge.setVerdict
    rw [if_neg (by simp [hsrc, hdst]), if_neg ?_, if_neg (not_not.mpr hconfidence)]
    · exact fun t ht => .inl (Graph.judged_setContradictionVerdict (hedge t ht) v)
    · rw [Option.any_eq_true]
      rintro ⟨s, hs, hinvalid⟩
      rw [hsurvivor s hs] at hinvalid
      cases hinvalid
  exact (hset.bind _).seq _

/-- **A judgement leaves a verdict**: when the memories can be read, whether or not they are there, a
judge that answers, or fails the same way every time, has its pair judged or marked. -/
theorem reaches_judgeContradiction (hjudge : judge.Deterministic) (hsrc : validateContentHash src)
    (hdst : validateContentHash dst) (hne : src ≠ dst)
    (hedge : ∀ t, I t → (t.graph.contradicts src dst).isSome) :
    (MemoryService.judgeContradiction (some judge) src dst now).run.Reaches Service.serve I
      fun t => t.graph.Judged src dst := by
  have hmark : ∀ why, (MemoryService.markUnjudged src dst judge.modelName why now).run.Reaches
      Service.serve I fun t => t.graph.Judged src dst := fun why =>
    reaches_persistVerdict hsrc hdst nofun ⟨le_refl _, zero_le_one⟩ hedge
  unfold MemoryService.judgeContradiction
  dsimp only
  rw [if_neg (by simp [hsrc, hdst, hne])]
  intro t ht
  right
  have hvalid : ∀ h ∈ [src, dst], validateContentHash h := by simp [hsrc, hdst]
  obtain ⟨batch, hbatch⟩ := exists_getBatch t.points hvalid
  rw [show (Service.serve (.vectors (.getBatch [src, dst])) t).1 = .ok batch from hbatch]
  show (judgeFound judge src dst now batch).run.Reaches Service.serve I _
  unfold judgeFound
  split
  · next a b _ _ =>
    cases hanswer : judge.judge a b with
    | ok answer =>
      obtain ⟨-, hlow, hhigh⟩ := hjudge.1 a b answer hanswer
      refine (reaches_persistVerdict hsrc hdst ?_ ⟨hlow, hhigh⟩ hedge).seq _
      intro s hs
      obtain ⟨survivor, -, rfl⟩ := Option.map_eq_some_iff.mp hs
      cases survivor with
      | a => exact hsrc
      | b => exact hdst
    | error e =>
      have htransient := hjudge.2 a b e hanswer
      cases e with
      | rateLimited | unavailable => exact (htransient trivial).elim
      | _ => exact (hmark _).seq _
  · exact (hmark _).seq _

end

/-! ### What a pass leaves -/

/-- Edges between well-formed hashes, as the bridge creates them. -/
def Graph.WellFormedLinks (g : Graph) : Prop :=
  ∀ a b, (g.contradicts a b).isSome → validateContentHash a ∧ validateContentHash b

/-- A state of a pass that started in `s`: only verdicts were written, on edges in `W`. -/
def PassState (W : String → String → Prop) (s t : Service) : Prop :=
  t.points = s.points ∧ s.graph.OnlyJudged W t.graph

section

variable {serve : Server Reply Service} {W : String → String → Prop} {limit : ℕ}
  {verdicts : Option (List String)} {s s' t : Service} {judgings : List Judging}

theorem PassState.serve_of {c : Call} (hserve : Falters serve) (hc : c.WritesVerdicts W)
    (h : PassState W s t) : PassState W s (serve c t).2 := by
  rcases hserve c t with heq | ⟨e, heq⟩
  · rw [heq]
    cases c with
    | vectors c =>
      cases c with
      | getBatch hashes => exact h
      | _ => exact hc.elim
    | graph c =>
      cases c with
      | setContradictionVerdict src dst v =>
        exact ⟨h.1, h.2.trans (Graph.onlyJudged_setContradictionVerdict hc v)⟩
      | _ => exact hc.elim
    | query q => exact hc.elim
    | enqueueStrengthen pairs => exact hc.elim
  · rw [heq]
    exact h

/-- **What a pass leaves**: it writes no more than verdicts, and none where every attempt fails
transiently. -/
theorem BackfillPass.keeps (h : BackfillPass serve limit verdicts s judgings s') (hserve : Falters serve)
    (hW : ∀ j ∈ judgings, (j.src ≠ j.dst → W j.src j.dst) ∨ j.FailsTransiently serve s) :
    PassState W s s' := by
  obtain ⟨tr, hrun⟩ := h.ran
  let P : Fin judgings.length → Call → Prop := fun i c => c.WritesVerdicts W ∨
    (∃ v, c = .graph (.setContradictionVerdict judgings[i].src judgings[i].dst v)) ∧
      ∀ t, t.points = s.points → ∃ e, (serve c t).1 = .error e
  have hkept : ∀ i c t, P i c → PassState W s t → PassState W s (serve c t).2 := by
    rintro i c t (hc | ⟨⟨v, rfl⟩, hfails⟩) ht
    · exact ht.serve_of hserve hc
    · rcases hserve (.graph (.setContradictionVerdict judgings[i].src judgings[i].dst v)) t with heq | ⟨e, heq⟩
      · obtain ⟨e, he⟩ := hfails t ht.1
        rw [heq] at he
        cases he
      · rw [heq]
        exact ht
  refine (Pool.invariant_run hkept (fun i => ?_) ⟨rfl, .refl _⟩ hrun).1
  refine makesIn_withBackoff (fun n => ?_) _ _
  rcases hW judgings[i] (List.getElem_mem _) with hwrites | hfails | hfails
  · exact (makes_judgeContradiction _ (.inl trivial) fun hne v => .inl (hwrites hne)).makesIn
  · exact (makes_judgeContradiction _ (.inl trivial) fun hne v =>
      .inr ⟨⟨v, rfl⟩, fun t ht => hfails t v ht⟩).makesIn
  · exact makesIn_judgeContradiction (.inl trivial) fun t ht => hfails n t ht.1

theorem falters_serve : Falters Service.serve := fun _ _ => .inl rfl

theorem BackfillPass.edge (h : BackfillPass serve limit verdicts s judgings s') {j : Judging}
    (hj : j ∈ judgings) : ∃ p ∈ backfillEdges verdicts s.graph, p.a = j.src ∧ p.b = j.dst := by
  have hpair : j.pair ∈ Bridge.all s.graph (backfillSelection limit none verdicts) :=
    h.selected ▸ List.mem_map_of_mem hj
  obtain ⟨p, hp, hrow⟩ := List.mem_filterMap.mp hpair
  refine ⟨p, List.mem_of_mem_drop (List.mem_of_mem_take hp), ?_⟩
  unfold Bridge.contradictionOf at hrow
  split at hrow
  · cases hrow
  · obtain heq := Option.some.inj hrow
    unfold Judging.src Judging.dst
    rw [← heq]
    exact ⟨rfl, rfl⟩

/-- Every pair that is not one memory with itself carries a verdict after its pass. -/
theorem BackfillPass.judged (h : BackfillPass Service.serve limit verdicts s judgings s')
    (hlinks : s.graph.WellFormedLinks) (hjudges : ∀ j ∈ judgings, ∀ n, (j.judges n).Deterministic)
    {j : Judging} (hj : j ∈ judgings) (hne : j.src ≠ j.dst) : s'.graph.Judged j.src j.dst := by
  obtain ⟨tr, hrun⟩ := h.ran
  obtain ⟨i₀, hi₀, rfl⟩ := List.getElem_of_mem hj
  obtain ⟨p, hp, ha, hb⟩ := h.edge hj
  have hedge : (s.graph.contradicts judgings[i₀].src judgings[i₀].dst).isSome := by
    rw [← ha, ← hb]
    exact Option.isSome_of_eq_some (s.graph.mem_matchedContradictions.mp hp).1
  obtain ⟨hsrc, hdst⟩ := hlinks _ _ hedge
  have hkept : ∀ (i : Fin judgings.length) (c : Call) (t : Service), c.WritesVerdicts (· ≠ ·) →
      PassState (· ≠ ·) s t → PassState (· ≠ ·) s (Service.serve c t).2 :=
    fun _ c t hc ht => ht.serve_of falters_serve hc
  have hmono : ∀ (i : Fin judgings.length) (c : Call) (t : Service), c.WritesVerdicts (· ≠ ·) →
      PassState (· ≠ ·) s t → t.graph.Judged judgings[i₀].src judgings[i₀].dst →
      (Service.serve c t).2.graph.Judged judgings[i₀].src judgings[i₀].dst := by
    intro i c t hc _ ht
    have hnext : PassState (· ≠ ·) t (Service.serve c t).2 :=
      PassState.serve_of falters_serve hc ⟨rfl, .refl _⟩
    exact hnext.2.judged ht
  have hmakes : ∀ i : Fin judgings.length, judgings[i].program.MakesIn Service.serve
      (PassState (· ≠ ·) s) fun c => c.WritesVerdicts (· ≠ ·) := fun i =>
    makesIn_withBackoff (fun n => (makes_judgeContradiction _ trivial fun hne _ => hne).makesIn) _ _
  have hreaches : judgings[i₀].program.Reaches Service.serve (PassState (· ≠ ·) s)
      fun t => t.graph.Judged judgings[i₀].src judgings[i₀].dst :=
    (reaches_judgeContradiction (hjudges _ hj 0) hsrc hdst hne fun t ht =>
      ht.2.isSome_iff.mpr hedge).seq _
  exact Pool.reaches_run hkept hmono hmakes ⟨rfl, .refl _⟩ (j := ⟨i₀, hi₀⟩) hreaches hrun rfl

/-- Judges that do not fail transiently are asked once. -/
theorem BackfillPass.attempts_eq (h : BackfillPass serve limit verdicts s judgings s')
    (hjudges : ∀ j ∈ judgings, ∀ n, (j.judges n).Deterministic) {j : Judging} (hj : j ∈ judgings) :
    j.attempts = 1 := by
  obtain ⟨tr, hrun⟩ := h.ran
  obtain ⟨i₀, hi₀, rfl⟩ := List.getElem_of_mem hj
  have hreturns : ∀ i : Fin judgings.length,
      judgings[i].program.Returns (Program.IfOk fun r => r.2 = 0 + 1) := fun i =>
    returns_withBackoff (returns_judgeContradiction (hjudges _ (List.getElem_mem _) 0))
  exact Pool.returns_run hreturns hrun (j := ⟨i₀, hi₀⟩) rfl

/-- The pairs of a page are those of the first edges of the selection. -/
theorem BackfillPass.pairs_eq (h : BackfillPass serve limit verdicts s judgings s')
    (hlinks : s.graph.WellFormedLinks) : judgings.map Judging.pair =
      ((backfillEdges verdicts s.graph).take (backfillSelection limit none verdicts).pageLimit).map
        Bridge.contradictionRow := by
  have hne : ∀ p ∈ s.graph.matchedContradictions (backfillSelection limit none verdicts),
      p.a ≠ "" ∧ p.b ≠ "" := by
    intro p hp
    obtain ⟨ha, hb⟩ := hlinks p.a p.b
      (Option.isSome_of_eq_some (s.graph.mem_matchedContradictions.mp hp).1)
    refine ⟨?_, ?_⟩
    · intro heq
      rw [heq] at ha
      exact absurd ha (by decide)
    · intro heq
      rw [heq] at hb
      exact absurd hb (by decide)
  rw [h.selected, s.graph.all_eq_map_of hne]
  rfl

theorem BackfillPass.ne_nil (h : BackfillPass serve limit verdicts s judgings s')
    (hlinks : s.graph.WellFormedLinks) (hedges : backfillEdges verdicts s.graph ≠ []) :
    judgings ≠ [] := by
  rintro rfl
  have hpage := (h.pairs_eq hlinks).symm
  rw [List.map_nil, List.map_eq_nil_iff, List.take_eq_nil_iff] at hpage
  have hone : 1 ≤ (backfillSelection limit none verdicts).pageLimit := le_max_left 1 _
  exact hpage.elim (by omega) hedges

/-- A pass judges a pair once. -/
theorem BackfillPass.nodup (h : BackfillPass serve limit verdicts s judgings s') :
    (judgings.map fun j => (j.src, j.dst)).Nodup := by
  have hpairs := s.graph.nodup_hashes (backfillSelection limit none verdicts)
  rw [← h.selected, List.map_map] at hpairs
  exact hpairs

/-- The edges a pass leaves in the selection. -/
theorem BackfillPass.rest (h : BackfillPass Service.serve limit verdicts s judgings s')
    (hlinks : s.graph.WellFormedLinks) (hjudges : ∀ j ∈ judgings, ∀ n, (j.judges n).Deterministic)
    (hself : ∀ p ∈ backfillEdges verdicts s.graph, p.a ≠ p.b) :
    (backfillEdges verdicts s'.graph).length ≤ (backfillEdges verdicts s.graph).length - 1 := by
  have hkeeps : PassState (· ≠ ·) s s' := h.keeps falters_serve fun _ _ => .inl id
  set n := (backfillSelection limit none verdicts).pageLimit with hn
  have hone : 1 ≤ n := le_max_left 1 _
  have hrest : backfillEdges verdicts s'.graph ⊆ (backfillEdges verdicts s.graph).drop n := by
    intro p hp
    obtain ⟨hbefore, -⟩ := hkeeps.2.mem_backfillEdges.mp hp
    rw [← List.take_append_drop n (backfillEdges verdicts s.graph), List.mem_append] at hbefore
    refine hbefore.resolve_left fun hpage => ?_
    -- An edge of the page was judged.
    have hrow : Bridge.contradictionRow p ∈ judgings.map Judging.pair := by
      rw [h.pairs_eq hlinks]
      exact List.mem_map_of_mem hpage
    obtain ⟨j, hj, hpair⟩ := List.mem_map.mp hrow
    have hsrc : j.src = p.a := congrArg Contradiction.memoryAHash hpair
    have hdst : j.dst = p.b := congrArg Contradiction.memoryBHash hpair
    have hne : j.src ≠ j.dst := by
      rw [hsrc, hdst]
      exact hself p (List.mem_of_mem_take hpage)
    have hjudged := h.judged hlinks hjudges hj hne
    rw [hsrc, hdst] at hjudged
    exact Graph.not_judged_of_mem hp hjudged
  have hnodup : (backfillEdges verdicts s'.graph).Nodup :=
    List.Nodup.of_map _ (s'.graph.nodup_ends _)
  have hle := (hnodup.subperm hrest).length_le
  rw [List.length_drop] at hle
  omega

end

/-! ### Passes one after another -/

/-- The attempts at an edge, over all passes.  An attempt calls the model at most once. -/
def attemptsAt (a b : String) (passes : List (List Judging)) : ℕ :=
  ((passes.flatten.filter fun j => (j.src, j.dst) = (a, b)).map Judging.attempts).sum

section

variable {limit : ℕ} {verdicts : Option (List String)} {s s' : Service} {passes : List (List Judging)}
  {a b : String}

theorem BackfillPasses.keeps (h : BackfillPasses limit verdicts s passes s') :
    s.graph.OnlyJudged (· ≠ ·) s'.graph := by
  induction h with
  | start => exact .refl _
  | pass hpass _ ih =>
    have hkeeps : PassState (· ≠ ·) _ _ := hpass.keeps falters_serve fun _ _ => .inl id
    exact hkeeps.2.trans ih

theorem Graph.OnlyJudged.wellFormedLinks {W : String → String → Prop} {g g' : Graph}
    (h : g.OnlyJudged W g') (hlinks : g.WellFormedLinks) : g'.WellFormedLinks :=
  fun a b hab => hlinks a b (h.isSome_iff.mp hab)

/-- An edge that was selected carries a verdict exactly if it does not join a memory to itself. -/
theorem BackfillPasses.judged_iff (h : BackfillPasses limit verdicts s passes s')
    (hlinks : s.graph.WellFormedLinks)
    (hjudges : ∀ j ∈ passes.flatten, ∀ n, (j.judges n).Deterministic) {j : Judging}
    (hj : j ∈ passes.flatten) : s'.graph.Judged j.src j.dst ↔ j.src ≠ j.dst := by
  induction h with
  | start => cases hj
  | @pass s t s' judgings passes hpass hpasses ih =>
    have hkeeps : PassState (· ≠ ·) s t := hpass.keeps falters_serve fun _ _ => .inl id
    rw [List.flatten_cons] at hj hjudges
    rcases List.mem_append.mp hj with hhead | htail
    · constructor
      · rintro ⟨link, hlink, hverdict⟩ hself
        obtain ⟨p, hp, ha, hb⟩ := hpass.edge hhead
        have hall := hkeeps.2.trans hpasses.keeps
        rcases hall.links j.src j.dst with heq | ⟨hne, -⟩
        · refine Graph.not_judged_of_mem hp ⟨link, ?_, hverdict⟩
          rw [ha, hb, ← heq]
          exact hlink
        · exact hne hself
      · intro hne
        exact hpasses.keeps.judged (hpass.judged hlinks
          (fun j hj => hjudges j (List.mem_append_left _ hj)) hhead hne)
    · exact ih (hkeeps.2.wellFormedLinks hlinks) (fun j hj => hjudges j (List.mem_append_right _ hj)) htail

/-- An edge that carries a verdict is not attempted. -/
theorem BackfillPasses.attemptsAt_eq_zero (h : BackfillPasses limit verdicts s passes s')
    (hjudged : s.graph.Judged a b) : attemptsAt a b passes = 0 := by
  induction h with
  | start => rfl
  | @pass s t s' judgings passes hpass hpasses ih =>
    have hkeeps : PassState (· ≠ ·) s t := hpass.keeps falters_serve fun _ _ => .inl id
    have hhead : judgings.filter (fun j => (j.src, j.dst) = (a, b)) = [] := by
      refine List.filter_eq_nil_iff.mpr fun j hj hends => ?_
      obtain ⟨rfl, rfl⟩ := Prod.mk.inj (of_decide_eq_true hends)
      obtain ⟨p, hp, ha, hb⟩ := hpass.edge hj
      refine Graph.not_judged_of_mem hp ?_
      rw [ha, hb]
      exact hjudged
    unfold attemptsAt
    rw [List.flatten_cons, List.filter_append, hhead, List.nil_append]
    exact ih (hkeeps.2.judged hjudged)

/-- **No edge is attempted twice**, unless it joins a memory to itself. -/
theorem BackfillPasses.attemptsAt_le (h : BackfillPasses limit verdicts s passes s')
    (hlinks : s.graph.WellFormedLinks)
    (hjudges : ∀ j ∈ passes.flatten, ∀ n, (j.judges n).Deterministic) (hne : a ≠ b) :
    attemptsAt a b passes ≤ 1 := by
  induction h with
  | start => exact Nat.zero_le _
  | @pass s t s' judgings passes hpass hpasses ih =>
    have hkeeps : PassState (· ≠ ·) s t := hpass.keeps falters_serve fun _ _ => .inl id
    rw [List.flatten_cons] at hjudges
    have hsplit : attemptsAt a b (judgings :: passes) =
        attemptsAt a b [judgings] + attemptsAt a b passes := by
      unfold attemptsAt
      rw [List.flatten_cons, List.filter_append, List.map_append, List.sum_append, List.flatten_singleton]
    by_cases hhead : ∃ j ∈ judgings, (j.src, j.dst) = (a, b)
    · obtain ⟨j, hj, hends⟩ := hhead
      obtain ⟨rfl, rfl⟩ := Prod.mk.inj hends
      have hjudged := hpass.judged hlinks (fun j hj => hjudges j (List.mem_append_left _ hj)) hj hne
      have hattempts := hpass.attempts_eq (fun j hj => hjudges j (List.mem_append_left _ hj)) hj
      have honce : attemptsAt j.src j.dst [judgings] = 1 := by
        unfold attemptsAt
        rw [List.flatten_singleton, filter_key hpass.nodup hj, List.map_singleton, List.sum_singleton,
          hattempts]
      rw [hsplit, hpasses.attemptsAt_eq_zero hjudged, honce]
    · have hnone : attemptsAt a b [judgings] = 0 := by
        unfold attemptsAt
        rw [List.flatten_singleton, List.filter_eq_nil_iff.mpr fun j hj hends =>
          hhead ⟨j, hj, of_decide_eq_true hends⟩]
        rfl
      rw [hsplit, hnone, Nat.zero_add]
      exact ih (hkeeps.2.wellFormedLinks hlinks) fun j hj => hjudges j (List.mem_append_right _ hj)

/-- What was selected at the start still is, or was selected by a pass. -/
theorem BackfillPasses.selected (h : BackfillPasses limit verdicts s passes s') {p : MatchedEdge}
    (hp : p ∈ backfillEdges verdicts s.graph) :
    p ∈ backfillEdges verdicts s'.graph ∨ ∃ j ∈ passes.flatten, j.src = p.a ∧ j.dst = p.b := by
  induction h with
  | start => exact .inl hp
  | @pass s t s' judgings passes hpass hpasses ih =>
    have hkeeps : PassState (fun a b => ∃ j ∈ judgings, j.src = a ∧ j.dst = b) s t :=
      hpass.keeps falters_serve fun j hj => .inl fun _ => ⟨j, hj, rfl, rfl⟩
    rw [List.flatten_cons]
    rcases hkeeps.2.mem_or_judged hp with hmid | ⟨⟨j, hj, hends⟩, -⟩
    · rcases ih hmid with hlast | ⟨j, hj, hends⟩
      · exact .inl hlast
      · exact .inr ⟨j, List.mem_append_right _ hj, hends⟩
    · exact .inr ⟨j, List.mem_append_left _ hj, hends⟩

/-- Each pass takes an edge off the selection. -/
theorem BackfillPasses.rest (h : BackfillPasses limit verdicts s passes s')
    (hlinks : s.graph.WellFormedLinks)
    (hjudges : ∀ j ∈ passes.flatten, ∀ n, (j.judges n).Deterministic)
    (hself : ∀ p ∈ backfillEdges verdicts s.graph, p.a ≠ p.b) :
    (backfillEdges verdicts s'.graph).length ≤
      (backfillEdges verdicts s.graph).length - passes.length := by
  induction h with
  | start => exact le_refl _
  | @pass s t s' judgings passes hpass hpasses ih =>
    have hkeeps : PassState (· ≠ ·) s t := hpass.keeps falters_serve fun _ _ => .inl id
    rw [List.flatten_cons] at hjudges
    have hhead := hpass.rest hlinks (fun j hj => hjudges j (List.mem_append_left _ hj)) hself
    have htail := ih (hkeeps.2.wellFormedLinks hlinks)
      (fun j hj => hjudges j (List.mem_append_right _ hj))
      fun p hp => hself p (hkeeps.2.mem_backfillEdges.mp hp).1
    rw [List.length_cons]
    omega

end

/-! ### Passes can be run -/

section

open Alaya.Flow Program

theorem returns_persistVerdict (src dst : String) (v : EdgeVerdict) :
    (MemoryService.persistVerdict src dst v).run.Returns Succeeds :=
  .seq_succeeds (.bind (.of_forall _ fun _ => trivial) fun r _ => ⟨r, rfl⟩) fun _ => ⟨_, rfl⟩

/-- A judgement ends in an outcome, never in an error. -/
theorem succeeds_judgeContradiction (judge : Judge) (src dst : String) (now : ℚ) :
    (MemoryService.judgeContradiction (some judge) src dst now).run.Returns Succeeds := by
  unfold MemoryService.judgeContradiction
  dsimp only
  split
  · exact ⟨_, rfl⟩
  · refine .seq_succeeds (.bind (.of_forall _ fun _ => trivial) fun r _ => ⟨r, rfl⟩) fun batch => ?_
    split
    · exact ⟨_, rfl⟩
    · split
      · unfold MemoryService.recordJudgement
        split
        · exact (returns_persistVerdict ..).seq_succeeds fun _ => ⟨_, rfl⟩
        · exact ⟨_, rfl⟩
        · exact ⟨_, rfl⟩
        · exact (returns_persistVerdict ..).seq_succeeds fun _ => ⟨_, rfl⟩
      · exact (returns_persistVerdict ..).seq_succeeds fun _ => ⟨_, rfl⟩

theorem succeeds_withBackoff {attempt : ℕ → Flow JudgeOutcome}
    (h : ∀ n, (attempt n).run.Returns Succeeds) (left n : ℕ) :
    (withBackoff attempt left n).run.Returns Succeeds := by
  induction left generalizing n with
  | zero => exact ⟨_, rfl⟩
  | succ left ih =>
    refine (h n).seq_succeeds fun outcome => ?_
    split
    · split
      · exact ⟨_, rfl⟩
      · exact ih _
    · exact ⟨_, rfl⟩

/-- **A pass ends**, whatever the judges answer. -/
theorem exists_backfillPass (judges : Contradiction → ℕ → Judge) (clocks : Contradiction → ℕ → ℚ)
    (limit : ℕ) (verdicts : Option (List String)) (s : Service) : ∃ judgings s',
    BackfillPass Service.serve limit verdicts s judgings s' ∧
      ∀ j ∈ judgings, j.judges = judges j.pair := by
  set pairs := Bridge.all s.graph (backfillSelection limit none verdicts)
  let programs : Fin pairs.length → Program Reply (Except AlayaError (JudgeOutcome × ℕ)) := fun i =>
    (backfillOne (judges pairs[i]) (clocks pairs[i]) pairs[i].memoryAHash pairs[i].memoryBHash).run
  obtain ⟨tr, pool, hrun, hdone⟩ := Pool.exists_run Service.serve ⟨programs, s⟩
  have hresult : ∀ i, ∃ r, pool.programs i = .done (.ok r) := by
    intro i
    obtain ⟨a, ha⟩ := hdone i
    have hreturns := Pool.returns_run (R := fun _ => Succeeds)
      (fun i => succeeds_withBackoff (fun n => succeeds_judgeContradiction ..) _ _) hrun ha
    obtain ⟨r, rfl⟩ := hreturns
    exact ⟨r, ha⟩
  choose results hresults using hresult
  let judging : Fin pairs.length → Judging := fun i =>
    { pair := pairs[i]
      judges := judges pairs[i]
      clocks := clocks pairs[i]
      outcome := (results i).1
      attempts := (results i).2 }
  have hpool : pool = ⟨fun i => .done (.ok (results i)), pool.state⟩ := by
    rw [← funext hresults]
  rw [hpool] at hrun
  refine ⟨List.ofFn judging, pool.state, ⟨?_, ?_⟩, ?_⟩
  · rw [List.map_ofFn]
    exact List.ofFn_getElem
  · -- The same run, over the indices of the list of judgings.
    have hcast : ∀ {m : ℕ} (h : m = pairs.length), ∃ tr, Run (Steps (Pool.step Service.serve))
        ⟨fun i : Fin m => programs (i.cast h), s⟩ tr
        ⟨fun i => .done (.ok (results (i.cast h))), pool.state⟩ := by
      rintro m rfl
      exact ⟨tr, hrun⟩
    obtain ⟨tr', hrun'⟩ := hcast List.length_ofFn
    refine ⟨tr', ?_⟩
    simp only [Fin.getElem_fin, List.getElem_ofFn]
    exact hrun'
  · intro j hj
    obtain ⟨i, rfl⟩ := (List.mem_ofFn' _ _).mp hj
    rfl

end

/-- As many passes can be run as are asked for. -/
theorem exists_backfillPasses (judges : Contradiction → ℕ → Judge) (clocks : Contradiction → ℕ → ℚ)
    (limit : ℕ) (verdicts : Option (List String)) (n : ℕ) (s : Service) : ∃ passes s',
    BackfillPasses limit verdicts s passes s' ∧ passes.length = n ∧
      ∀ j ∈ passes.flatten, j.judges = judges j.pair := by
  induction n generalizing s with
  | zero => exact ⟨[], s, .start, rfl, fun _ h => absurd h List.not_mem_nil⟩
  | succ n ih =>
    obtain ⟨judgings, t, hpass, hhead⟩ := exists_backfillPass judges clocks limit verdicts s
    obtain ⟨passes, s', hpasses, hlength, htail⟩ := ih t
    refine ⟨judgings :: passes, s', .pass hpass hpasses, congrArg (· + 1) hlength, fun j hj => ?_⟩
    rw [List.flatten_cons] at hj
    exact (List.mem_append.mp hj).elim (hhead j) (htail j)

/-- **A pair that fails transiently keeps its edge as it is.** -/
theorem BackfillPass.edge_stays {serve : Server Reply Service} {limit : ℕ}
    {verdicts : Option (List String)} {s s' : Service} {judgings : List Judging}
    (h : BackfillPass serve limit verdicts s judgings s') (hserve : Falters serve) {j : Judging}
    (hj : j ∈ judgings) (hfails : j.FailsTransiently serve s) :
    s'.graph.contradicts j.src j.dst = s.graph.contradicts j.src j.dst := by
  have hkeeps : PassState (fun a b => (a, b) ≠ (j.src, j.dst)) s s' := by
    refine h.keeps hserve fun j' hj' => ?_
    by_cases hsame : (j'.src, j'.dst) = (j.src, j.dst)
    · obtain rfl := List.inj_on_of_nodup_map h.nodup hj' hj hsame
      exact .inr hfails
    · exact .inl fun _ => hsame
  rcases hkeeps.2.links j.src j.dst with heq | ⟨hother, -⟩
  · exact heq
  · exact absurd rfl hother

/-- **Backfilling converges where no selected edge joins a memory to itself.**  For edges between
well-formed hashes and judges that never fail transiently: every edge a pass selected carries a
verdict afterwards and is not selected again, exactly if it does not join a memory to itself; no
other edge is attempted twice; every edge of the first selection is still selected or was judged; and
after as many passes as it had edges the selection is empty, exactly if it had no such edge.  An edge
whose judging fails transiently, in whatever way, keeps its properties. -/
theorem backfill_converges {limit : ℕ} {verdicts : Option (List String)} {s s' : Service}
    {passes : List (List Judging)} (h : BackfillPasses limit verdicts s passes s')
    (hlinks : s.graph.WellFormedLinks)
    (hjudges : ∀ j ∈ passes.flatten, ∀ n, (j.judges n).Deterministic) :
    (∀ j ∈ passes.flatten, (s'.graph.Judged j.src j.dst ∧
      ∀ p ∈ backfillEdges verdicts s'.graph, (p.a, p.b) ≠ (j.src, j.dst)) ↔ j.src ≠ j.dst) ∧
    (∀ a b, a ≠ b → attemptsAt a b passes ≤ 1) ∧
    (∀ p ∈ backfillEdges verdicts s.graph, p ∈ backfillEdges verdicts s'.graph ∨
      ∃ j ∈ passes.flatten, j.src = p.a ∧ j.dst = p.b) ∧
    ((backfillEdges verdicts s.graph).length ≤ passes.length →
      (backfillEdges verdicts s'.graph = [] ↔ ∀ p ∈ backfillEdges verdicts s.graph, p.a ≠ p.b)) ∧
    ∀ serve, Falters serve → ∀ limit verdicts t judgings t',
      BackfillPass serve limit verdicts t judgings t' → ∀ j ∈ judgings, j.FailsTransiently serve t →
        t'.graph.contradicts j.src j.dst = t.graph.contradicts j.src j.dst := by
  refine ⟨fun j hj => ?_, fun a b hne => h.attemptsAt_le hlinks hjudges hne, fun p hp => h.selected hp,
    fun hlong => ⟨fun hempty p hp hself => ?_, fun hself => ?_⟩,
    fun serve hserve limit verdicts t judgings t' hpass j hj hfails => hpass.edge_stays hserve hj hfails⟩
  · rw [← h.judged_iff hlinks hjudges hj]
    refine ⟨And.left, fun hjudged => ⟨hjudged, fun p hp hends => ?_⟩⟩
    obtain ⟨hsrc, hdst⟩ := Prod.mk.inj hends
    rw [← hsrc, ← hdst] at hjudged
    exact Graph.not_judged_of_mem hp hjudged
  · rcases h.keeps.mem_or_judged hp with hlast | ⟨hne, -⟩
    · rw [hempty] at hlast
      cases hlast
    · exact hne hself
  · have hrest := h.rest hlinks hjudges hself
    exact List.eq_nil_of_length_eq_zero (by omega)

/-! ### One edge -/

/-- A judge that never answers the way it is asked to. -/
def brokenJudge : Judge where
  modelName := "broken"
  judge _ _ := .error (.storage "no verdict")

theorem deterministic_brokenJudge : brokenJudge.Deterministic := by
  refine ⟨fun a b answer h => ?_, fun a b e h => ?_⟩
  · cases h
  · cases h
    exact id

def hashA : String := String.ofList (List.replicate 64 'a')

def hashB : String := String.ofList (List.replicate 64 'b')

/-- Two nodes without memories, and one pair linked through the bridge. -/
def linkedPair (a b : String) : Service :=
  ((Bridge.createTypedBatch [⟨a, b, .contradicts, 1, none⟩]).run.run Service.serve
    { points := fun _ => none
      vectors := fun _ => none
      graph := (Graph.empty.ensureNode hashA).ensureNode hashB
      coAccess := []
      client := 0
      writes := 0
      answer := fun _ _ _ => .error (.storage "unreachable") }).2

theorem link_self : (linkedPair hashA hashA).graph.contradicts hashA hashA =
    some { createdAt := some 1 } := by decide +kernel

theorem link_pair : (linkedPair hashA hashB).graph.contradicts hashA hashB =
    some { createdAt := some 1 } := by decide +kernel

theorem wellFormed_linkedPair {b : String} (hb : b ∈ [hashA, hashB]) :
    (linkedPair hashA b).graph.WellFormedLinks := by
  intro c d hcd
  have hnodes : ∀ b ∈ [hashA, hashB], ∀ h ∈ (linkedPair hashA b).graph.nodes,
      validateContentHash h := by decide +kernel
  obtain ⟨hc, hd⟩ := (linkedPair hashA b).graph.contradicts_nodes c d hcd
  exact ⟨hnodes b hb c hc, hnodes b hb d hd⟩

/-- A pair of two hashes is judged, and the selection is empty. -/
theorem pair_converges : ∃ passes s',
    BackfillPasses 1 none (linkedPair hashA hashB) passes s' ∧ backfillEdges none s'.graph = [] ∧
      attemptsAt hashA hashB passes ≤ 1 ∧ ∃ j ∈ passes.flatten, s'.graph.Judged j.src j.dst := by
  have hself : ∀ p ∈ backfillEdges none (linkedPair hashA hashB).graph, p.a ≠ p.b := by
    have hloops : ∀ h ∈ (linkedPair hashA hashB).graph.nodes,
        (linkedPair hashA hashB).graph.contradicts h h = none := by decide +kernel
    intro p hp heq
    have hlink := ((linkedPair hashA hashB).graph.mem_matchedContradictions.mp hp).1
    rw [← heq, hloops p.a ((linkedPair hashA hashB).graph.contradicts_nodes p.a p.a
      (Option.isSome_of_eq_some hlink)).1] at hlink
    cases hlink
  have hmem : ⟨hashA, hashB, { createdAt := some 1 }⟩ ∈
      backfillEdges none (linkedPair hashA hashB).graph :=
    (linkedPair hashA hashB).graph.mem_matchedContradictions.mpr ⟨link_pair, by decide +kernel⟩
  obtain ⟨passes, s', hpasses, hlength, hjudges⟩ := exists_backfillPasses (fun _ _ => brokenJudge)
    (fun _ _ => 1) 1 none (backfillEdges none (linkedPair hashA hashB).graph).length
    (linkedPair hashA hashB)
  obtain ⟨hjudged, honce, hselected, hempty, -⟩ := backfill_converges hpasses
    (wellFormed_linkedPair (List.mem_cons_of_mem _ List.mem_cons_self))
    fun j hj n => by
      rw [hjudges j hj]
      exact deterministic_brokenJudge
  have hdone := (hempty hlength.ge).mpr hself
  refine ⟨passes, s', hpasses, hdone, honce hashA hashB (by decide +kernel), ?_⟩
  obtain ⟨j, hj, hsrc, hdst⟩ := (hselected _ hmem).resolve_left (by rw [hdone]; exact List.not_mem_nil)
  refine ⟨j, hj, ((hjudged j hj).mpr ?_).1⟩
  rw [hsrc, hdst]
  exact hself _ hmem

/-- **A memory linked to itself is selected by every pass and never judged**, and the selection is
never empty. -/
theorem self_pair_stays :
    (∃ judgings s', BackfillPass Service.serve 1 none (linkedPair hashA hashA) judgings s' ∧
      ∃ j ∈ judgings, j.src = hashA ∧ j.dst = hashA ∧ (∀ n, (j.judges n).Deterministic) ∧
        ¬s'.graph.Judged hashA hashA) ∧
    ∀ passes s', BackfillPasses 1 none (linkedPair hashA hashA) passes s' →
      backfillEdges none s'.graph ≠ [] := by
  have hlinked : ∀ a ∈ (linkedPair hashA hashA).graph.nodes,
      ∀ b ∈ (linkedPair hashA hashA).graph.nodes,
        ((linkedPair hashA hashA).graph.contradicts a b).isSome → a = hashA ∧ b = hashA := by
    decide +kernel
  have hmem : ⟨hashA, hashA, { createdAt := some 1 }⟩ ∈
      backfillEdges none (linkedPair hashA hashA).graph :=
    (linkedPair hashA hashA).graph.mem_matchedContradictions.mpr ⟨link_self, by decide +kernel⟩
  refine ⟨?_, fun passes s' hpasses hempty => ?_⟩
  · obtain ⟨judgings, s', hpass, hjudges⟩ := exists_backfillPass (fun _ _ => brokenJudge)
      (fun _ _ => 1) 1 none (linkedPair hashA hashA)
    have hkeeps : PassState (· ≠ ·) _ s' := hpass.keeps falters_serve fun _ _ => .inl id
    have hsome : judgings ≠ [] :=
      hpass.ne_nil (wellFormed_linkedPair List.mem_cons_self) (List.ne_nil_of_mem hmem)
    obtain ⟨j, hj⟩ := List.exists_mem_of_ne_nil _ hsome
    obtain ⟨p, hp, hsrc, hdst⟩ := hpass.edge hj
    have hedge := Option.isSome_of_eq_some
      ((linkedPair hashA hashA).graph.mem_matchedContradictions.mp hp).1
    obtain ⟨ha, hb⟩ := (linkedPair hashA hashA).graph.contradicts_nodes p.a p.b hedge
    obtain ⟨ha, hb⟩ := hlinked p.a ha p.b hb hedge
    refine ⟨judgings, s', hpass, j, hj, hsrc.symm.trans ha, hdst.symm.trans hb, fun n => ?_, ?_⟩
    · rw [hjudges j hj]
      exact deterministic_brokenJudge
    · rcases hkeeps.2.mem_or_judged hmem with hlast | ⟨hne, -⟩
      · exact Graph.not_judged_of_mem hlast
      · exact absurd rfl hne
  · rcases hpasses.keeps.mem_or_judged hmem with hlast | ⟨hne, -⟩
    · rw [hempty] at hlast
      cases hlast
    · exact absurd rfl hne

end Alaya
