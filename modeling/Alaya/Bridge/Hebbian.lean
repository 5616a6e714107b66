import Alaya.Lib.Run
import Mathlib.Data.Finset.Card
import Mathlib.Data.String.Basic
import Mathlib.Logic.Function.Basic
import Mathlib.Tactic.Linarith
import Mathlib.Tactic.NormNum
import Mathlib.Algebra.Order.Field.Rat

/-!
# Hebbian weights

Co-access pairs are queued in Redis and drained one by one into `strengthen_edge`; the consolidation
endpoints decay the weights and prune the weak edges.  Weights are rationals, so the arithmetic is exact.

The range of the weights is an invariant of the runs whose decay factors are in [0, 1] (`hebbian_range`).
The bridge does not check the factor it is given.
-/

namespace Alaya

open Labelled

structure HebbianEdge where
  weight : ℚ
  coAccessCount : ℕ
  createdAt : ℚ
  lastCoAccess : ℚ

/-- An item of the write queue. -/
structure Hebbian.CoAccessPair where
  src : String
  dst : String
  spacingQuality : ℚ
  timestamp : ℚ

/-- The memory nodes, the HEBBIAN edges between them, and the write queue, its left end first. -/
structure Hebbian where
  nodes : Finset String
  edges : String × String → Option HebbianEdge
  queue : List Hebbian.CoAccessPair

namespace Hebbian

def initialWeight : ℚ := 0.1
def strengthenRate : ℚ := 0.15
def maxWeight : ℚ := 1

/-- `POST /hebbian/strengthen` takes at most this many pairs. -/
def maxPairs : ℕ := 50

/-- `f64::clamp(0.0, 1.0)`. -/
def clampUnit (q : ℚ) : ℚ := if q < 0 then 0 else if 1 < q then 1 else q

/-- The page size of a consolidation call. -/
def batchLimit (limit : Option ℤ) : ℕ := (max 1 (min (limit.getD 10000) 100000)).toNat

/-- The weight after another co-access. -/
def strengthened (rate maxW spMod w : ℚ) : ℚ :=
  if w + rate * (1 - w / maxW) * spMod > maxW then maxW else w + rate * (1 - w / maxW) * spMod

/-- `MERGE` a HEBBIAN edge, where both nodes are there. -/
def strengthenEdge (h : Hebbian) (src dst : String) (initWeight rate maxW spMod ts : ℚ) : Hebbian :=
  if src ∈ h.nodes ∧ dst ∈ h.nodes then
    { h with edges := Function.update h.edges (src, dst) <| some <| match h.edges (src, dst) with
        | none => ⟨initWeight, 1, ts, ts⟩
        | some e => { e with
            weight := strengthened rate maxW spMod e.weight
            coAccessCount := e.coAccessCount + 1
            lastCoAccess := ts } }
  else h

/-- One item of the queue. -/
def applyPair (h : Hebbian) (pair : CoAccessPair) : Hebbian :=
  h.strengthenEdge pair.src pair.dst initialWeight strengthenRate maxWeight
    (0.5 + 0.5 * clampUnit pair.spacingQuality) pair.timestamp

/-- Multiply the weights of the picked edges. -/
def decayEdges (h : Hebbian) (decay : ℚ) (picked : Finset (String × String)) : Hebbian :=
  { h with edges := fun k => (h.edges k).map fun e => if k ∈ picked then { e with weight := e.weight * decay } else e }

/-- `DELETE` the picked edges. -/
def pruneEdges (h : Hebbian) (picked : Finset (String × String)) : Hebbian :=
  { h with edges := fun k => if k ∈ picked then none else h.edges k }

/-- `MATCH .. WHERE .. WITH e LIMIT $lim`: some of the matching edges, all of them below the limit. -/
structure Limited (h : Hebbian) (matching : HebbianEdge → Prop) (lim : ℕ) (picked : Finset (String × String)) :
    Prop where
  le : picked.card ≤ lim
  matched : ∀ k ∈ picked, ∃ e, h.edges k = some e ∧ matching e
  all : picked.card < lim → ∀ k e, h.edges k = some e → matching e → k ∈ picked

/-- What happens to the edges and the queue.  A request names the items it got into the queue, a drained item
whether its query was executed, and a consolidation call the edges its statement picked. -/
inductive Op
  | ensureNode (hash : String)
  | strengthen (pairs : List CoAccessPair) (pushed : ℕ)
  | drain (executed : Bool)
  | decayAll (decayFactor : ℚ) (limit : Option ℤ) (picked : Finset (String × String))
  | decayStale (staleBefore decayFactor : ℚ) (limit : Option ℤ) (picked : Finset (String × String))
  | prune (threshold : ℚ) (limit : Option ℤ) (picked : Finset (String × String))

inductive Step : Hebbian → Op → Hebbian → Prop
  | ensureNode {h : Hebbian} (hash : String) : Step h (.ensureNode hash) { h with nodes := insert hash h.nodes }
  | strengthen {h : Hebbian} {pairs : List CoAccessPair} (pushed : ℕ) : pairs.length ≤ maxPairs →
      -- Each item is pushed on the left; a pipeline that fails has pushed the first ones.
      Step h (.strengthen pairs pushed) { h with queue := (pairs.take pushed).reverse ++ h.queue }
  | drain {h : Hebbian} {queue : List CoAccessPair} {pair : CoAccessPair} (executed : Bool) :
      h.queue = queue ++ [pair] →
      Step h (.drain executed) (if executed then { h with queue }.applyPair pair else { h with queue })
  | decayAll {h : Hebbian} (decayFactor : ℚ) {limit : Option ℤ} {picked : Finset (String × String)} :
      h.Limited (fun _ => True) (batchLimit limit) picked →
      Step h (.decayAll decayFactor limit picked) (h.decayEdges decayFactor picked)
  | decayStale {h : Hebbian} {staleBefore : ℚ} (decayFactor : ℚ) {limit : Option ℤ}
      {picked : Finset (String × String)} :
      h.Limited (fun e => e.lastCoAccess < staleBefore) (batchLimit limit) picked →
      Step h (.decayStale staleBefore decayFactor limit picked) (h.decayEdges decayFactor picked)
  | prune {h : Hebbian} {threshold : ℚ} {limit : Option ℤ} {picked : Finset (String × String)} :
      h.Limited (fun e => e.weight < threshold) (batchLimit limit) picked →
      Step h (.prune threshold limit picked) (h.pruneEdges picked)

/-- The factor and the edges of a decay. -/
def Op.decay : Op → Option (ℚ × Finset (String × String))
  | .decayAll decayFactor _ picked => some (decayFactor, picked)
  | .decayStale _ decayFactor _ picked => some (decayFactor, picked)
  | _ => none

/-- The edges a consolidation call picked. -/
def Op.picked : Op → Finset (String × String)
  | .decayAll _ _ picked | .decayStale _ _ _ picked | .prune _ _ picked => picked
  | _ => ∅

/-- A decay multiplies by a factor in [0, 1]. -/
def Op.InRange (op : Op) : Prop := ∀ d ∈ op.decay, 0 ≤ d.1 ∧ d.1 ≤ 1

/-- What an operation leaves of whether an edge was decayed since it was last pruned. -/
def Op.marks (k : String × String) (d : Bool) : Op → Bool
  | .decayAll _ _ picked => d || k ∈ picked
  | .decayStale _ _ _ picked => d || k ∈ picked
  | .prune _ _ picked => d && k ∉ picked
  | _ => d

def decayed (k : String × String) (tr : List Op) : Bool := tr.foldl (Op.marks k) false

/-- All weights are in [0, 1], and an edge that was never decayed has at least the weight it was created
with. -/
structure Ranged (tr : List Op) (h : Hebbian) : Prop where
  range : ∀ k e, h.edges k = some e → 0 ≤ e.weight ∧ e.weight ≤ 1
  fresh : ∀ k e, h.edges k = some e → decayed k tr = false → initialWeight ≤ e.weight

/-! ## One weight -/

theorem clampUnit_mem (q : ℚ) : 0 ≤ clampUnit q ∧ clampUnit q ≤ 1 := by
  unfold clampUnit
  split
  · norm_num
  · split
    · norm_num
    · constructor <;> linarith

/-- A co-access raises a weight of at most the maximum, and not beyond it. -/
theorem strengthened_mem {w spMod : ℚ} (hw : w ≤ 1) (hsp : 0 ≤ spMod) :
    w ≤ strengthened strengthenRate maxWeight spMod w ∧ strengthened strengthenRate maxWeight spMod w ≤ 1 := by
  have hgain : 0 ≤ strengthenRate * (1 - w / maxWeight) * spMod := by
    have hrest : (0 : ℚ) ≤ 1 - w / maxWeight := by
      rw [maxWeight, div_one]
      linarith
    have hrate : (0 : ℚ) ≤ strengthenRate := by norm_num [strengthenRate]
    exact mul_nonneg (mul_nonneg hrate hrest) hsp
  unfold strengthened
  split
  · rw [maxWeight]
    exact ⟨hw, le_rfl⟩
  · rename_i hle
    rw [not_lt] at hle
    exact ⟨le_add_of_nonneg_right hgain, hle⟩

theorem decay_mem {w decay : ℚ} (hw : 0 ≤ w ∧ w ≤ 1) (hd : 0 ≤ decay ∧ decay ≤ 1) :
    0 ≤ w * decay ∧ w * decay ≤ w :=
  ⟨mul_nonneg hw.1 hd.1, mul_le_of_le_one_right hw.1 hd.2⟩

/-! ## One step -/

/-- What a step can do to the edge of a pair. -/
inductive Change (k : String × String) : Op → Option HebbianEdge → Option HebbianEdge → Prop
  | same {op : Op} (e : Option HebbianEdge) : k ∉ op.picked → Change k op e e
  | created {e : HebbianEdge} : e.weight = initialWeight → Change k (.drain true) none (some e)
  | strengthened {e e' : HebbianEdge} {spMod : ℚ} : 0 ≤ spMod →
      e'.weight = strengthened strengthenRate maxWeight spMod e.weight →
      Change k (.drain true) (some e) (some e')
  | decayed {op : Op} {d : ℚ × Finset (String × String)} {e e' : HebbianEdge} : d ∈ op.decay → k ∈ d.2 →
      e'.weight = e.weight * d.1 → Change k op (some e) (some e')
  | pruned {threshold : ℚ} {limit : Option ℤ} {picked : Finset (String × String)} {e : HebbianEdge} :
      k ∈ picked → e.weight < threshold → Change k (.prune threshold limit picked) (some e) none

theorem change_applyPair (h : Hebbian) (pair : Hebbian.CoAccessPair) (k : String × String) :
    Change k (.drain true) (h.edges k) ((h.applyPair pair).edges k) := by
  have hsame : ∀ e, Change k (.drain true) e e := fun e => .same e (by simp [Op.picked])
  unfold applyPair strengthenEdge
  split
  · by_cases hk : k = (pair.src, pair.dst)
    · subst hk
      simp only [Function.update_self]
      cases he : h.edges (pair.src, pair.dst) with
      | none => exact .created rfl
      | some e =>
        have hclamp := clampUnit_mem pair.spacingQuality
        exact .strengthened (by linarith) rfl
    · simp only [Function.update_of_ne hk]
      exact hsame _
  · exact hsame _

theorem change_decayEdges (op : Op) {decay : ℚ} (hd : op.decay = some (decay, op.picked)) {h : Hebbian}
    {matching : HebbianEdge → Prop} {lim : ℕ} (hpicked : h.Limited matching lim op.picked)
    (k : String × String) : Change k op (h.edges k) ((h.decayEdges decay op.picked).edges k) := by
  by_cases hk : k ∈ op.picked
  · obtain ⟨e, he, -⟩ := hpicked.matched k hk
    simp only [decayEdges, he, Option.map_some, if_pos hk]
    exact .decayed hd hk rfl
  · have hedge : (h.decayEdges decay op.picked).edges k = h.edges k := by
      simp [decayEdges, hk]
    rw [hedge]
    exact .same _ hk

theorem Step.change {h h' : Hebbian} {op : Op} (hstep : Step h op h') (k : String × String) :
    Change k op (h.edges k) (h'.edges k) := by
  cases hstep with
  | ensureNode hash => exact .same _ (by simp [Op.picked])
  | strengthen pushed _ => exact .same _ (by simp [Op.picked])
  | @drain queue pair executed _ =>
    cases executed with
    | false => exact .same _ (by simp [Op.picked])
    | true => exact change_applyPair { h with queue } pair k
  | @decayAll decayFactor limit picked hpicked =>
    exact change_decayEdges (.decayAll decayFactor limit picked) rfl hpicked k
  | @decayStale staleBefore decayFactor limit picked hpicked =>
    exact change_decayEdges (.decayStale staleBefore decayFactor limit picked) rfl hpicked k
  | @prune threshold limit picked hpicked =>
    by_cases hk : k ∈ picked
    · obtain ⟨e, he, hlt⟩ := hpicked.matched k hk
      simp only [pruneEdges, he, if_pos hk]
      exact .pruned hk hlt
    · simp only [pruneEdges, if_neg hk]
      exact .same _ hk

@[simp] theorem decayed_append (k : String × String) (tr : List Op) (op : Op) :
    decayed k (tr ++ [op]) = op.marks k (decayed k tr) := by
  simp [decayed]

theorem marks_of_decay {op : Op} {d : ℚ × Finset (String × String)} {k : String × String}
    (hd : d ∈ op.decay) (hk : k ∈ d.2) (b : Bool) : op.marks k b = true := by
  cases op <;> simp only [Op.decay, Option.mem_def, Option.some.injEq, reduceCtorEq] at hd
  all_goals
    subst hd
    simp [Op.marks, hk]

theorem marks_of_not_picked {op : Op} {k : String × String} (hk : k ∉ op.picked) (b : Bool) :
    op.marks k b = b := by
  cases op <;> simp_all [Op.marks, Op.picked]

/-- One step keeps the weights in range, where a decay's factor is. -/
theorem ranged_step {tr : List Op} {h h' : Hebbian} {op : Op} (hr : Ranged tr h) (hstep : Step h op h')
    (hop : op.InRange) : Ranged (tr ++ [op]) h' := by
  have key : ∀ k e, h'.edges k = some e → (0 ≤ e.weight ∧ e.weight ≤ 1) ∧
      (decayed k (tr ++ [op]) = false → initialWeight ≤ e.weight) := by
    intro k e he
    have hchange := hstep.change k
    rw [he] at hchange
    rw [decayed_append]
    generalize hold : h.edges k = old at hchange
    cases hchange with
    | same _ hk =>
      rw [marks_of_not_picked hk]
      exact ⟨hr.range k e hold, hr.fresh k e hold⟩
    | created hw =>
      rw [hw]
      exact ⟨by norm_num [initialWeight], fun _ => le_rfl⟩
    | @strengthened e₀ _ spMod hsp hw =>
      obtain ⟨hlow, hhigh⟩ := hr.range k e₀ hold
      obtain ⟨hup, hmax⟩ := strengthened_mem hhigh hsp
      rw [hw]
      exact ⟨⟨hlow.trans hup, hmax⟩, fun hd => (hr.fresh k e₀ hold hd).trans hup⟩
    | @decayed _ d e₀ _ hd hk hw =>
      obtain ⟨hlow, hdown⟩ := decay_mem (hr.range k e₀ hold) (hop d hd)
      rw [hw, marks_of_decay hd hk]
      exact ⟨⟨hlow, hdown.trans (hr.range k e₀ hold).2⟩, fun h => absurd h (by simp)⟩
  exact ⟨fun k e he => (key k e he).1, fun k e he => (key k e he).2⟩

theorem ranged_run {h₀ h : Hebbian} (h0 : ∀ k, h₀.edges k = none) {tr : List Op} (hrun : Run Step h₀ tr h)
    (htr : ∀ op ∈ tr, op.InRange) : Ranged tr h := by
  induction hrun with
  | start => exact ⟨fun k e he => by simp [h0] at he, fun k e he => by simp [h0] at he⟩
  | step _ hstep ih =>
    refine ranged_step (ih fun op hop => htr op (List.mem_append_left _ hop)) hstep (htr _ ?_)
    exact List.mem_append_right _ (List.mem_singleton_self _)

/-- In every run whose decay factors are in [0, 1] the weights stay in [0, 1].  No co-access lowers a weight
and no decay raises one.  Only a prune removes an edge, one below its threshold; and where the threshold is
not above the weight of a new edge, one that was decayed since it was created. -/
theorem hebbian_range {h₀ h : Hebbian} (h0 : ∀ k, h₀.edges k = none) {tr : List Op}
    (hrun : Run Step h₀ tr h) (htr : ∀ op ∈ tr, op.InRange) :
    (∀ k e, h.edges k = some e → 0 ≤ e.weight ∧ e.weight ≤ 1) ∧
      ∀ op h', Step h op h' → op.InRange → ∀ k e, h.edges k = some e →
        (∀ e', h'.edges k = some e' →
          (op.decay = none → e.weight ≤ e'.weight) ∧ (op.decay.isSome → e'.weight ≤ e.weight)) ∧
        (h'.edges k = none → ∃ threshold limit picked, op = .prune threshold limit picked ∧ k ∈ picked ∧
          e.weight < threshold ∧ (threshold ≤ initialWeight → decayed k tr = true)) := by
  have hr := ranged_run h0 hrun htr
  refine ⟨hr.range, fun op h' hstep hop k e he => ?_⟩
  have hchange := hstep.change k
  rw [he] at hchange
  generalize hnew : h'.edges k = new at hchange
  cases hchange with
  | same _ _ => exact ⟨fun e' he' => by simp_all, fun hnone => by simp at hnone⟩
  | @strengthened _ e₁ spMod hsp hw =>
    refine ⟨fun e' he' => ⟨fun _ => ?_, fun hd => by simp [Op.decay] at hd⟩, fun hnone => by simp at hnone⟩
    obtain rfl := Option.some.inj he'
    rw [hw]
    exact (strengthened_mem (hr.range k e he).2 hsp).1
  | @decayed _ d _ e₁ hd hk hw =>
    refine ⟨fun e' he' => ⟨fun hnone => ?_, fun _ => ?_⟩, fun hnone => by simp at hnone⟩
    · rw [hnone] at hd
      simp at hd
    · obtain rfl := Option.some.inj he'
      rw [hw]
      exact (decay_mem (hr.range k e he) (hop d hd)).2
  | @pruned threshold limit picked _ hk hlt =>
    refine ⟨fun e' he' => by simp at he', fun _ => ⟨threshold, limit, picked, rfl, hk, hlt, fun hle => ?_⟩⟩
    by_contra hd
    have hfresh := hr.fresh k e he (by simpa using hd)
    linarith

/-- Two memories, never found together. -/
def apart : Hebbian where
  nodes := {"a", "b"}
  edges := fun _ => none
  queue := []

def coAccess : Hebbian.CoAccessPair := ⟨"a", "b", 1, 0⟩

theorem run_applyPair_apart :
    Run Step apart [.strengthen [coAccess] 1, .drain true] (apart.applyPair coAccess) :=
  (Run.single (.strengthen 1 (by decide))).step (@Step.drain _ [] coAccess true rfl)

theorem edges_applyPair_apart (k : String × String) :
    (apart.applyPair coAccess).edges k = if k = ("a", "b") then some ⟨initialWeight, 1, 0, 0⟩ else none := by
  simp [apart, applyPair, strengthenEdge, coAccess, Function.update_apply]

/-- All the edges of the two memories are picked by a call that matches the one. -/
theorem limited_applyPair_apart {matching : HebbianEdge → Prop} (hm : matching ⟨initialWeight, 1, 0, 0⟩) :
    (apart.applyPair coAccess).Limited matching (batchLimit none) {("a", "b")} where
  le := by decide
  matched k hk := by
    rw [Finset.mem_singleton] at hk
    exact ⟨_, by rw [edges_applyPair_apart, if_pos hk], hm⟩
  all _ k e he _ := by
    rw [edges_applyPair_apart] at he
    by_contra hk
    rw [Finset.mem_singleton] at hk
    simp [hk] at he

/-- A co-access, and a decay by half. -/
theorem hebbian_range_half : ∃ e, ((apart.applyPair coAccess).decayEdges (1 / 2) {("a", "b")}).edges ("a", "b") =
    some e ∧ 0 ≤ e.weight ∧ e.weight ≤ 1 := by
  have hrun := run_applyPair_apart.step (@Step.decayAll _ (1 / 2) none _ (limited_applyPair_apart trivial))
  have hfactors : ∀ op ∈ [.strengthen [coAccess] 1, .drain true] ++ [.decayAll (1 / 2) none {("a", "b")}],
      Op.InRange op := by
    intro op hop
    simp only [List.cons_append, List.nil_append, List.mem_cons, List.not_mem_nil, or_false] at hop
    rcases hop with rfl | rfl | rfl
    · simp [Op.InRange, Op.decay]
    · simp [Op.InRange, Op.decay]
    · norm_num [Op.InRange, Op.decay]
  refine ⟨⟨initialWeight * (1 / 2), 1, 0, 0⟩, ?_, ?_⟩
  · simp [decayEdges, edges_applyPair_apart]
  · refine (hebbian_range (fun _ => rfl) hrun hfactors).1 ("a", "b") _ ?_
    simp [decayEdges, edges_applyPair_apart]

/-- A factor of 20 leaves a weight of 2; a threshold of 1/2 prunes an edge that was never decayed. -/
theorem hebbian_range_unchecked :
    (∃ tr h k e, Run Step apart tr h ∧ h.edges k = some e ∧ ¬ (0 ≤ e.weight ∧ e.weight ≤ 1)) ∧
      ∃ tr h op h' k, Run Step apart tr h ∧ (∀ op ∈ tr, op.decay = none) ∧ Step h op h' ∧
        (h.edges k).isSome ∧ h'.edges k = none := by
  constructor
  · refine ⟨_, _, ("a", "b"), ⟨initialWeight * 20, 1, 0, 0⟩,
      run_applyPair_apart.step (@Step.decayAll _ 20 none _ (limited_applyPair_apart trivial)), ?_, ?_⟩
    · simp [decayEdges, edges_applyPair_apart]
    · norm_num [initialWeight]
  · refine ⟨_, _, _, _, ("a", "b"), run_applyPair_apart, by simp [Op.decay],
      @Step.prune _ (1 / 2) none _ (limited_applyPair_apart (by norm_num [initialWeight])), ?_, ?_⟩
    · simp [edges_applyPair_apart]
    · simp [pruneEdges]

end Hebbian

end Alaya
