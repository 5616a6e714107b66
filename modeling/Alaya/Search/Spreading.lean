import Alaya.Bridge.Hebbian
import Alaya.Lib.Greatest
import Alaya.Search.Hybrid
import Mathlib.Order.Bounds.Defs

/-!
# Spreading activation

The bridge matches the trails of HEBBIAN edges that leave a set of seeds, weakens each by its length, and answers the
strongest memories.  A search asks it for two hops from its first candidates, and injects what it answers.  In every run
that keeps the weights in [0, 1] a memory is activated by its strongest trail, by no more than half, and none that is
left out is stronger than one that is answered (`spreading_strongest`); a memory is injected only where a trail leads to
it from one of the first candidates (`injected_linked`).
-/

namespace Alaya

open Json Labelled Ranking

namespace Hebbian

/-- A match of `(src)-[:HEBBIAN*1..hops]->(dst)` from a seed to no seed: a trail, each edge once. -/
structure Trail (h : Hebbian) (seeds : List String) (hops : ℕ) (path : List (String × String)) (dst : String) : Prop where
  edges : ∀ k ∈ path, (h.edges k).isSome = true
  chain : path.IsChain fun k l => k.2 = l.1
  once : path.Nodup
  length_le : path.length ≤ hops
  source : ∃ src ∈ seeds, path.head?.map Prod.fst = some src
  target : path.getLast?.map Prod.snd = some dst
  apart : dst ∉ seeds

/-- `reduce(w = 1.0, r IN relationships(e) | w * r.weight)`. -/
def pathWeight (h : Hebbian) (path : List (String × String)) : ℚ :=
  (path.map fun k => (h.edges k).elim 0 HebbianEdge.weight).prod

/-- The columns of a match. -/
def spreadingRow (h : Hebbian) (path : List (String × String)) (dst : String) : List Value :=
  [.string dst, .ofF64 (h.pathWeight path), .ofU64 (.ofNat path.length)]

/-- What `spreading_activation` answers, in any order. -/
def SpreadingRows (h : Hebbian) (seeds : List String) (hops : ℕ) (rows : List (List Value)) : Prop :=
  ∀ row, row ∈ rows ↔ ∃ path dst, h.Trail seeds hops path dst ∧ row = h.spreadingRow path dst

end Hebbian

namespace Bridge

structure SpreadingRequest where
  seedHashes : List String
  maxHops : Option ℕ
  decayFactor : Option ℚ
  minActivation : Option ℚ
  limit : Option ℤ

namespace SpreadingRequest

/-- The hops matched: at most three. -/
def hops (req : SpreadingRequest) : ℕ := max 1 (min (req.maxHops.getD 2) 3)
def decay (req : SpreadingRequest) : ℚ := req.decayFactor.getD 0.5
def floor (req : SpreadingRequest) : ℚ := req.minActivation.getD 0.01
def top (req : SpreadingRequest) : ℕ := (max 1 (min (req.limit.getD 50) 500)).toNat

end SpreadingRequest

/-- The activation a row stands for, when it is not below the floor.  A row has at most three hops, so their cast keeps
them. -/
def rowActivation (decayFactor minActivation : ℚ) (row : List Value) : Option (String × ℚ) :=
  if row.length < 3 then none
  else ((row[0]?.bind Value.asStr).filter fun hash => hash ≠ "").bind fun hash =>
    let pathWeight := (row[1]?.bind Value.asF64).getD 0
    let hops := (row[2]?.bind Value.asU64).getD 1
    let activation := pathWeight * decayFactor ^ hops.toNat
    if activation < minActivation then none else some (hash, activation)

/-- The strongest activation of each hash.  An entry starts at zero. -/
def activationMap (req : SpreadingRequest) (rows : List (List Value)) : List (String × ℚ) :=
  Greatest.collect ((rows.filterMap (rowActivation req.decay req.floor)).map fun p => (p.1, max 0 p.2))

/-- The map in the order it is iterated, strongest first. -/
def sortedActivations (table : TableOrder) (req : SpreadingRequest) (rows : List (List Value)) : List (String × ℚ) :=
  ((⟨activationMap req rows, Greatest.nodup_collect _⟩ : Activations).iterate table).mergeSort fun a b => b.2 ≤ a.2

theorem nodup_sortedActivations (table : TableOrder) (req : SpreadingRequest) (rows : List (List Value)) :
    ((sortedActivations table req rows).map Prod.fst).Nodup :=
  ((List.mergeSort_perm _ _).map Prod.fst).nodup_iff.mpr (iterate_spec _ table).1

/-- `POST /hebbian/spreading`, given the rows its query answered. -/
def spreading (table : TableOrder) (req : SpreadingRequest) (rows : List (List Value)) : Activations :=
  if req.seedHashes.isEmpty then ⟨[], List.nodup_nil⟩
  else ⟨(sortedActivations table req rows).take req.top,
    (nodup_sortedActivations table req rows).sublist ((List.take_sublist _ _).map Prod.fst)⟩

end Bridge

/-- What a search asks for. -/
def searchSpreading (seeds : List String) : Bridge.SpreadingRequest := ⟨seeds, some 2, some 0.5, some 0.05, some 50⟩

/-! ### What the bridge answers -/

section

variable {h : Hebbian} {seeds : List String} {path : List (String × String)} {dst hash : String} {a : ℚ}

/-- The activation a trail comes to. -/
def Hebbian.strength (h : Hebbian) (decayFactor : ℚ) (path : List (String × String)) : ℚ :=
  h.pathWeight path * decayFactor ^ path.length

namespace Bridge

variable {req : SpreadingRequest} {rows : List (List Value)} {table : TableOrder}

theorem rowActivation_eq_some {row : List Value} (h : rowActivation req.decay req.floor row = some (hash, a)) :
    req.floor ≤ a := by
  unfold rowActivation at h
  split_ifs at h
  obtain ⟨hash', -, h⟩ := Option.bind_eq_some_iff.mp h
  dsimp only at h
  split_ifs at h with hlow
  obtain ⟨-, rfl⟩ := Prod.mk.inj (Option.some.inj h)
  exact not_lt.mp hlow

/-- The row of a trail stands for its strength. -/
theorem rowActivation_spreadingRow (hdst : dst ≠ "") (hlength : path.length ≤ 3) :
    rowActivation req.decay req.floor (h.spreadingRow path dst) =
      if h.strength req.decay path < req.floor then none else some (dst, h.strength req.decay path) := by
  have hhops : (UInt64.ofNat path.length).toNat = path.length := Nat.mod_eq_of_lt (by omega)
  simp only [rowActivation, Hebbian.spreadingRow, Hebbian.strength]
  simp [Option.filter, hdst, hhops]
  rfl

theorem mem_activationMap (hpos : 0 < req.floor) : (hash, a) ∈ activationMap req rows ↔
    (∃ row ∈ rows, rowActivation req.decay req.floor row = some (hash, a)) ∧
      ∀ row ∈ rows, ∀ b, rowActivation req.decay req.floor row = some (hash, b) → b ≤ a := by
  have hmem : ∀ b, (hash, b) ∈ (rows.filterMap (rowActivation req.decay req.floor)).map (fun p => (p.1, max 0 p.2)) ↔
      ∃ row ∈ rows, rowActivation req.decay req.floor row = some (hash, b) := by
    intro b
    rw [List.mem_map]
    constructor
    · rintro ⟨p, hp, heq⟩
      obtain ⟨row, hrow, hact⟩ := List.mem_filterMap.mp hp
      have hle := hpos.le.trans (rowActivation_eq_some hact)
      obtain ⟨rfl, hmax⟩ := Prod.mk.inj heq
      rw [max_eq_right hle] at hmax
      exact ⟨row, hrow, hmax ▸ hact⟩
    · rintro ⟨row, hrow, hact⟩
      have hle := hpos.le.trans (rowActivation_eq_some hact)
      exact ⟨_, List.mem_filterMap.mpr ⟨row, hrow, hact⟩, by rw [max_eq_right hle]⟩
  unfold activationMap
  rw [Greatest.mem_collect, hmem]
  refine and_congr_right fun _ => ⟨fun hle row hrow b hb => hle b ((hmem b).mpr ⟨row, hrow, hb⟩), fun hle b hb => ?_⟩
  obtain ⟨row, hrow, hact⟩ := (hmem b).mp hb
  exact hle row hrow b hact

theorem mem_sortedActivations {p : String × ℚ} : p ∈ sortedActivations table req rows ↔ p ∈ activationMap req rows :=
  List.mem_mergeSort.trans (mem_iterate _ table)

theorem pairwise_sortedActivations : (sortedActivations table req rows).Pairwise fun a b => b.2 ≤ a.2 := by
  refine (List.pairwise_mergeSort (fun a b c hab hbc => ?_) (fun a b => ?_) _).imp of_decide_eq_true
  · exact decide_eq_true ((of_decide_eq_true hbc).trans (of_decide_eq_true hab))
  · rw [Bool.or_eq_true, decide_eq_true_iff, decide_eq_true_iff]
    exact le_total b.2 a.2

/-- What an answer is in terms of the trails: each memory with the strength of its strongest, none below the floor, and
when some are left out, as many as were asked for, none weaker than one of those. -/
structure Strongest (h : Hebbian) (req : SpreadingRequest) (entries : List (String × ℚ)) : Prop where
  trail : ∀ p ∈ entries, ∃ path, h.Trail req.seedHashes req.hops path p.1 ∧ h.strength req.decay path = p.2
  greatest : ∀ p ∈ entries, ∀ path, h.Trail req.seedHashes req.hops path p.1 → h.strength req.decay path ≤ p.2
  floor : ∀ p ∈ entries, req.floor ≤ p.2
  few : entries.length ≤ req.top
  rest : ∀ path dst, dst ≠ "" → h.Trail req.seedHashes req.hops path dst → req.floor ≤ h.strength req.decay path →
    dst ∉ entries.map Prod.fst → entries.length = req.top ∧ ∀ p ∈ entries, h.strength req.decay path ≤ p.2

/-- The rows of the trails, read back. -/
theorem rowActivation_of_trail (hrows : h.SpreadingRows req.seedHashes req.hops rows) {row : List Value} (hrow : row ∈ rows)
    (hact : rowActivation req.decay req.floor row = some (hash, a)) :
    hash ≠ "" ∧ ∃ path, h.Trail req.seedHashes req.hops path hash ∧ h.strength req.decay path = a := by
  obtain ⟨path, dst, htrail, rfl⟩ := (hrows row).mp hrow
  have hlength : path.length ≤ 3 := htrail.length_le.trans (by unfold SpreadingRequest.hops; omega)
  by_cases hdst : dst = ""
  · simp [rowActivation, Hebbian.spreadingRow, hdst, Option.filter] at hact
  · rw [rowActivation_spreadingRow hdst hlength] at hact
    split_ifs at hact
    obtain ⟨rfl, rfl⟩ := Prod.mk.inj (Option.some.inj hact)
    exact ⟨hdst, path, htrail, rfl⟩

/-- A trail that is not below the floor is in the map, with what is at least its strength. -/
theorem activationMap_of_trail (hpos : 0 < req.floor) (hrows : h.SpreadingRows req.seedHashes req.hops rows) (hdst : dst ≠ "")
    (htrail : h.Trail req.seedHashes req.hops path dst) (hfloor : req.floor ≤ h.strength req.decay path) :
    ∃ b, (dst, b) ∈ activationMap req rows ∧ h.strength req.decay path ≤ b := by
  have hlength : path.length ≤ 3 := htrail.length_le.trans (by unfold SpreadingRequest.hops; omega)
  have hrow := (hrows _).mpr ⟨path, dst, htrail, rfl⟩
  have hact : rowActivation req.decay req.floor (h.spreadingRow path dst) = some (dst, h.strength req.decay path) := by
    rw [rowActivation_spreadingRow hdst hlength, if_neg (not_lt.mpr hfloor)]
  have hkey : dst ∈ (activationMap req rows).map Prod.fst :=
    Greatest.mem_map_fst_collect.mpr (List.mem_map.mpr ⟨_, List.mem_map.mpr ⟨_, List.mem_filterMap.mpr ⟨_, hrow, hact⟩, rfl⟩, rfl⟩)
  obtain ⟨⟨dst', b⟩, hb, rfl⟩ := List.mem_map.mp hkey
  exact ⟨b, hb, ((mem_activationMap hpos).mp hb).2 _ hrow _ hact⟩

/-- **What the bridge answers of the rows of a graph.** -/
theorem strongest_spreading (hpos : 0 < req.floor) (hrows : h.SpreadingRows req.seedHashes req.hops rows) :
    Strongest h req (spreading table req rows).entries := by
  unfold spreading
  split_ifs with hempty
  · refine ⟨nofun, nofun, nofun, Nat.zero_le _, fun path dst _ htrail => ?_⟩
    obtain ⟨src, hsrc, -⟩ := htrail.source
    rw [List.isEmpty_iff.mp hempty] at hsrc
    exact absurd hsrc List.not_mem_nil
  · have hread : ∀ p ∈ (sortedActivations table req rows).take req.top, p ∈ activationMap req rows :=
      fun p hp => mem_sortedActivations.mp (List.mem_of_mem_take hp)
    refine ⟨fun p hp => ?_, fun p hp path htrail => ?_, fun p hp => ?_, List.length_take_le .., ?_⟩
    · obtain ⟨⟨row, hrow, hact⟩, -⟩ := (mem_activationMap hpos).mp (hread p hp)
      exact (rowActivation_of_trail hrows hrow hact).2
    · obtain ⟨⟨row, hrow, hact⟩, hle⟩ := (mem_activationMap hpos).mp (hread p hp)
      by_cases hfloor : req.floor ≤ h.strength req.decay path
      · obtain ⟨b, hb, hstrength⟩ := activationMap_of_trail hpos hrows (rowActivation_of_trail hrows hrow hact).1 htrail hfloor
        obtain ⟨⟨row', hrow', hact'⟩, -⟩ := (mem_activationMap hpos).mp hb
        exact hstrength.trans (hle row' hrow' b hact')
      · exact (not_le.mp hfloor).le.trans (rowActivation_eq_some hact)
    · obtain ⟨⟨row, -, hact⟩, -⟩ := (mem_activationMap hpos).mp (hread p hp)
      exact rowActivation_eq_some hact
    · intro path dst hdst htrail hfloor hout
      obtain ⟨b, hb, hstrength⟩ := activationMap_of_trail hpos hrows hdst htrail hfloor
      have hleft : (dst, b) ∉ (sortedActivations table req rows).take req.top :=
        fun hmem => hout (List.mem_map.mpr ⟨_, hmem, rfl⟩)
      obtain ⟨hlength, hstronger⟩ :=
        Greatest.of_not_mem_take pairwise_sortedActivations (mem_sortedActivations.mpr hb) hleft
      exact ⟨hlength, fun p hp => hstrength.trans (hstronger p hp)⟩

end Bridge

/-! ### What a search is answered -/

theorem pathWeight_mem (hrange : ∀ k e, h.edges k = some e → 0 ≤ e.weight ∧ e.weight ≤ 1) (path : List (String × String)) :
    0 ≤ h.pathWeight path ∧ h.pathWeight path ≤ 1 := by
  induction path with
  | nil => exact ⟨zero_le_one, le_rfl⟩
  | cons k path ih =>
    have hweight : 0 ≤ (h.edges k).elim 0 HebbianEdge.weight ∧ (h.edges k).elim 0 HebbianEdge.weight ≤ 1 := by
      cases he : h.edges k with
      | none => exact ⟨le_rfl, zero_le_one⟩
      | some e => exact hrange k e he
    exact ⟨mul_nonneg hweight.1 ih.1, mul_le_one₀ hweight.2 ih.1 ih.2⟩

/-- A trail has an edge, so it is weakened at least once. -/
theorem strength_le {hops : ℕ} (hrange : ∀ k e, h.edges k = some e → 0 ≤ e.weight ∧ e.weight ≤ 1)
    (htrail : h.Trail seeds hops path dst) : h.strength 0.5 path ≤ 0.5 := by
  have hlength : path.length ≠ 0 := by
    intro hzero
    have htarget := htrail.target
    rw [List.length_eq_zero_iff.mp hzero] at htarget
    cases htarget
  obtain ⟨hlow, hhigh⟩ := pathWeight_mem hrange path
  have hpow : (0.5 : ℚ) ^ path.length ≤ 0.5 := pow_le_of_le_one (by norm_num) (by norm_num) hlength
  calc h.strength 0.5 path ≤ 1 * (0.5 : ℚ) ^ path.length := mul_le_mul_of_nonneg_right hhigh (by positivity)
    _ ≤ 0.5 := by rwa [one_mul]

end

section

variable {h₀ h : Hebbian} {tr : List Hebbian.Op} {table : TableOrder} {q : RankQuery} {signals : Signals} {vis : Visibility}
  {params : HybridParams} {alpha : ℚ} {getBatch : List String → Except AlayaError (List Memory)}
  {vector bm25 : List ScoredMemory} {r : Ranked}

/-- The activations of some seeds, as a search is answered from a graph: the bridge's, or none where it failed. -/
def SpreadsFrom (h : Hebbian) (seeds : List String) (spreading : Activations) : Prop :=
  spreading.entries = [] ∨ ∃ table rows, h.SpreadingRows seeds 2 rows ∧
    spreading = Bridge.spreading table (searchSpreading seeds) rows

/-- What a search finds activated has a trail from its seeds. -/
theorem trail_of_spreadsFrom {seeds : List String} {spreading : Activations} (hfrom : SpreadsFrom h seeds spreading)
    {p : String × ℚ} (hp : p ∈ spreading.entries) :
    ∃ path, h.Trail seeds 2 path p.1 ∧ h.strength 0.5 path = p.2 ∧ 0.05 ≤ p.2 := by
  rcases hfrom with hnone | ⟨table, rows, hrows, rfl⟩
  · rw [hnone] at hp
    exact absurd hp List.not_mem_nil
  · have hstrongest : Bridge.Strongest h (searchSpreading seeds) (Bridge.spreading table (searchSpreading seeds) rows).entries :=
      Bridge.strongest_spreading (by norm_num [Bridge.SpreadingRequest.floor, searchSpreading]) hrows
    obtain ⟨path, htrail, hstrength⟩ := hstrongest.trail p hp
    exact ⟨path, htrail, hstrength, hstrongest.floor p hp⟩

/-- What a ranking injects was activated from its first candidates. -/
theorem activated_of_injected (hr : rankHybrid table q signals getBatch params vis alpha vector bm25 = .ok r)
    {sm : ScoredMemory} (hsm : sm ∈ r.injected) : ∃ seeds, seeds.length ≤ seedCount ∧
      (∀ seed ∈ seeds, seed ∈ r.results.map Prod.fst) ∧
      sm.memory.contentHash ∈ (signals.spreading seeds).entries.map Prod.fst := by
  obtain ⟨survivors, -, rfl, -⟩ := rankHybrid_perm hr
  set vector' := vector.filter fun sm => params.admits vis sm.memory survivors
  set bm25' := bm25.filter fun sm => params.admits vis sm.memory survivors
  set fused := combineResultsRrf table (tuples vector') (tuples bm25') alpha rrfK with hfused
  have hinjects := injectNeighbors_spec table getBatch vis (params.admits vis) (activate q signals fused) fused
  have hactivated := hinjects.activated sm hsm
  unfold activate at hactivated
  dsimp only at hactivated
  split_ifs at hactivated
  · refine ⟨_, List.length_take_le .., fun seed hseed => ?_, hactivated⟩
    have hlisted : seed ∈ fused.map Fused.hash := by
      obtain ⟨f, hf, rfl⟩ := List.mem_map.mp (List.mem_of_mem_take hseed)
      exact List.mem_map.mpr ⟨f, List.mem_of_mem_take hf, rfl⟩
    have hpool := (hashes_combineResultsRrf table (tuples vector') (tuples bm25') alpha rrfK).mem_iff.mp hlisted
    rw [List.map_append, map_fst_tuples, map_fst_tuples] at hpool
    exact (rankPools_perm table q signals getBatch params vis alpha vector' bm25').1.mem_iff.mpr
      (List.mem_append_left _ hpool)
  · exact absurd hactivated List.not_mem_nil

/-- **What the graph adds to a search**, in every run of the bridge whose decay factors are in [0, 1].  A search is
answered the strongest activations of its seeds, none above a half; and a memory it injects has a trail of at most two
edges from one of five candidates, which is not weaker than a twentieth. -/
theorem linked_by_graph (h0 : ∀ k, h₀.edges k = none) (hrun : Run Hebbian.Step h₀ tr h) (htr : ∀ op ∈ tr, op.InRange) :
    (∀ table seeds rows, h.SpreadingRows seeds 2 rows →
      Bridge.Strongest h (searchSpreading seeds) (Bridge.spreading table (searchSpreading seeds) rows).entries ∧
        ∀ p ∈ (Bridge.spreading table (searchSpreading seeds) rows).entries, p.1 ∉ seeds ∧ p.2 ≤ 0.5) ∧
    ∀ {table q signals getBatch params vis alpha vector bm25 r},
      rankHybrid table q signals getBatch params vis alpha vector bm25 = .ok r →
      (∀ seeds, SpreadsFrom h seeds (signals.spreading seeds)) → ∀ sm ∈ r.injected,
        ∃ seeds path, seeds.length ≤ seedCount ∧ (∀ seed ∈ seeds, seed ∈ r.results.map Prod.fst) ∧
          h.Trail seeds 2 path sm.memory.contentHash ∧ 0.05 ≤ h.strength 0.5 path := by
  refine ⟨fun table seeds rows hrows => ?_, fun hr hfrom sm hsm => ?_⟩
  · have hstrongest : Bridge.Strongest h (searchSpreading seeds) (Bridge.spreading table (searchSpreading seeds) rows).entries :=
      Bridge.strongest_spreading (by norm_num [Bridge.SpreadingRequest.floor, searchSpreading]) hrows
    refine ⟨hstrongest, fun p hp => ?_⟩
    obtain ⟨path, htrail, hstrength⟩ := hstrongest.trail p hp
    exact ⟨htrail.apart, hstrength ▸ strength_le (Hebbian.ranged_run h0 hrun htr).range htrail⟩
  · obtain ⟨seeds, hfew, hlisted, hactivated⟩ := activated_of_injected hr hsm
    obtain ⟨p, hp, heq⟩ := List.mem_map.mp hactivated
    obtain ⟨path, htrail, hstrength, hfloor⟩ := trail_of_spreadsFrom (hfrom seeds) hp
    exact ⟨seeds, path, hfew, hlisted, heq ▸ htrail, hstrength ▸ hfloor⟩

end

/-! ### One edge -/

namespace OneEdge

/-- Two memories that were found together once. -/
def graph : Hebbian := Hebbian.apart.applyPair Hebbian.coAccess

def rows : List (List Value) := [[.string "b", .ofF64 0.1, .ofU64 1]]

theorem trail_iff {path : List (String × String)} {dst : String} :
    graph.Trail ["a"] 2 path dst ↔ path = [("a", "b")] ∧ dst = "b" := by
  constructor
  · intro htrail
    have hedge : ∀ k ∈ path, k = ("a", "b") := by
      intro k hk
      have hsome := htrail.edges k hk
      rw [graph, Hebbian.edges_applyPair_apart] at hsome
      by_contra hne
      rw [if_neg hne] at hsome
      cases hsome
    have hlength := List.nodup_iff_count_le_one.mp htrail.once ("a", "b")
    rw [List.eq_replicate_iff.mpr ⟨rfl, hedge⟩, List.count_replicate_self] at hlength
    have htarget := htrail.target
    match path, hedge, hlength with
    | [], _, _ => cases htarget
    | [k], hedge, _ =>
      obtain rfl := hedge k List.mem_cons_self
      exact ⟨rfl, (Option.some.inj htarget).symm⟩
  · rintro ⟨rfl, rfl⟩
    refine ⟨fun k hk => ?_, .singleton _, List.nodup_singleton _, by decide, ⟨"a", List.mem_cons_self, rfl⟩, rfl, by decide⟩
    obtain rfl := List.mem_singleton.mp hk
    rw [graph, Hebbian.edges_applyPair_apart, if_pos rfl]
    rfl

theorem spreadingRows : graph.SpreadingRows ["a"] 2 rows := by
  have hrow : graph.spreadingRow [("a", "b")] "b" = [.string "b", .ofF64 0.1, .ofU64 1] := by
    unfold Hebbian.spreadingRow Hebbian.pathWeight graph
    rw [List.map_singleton, Hebbian.edges_applyPair_apart, if_pos rfl]
    decide +kernel
  intro row
  simp only [rows, List.mem_singleton, trail_iff]
  exact ⟨fun h => ⟨_, _, ⟨rfl, rfl⟩, h.trans hrow.symm⟩, by rintro ⟨_, _, ⟨rfl, rfl⟩, rfl⟩; exact hrow⟩

/-- What a search is answered of it. -/
def signals : Signals where
  spreading seeds := if seeds = ["a"] then Bridge.spreading inOrder (searchSpreading ["a"]) rows else ⟨[], List.nodup_nil⟩
  hebbian _ _ := none
  reranker := none

theorem spreadsFrom (seeds : List String) : SpreadsFrom graph seeds (signals.spreading seeds) := by
  unfold signals
  dsimp only
  split_ifs with hseeds
  · subst hseeds
    exact .inr ⟨inOrder, rows, spreadingRows, rfl⟩
  · exact .inl rfl

end OneEdge

open OneEdge in
/-- A search that finds one of them. -/
theorem linked_by_graph_oneEdge : ∃ r,
    rankHybrid inOrder tiedQuery OneEdge.signals (fun _ => .ok [plainMemory "b"]) plainParams ⟨false, none⟩ 0.72
      [⟨plainMemory "a", 0.9⟩] [] = .ok r ∧
    (∀ p ∈ (Bridge.spreading inOrder (searchSpreading ["a"]) OneEdge.rows).entries, p.2 ≤ 0.5) ∧
    ∀ sm ∈ r.injected, ∃ seeds path, seeds.length ≤ seedCount ∧ (∀ seed ∈ seeds, seed ∈ r.results.map Prod.fst) ∧
      OneEdge.graph.Trail seeds 2 path sm.memory.contentHash ∧ 0.05 ≤ OneEdge.graph.strength 0.5 path := by
  obtain ⟨r, hr⟩ : ∃ r, rankHybrid inOrder tiedQuery OneEdge.signals (fun _ => .ok [plainMemory "b"]) plainParams
      ⟨false, none⟩ 0.72 [⟨plainMemory "a", 0.9⟩] [] = .ok r := ⟨_, rfl⟩
  have hfactors : ∀ op ∈ [.strengthen [Hebbian.coAccess] 1, .drain true], Hebbian.Op.InRange op := by
    intro op hop
    simp only [List.mem_cons, List.not_mem_nil, or_false] at hop
    rcases hop with rfl | rfl <;> simp [Hebbian.Op.InRange, Hebbian.Op.decay]
  obtain ⟨hspread, hlinked⟩ := linked_by_graph (fun _ => rfl) Hebbian.run_applyPair_apart hfactors
  exact ⟨r, hr, fun p hp => ((hspread inOrder ["a"] rows spreadingRows).2 p hp).2, hlinked hr spreadsFrom⟩

end Alaya
