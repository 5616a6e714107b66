import Alaya.Lib.UnionFind
import Mathlib.Combinatorics.SimpleGraph.Connectivity.Finite
import Mathlib.Data.Fin.VecNotation
import Mathlib.Data.List.Sort

/-!
# Groups of duplicates

All pairs of memories are compared, the pairs at or above the threshold are joined by union-find, and of
each group one memory is chosen to stay.  The groups are the connected components of the graph of these
pairs that have two members or more (`buildDuplicateGroups_components`).

The arrays are parallel, so a memory is its place in them.  `F` holds the doubles that are numbers; a
similarity may also be NaN (`none`).
-/

namespace Alaya.Deduplication

variable {E F : Type} [LinearOrder F] {n : ℕ}

/-- A pair of memories detected as near-duplicates. -/
structure DuplicatePair (F : Type) where
  hashA : String
  hashB : String
  similarity : Option F

/-- A group of transitively similar memories with a selected canonical entry. -/
structure DuplicateGroup (F : Type) where
  hashes : List String
  canonicalHash : String
  maxSimilarity : F
  size : ℕ

/-- Strategy for selecting which memory in a duplicate group to keep. -/
inductive CanonicalStrategy
  | keepNewest
  | keepOldest
  | keepMostAccessed
  deriving DecidableEq

/-- `>=` of doubles: never true of NaN. -/
def atLeast (threshold : F) : Option F → Bool
  | some s => threshold ≤ s
  | none => false

/-- `partial_cmp(..).unwrap_or(Equal)`. -/
def partialCmpOrEqual : Option F → Option F → Ordering
  | some a, some b => compare a b
  | _, _ => .eq

/-- `Iterator::max_by`: of several greatest elements the last. -/
def maxBy {α : Type} (cmp : α → α → Ordering) : List α → Option α
  | [] => none
  | x :: xs => some (xs.foldl (fun best y => if cmp best y = .gt then best else y) x)

/-- The index of each hash: where one is repeated, the last. -/
def index (hashes : Fin n → String) (h : String) : Option (Fin n) :=
  (List.finRange n).reverse.find? fun i => hashes i = h

def findDuplicatePairs (sim : E → E → Option F) (hashes : Fin n → String) (embeddings : Fin n → E)
    (threshold : F) : List (DuplicatePair F) :=
  let pairs := (List.finRange n).flatMap fun i =>
    ((List.finRange n).filter (i < ·)).filterMap fun j =>
      let sim := sim (embeddings i) (embeddings j)
      if atLeast threshold sim then some ⟨hashes i, hashes j, sim⟩ else none
  pairs.mergeSort fun a b => partialCmpOrEqual b.similarity a.similarity ≠ .gt

/-- The unions of the pairs, as far as both hashes have an index. -/
def unionPairs (fuel : ℕ) (index : String → Option (Fin n)) (pairs : List (DuplicatePair F))
    (uf : UnionFind (Fin n)) : Option (UnionFind (Fin n)) :=
  pairs.foldlM (fun uf pair =>
    match index pair.hashA, index pair.hashB with
    | some a, some b => uf.union fuel a b
    | _, _ => some uf) uf

/-- Group indices by root. -/
def groupByRoot (fuel : ℕ) (hashes : Fin n → String) :
    List (Fin n) → UnionFind (Fin n) → (Fin n → List String) → Option (Fin n → List String)
  | [], _, groups => some groups
  | i :: is, uf, groups => do
    let (uf, root) ← uf.find fuel i
    groupByRoot fuel hashes is uf (Function.update groups root (groups root ++ [hashes i]))

/-- Cluster duplicate pairs into transitive groups.  `order` is the order in which the map of groups
gives its entries; `none` stands for a look-up that did not end. -/
def groupDuplicates (fuel : ℕ) (order : List (Fin n) → List (Fin n)) (pairs : List (DuplicatePair F))
    (allHashes : Fin n → String) : Option (List (List String)) :=
  if pairs.isEmpty then some []
  else do
    let uf ← unionPairs fuel (index allHashes) pairs UnionFind.singletons
    let groups ← groupByRoot fuel allHashes (List.finRange n) uf fun _ => []
    let roots := order ((List.finRange n).filter fun r => groups r ≠ [])
    return (roots.map groups).filter (2 ≤ ·.length)

/-- The order in which the greatest is selected. -/
def canonicalCmp (createdAts : Fin n → F) (accessCounts : Fin n → ℕ) :
    CanonicalStrategy → Fin n → Fin n → Ordering
  | .keepNewest, a, b => partialCmpOrEqual (some (createdAts a)) (some (createdAts b))
  | .keepOldest, a, b => partialCmpOrEqual (some (createdAts b)) (some (createdAts a))
  | .keepMostAccessed, a, b => compare (accessCounts a) (accessCounts b)

/-- Select the canonical memory from a group based on the chosen strategy. -/
def selectCanonical (groupHashes : List String) (index : String → Option (Fin n)) (createdAts : Fin n → F)
    (accessCounts : Fin n → ℕ) (strategy : CanonicalStrategy) : String :=
  (maxBy (fun a b =>
    match index a, index b with
    | some ia, some ib => canonicalCmp createdAts accessCounts strategy ia ib
    -- The source panics on a hash without an index; a group holds none (`index_hashes`).
    | _, _ => .eq) groupHashes).getD ""

/-- The greatest similarity of a pair inside the group, at least zero. -/
def maxSimilarity [Zero F] (pairs : List (DuplicatePair F)) (groupHashes : List String) : F :=
  ((pairs.filter fun p => groupHashes.contains p.hashA && groupHashes.contains p.hashB).map
    DuplicatePair.similarity).foldl (fun m s => s.elim m (max m)) 0

/-- What is reported of a group. -/
def duplicateGroup [Zero F] (pairs : List (DuplicatePair F)) (index : String → Option (Fin n))
    (createdAts : Fin n → F) (accessCounts : Fin n → ℕ) (strategy : CanonicalStrategy)
    (groupHashes : List String) : DuplicateGroup F where
  size := groupHashes.length
  hashes := groupHashes
  canonicalHash := selectCanonical groupHashes index createdAts accessCounts strategy
  maxSimilarity := maxSimilarity pairs groupHashes

/-- Full deduplication pipeline: find pairs, cluster, select canonical per group. -/
def buildDuplicateGroups [Zero F] (fuel : ℕ) (order : List (Fin n) → List (Fin n))
    (sim : E → E → Option F) (hashes : Fin n → String) (embeddings : Fin n → E) (createdAts : Fin n → F)
    (accessCounts : Fin n → ℕ) (threshold : F) (strategy : CanonicalStrategy) :
    Option (List (DuplicateGroup F)) := do
  let pairs := findDuplicatePairs sim hashes embeddings threshold
  let groups ← groupDuplicates fuel order pairs hashes
  return groups.map (duplicateGroup pairs (index hashes) createdAts accessCounts strategy)

/-! ## The graph of the pairs -/

/-- Two memories are joined where the similarity of the earlier one to the later one is at or above the
threshold. -/
def similarityGraph (sim : E → E → Option F) (embeddings : Fin n → E) (threshold : F) :
    SimpleGraph (Fin n) where
  Adj i j := i ≠ j ∧ atLeast threshold (sim (embeddings (min i j)) (embeddings (max i j)))
  symm := ⟨fun i j h => ⟨h.1.symm, by rw [min_comm, max_comm]; exact h.2⟩⟩
  loopless := ⟨fun i h => h.1 rfl⟩

/-- No member beats the one that stays. -/
def Keeps (createdAts : Fin n → F) (accessCounts : Fin n → ℕ) : CanonicalStrategy → Fin n → Fin n → Prop
  | .keepNewest, kept, i => createdAts i ≤ createdAts kept
  | .keepOldest, kept, i => createdAts kept ≤ createdAts i
  | .keepMostAccessed, kept, i => accessCounts i ≤ accessCounts kept

/-- The group of a connected component: each member once, and one of them, extremal under the strategy,
to stay. -/
structure IsGroup {G : SimpleGraph (Fin n)} (hashes : Fin n → String) (keeps : Fin n → Fin n → Prop)
    (c : G.ConnectedComponent) (g : DuplicateGroup F) : Prop where
  mem_iff : ∀ h, h ∈ g.hashes ↔ ∃ i ∈ c.supp, hashes i = h
  nodup : g.hashes.Nodup
  size : g.size = g.hashes.length
  canonical : ∃ kept ∈ c.supp, hashes kept = g.canonicalHash ∧ ∀ i ∈ c.supp, keeps kept i

/-! ## Selection -/

theorem maxBy_map {α β : Type} (cmp : β → β → Ordering) (g : α → β) (xs : List α) :
    maxBy cmp (xs.map g) = (maxBy (fun a b => cmp (g a) (g b)) xs).map g := by
  cases xs with
  | nil => rfl
  | cons x xs =>
    simp only [List.map_cons, maxBy, Option.map_some, Option.some.injEq]
    induction xs generalizing x with
    | nil => rfl
    | cons y ys ih =>
      simp only [List.map_cons, List.foldl_cons]
      rw [← ih]
      congr 1
      split <;> rfl

/-- What is selected is one of the list, and as great as each. -/
theorem maxBy_spec {α : Type} {cmp : α → α → Ordering} (le : α → α → Prop) (hrefl : ∀ a, le a a)
    (htrans : ∀ a b c, le a b → le b c → le a c) (hgt : ∀ a b, cmp a b = .gt → le b a)
    (hle : ∀ a b, cmp a b ≠ .gt → le a b) :
    ∀ {xs : List α}, xs ≠ [] → ∃ x, maxBy cmp xs = some x ∧ x ∈ xs ∧ ∀ y ∈ xs, le y x := by
  intro xs hne
  cases xs with
  | nil => exact absurd rfl hne
  | cons x xs =>
    refine ⟨_, rfl, ?_⟩
    clear hne
    induction xs generalizing x with
    | nil => exact ⟨List.mem_singleton_self x, fun y hy => List.mem_singleton.mp hy ▸ hrefl x⟩
    | cons y ys ih =>
      rw [List.foldl_cons]
      by_cases hcmp : cmp x y = .gt
      · rw [if_pos hcmp]
        obtain ⟨hmem, hmax⟩ := ih x
        obtain ⟨hx, hys⟩ := List.forall_mem_cons.mp hmax
        refine ⟨?_, List.forall_mem_cons.mpr ⟨hx, List.forall_mem_cons.mpr ⟨?_, hys⟩⟩⟩
        · rcases List.mem_cons.mp hmem with h | h
          · rw [h]
            exact List.mem_cons_self
          · exact List.mem_cons_of_mem _ (List.mem_cons_of_mem _ h)
        · exact htrans _ _ _ (hgt x y hcmp) hx
      · rw [if_neg hcmp]
        obtain ⟨hmem, hmax⟩ := ih y
        obtain ⟨hy, hys⟩ := List.forall_mem_cons.mp hmax
        exact ⟨List.mem_cons_of_mem _ hmem,
          List.forall_mem_cons.mpr ⟨htrans _ _ _ (hle x y hcmp) hy, List.forall_mem_cons.mpr ⟨hy, hys⟩⟩⟩

theorem canonicalCmp_spec (createdAts : Fin n → F) (accessCounts : Fin n → ℕ) (strategy : CanonicalStrategy)
    {is : List (Fin n)} (hne : is ≠ []) :
    ∃ kept, maxBy (canonicalCmp createdAts accessCounts strategy) is = some kept ∧ kept ∈ is ∧
      ∀ i ∈ is, Keeps createdAts accessCounts strategy kept i := by
  apply maxBy_spec (fun i kept => Keeps createdAts accessCounts strategy kept i) _ _ _ _ hne
  · intro i
    cases strategy <;> exact le_rfl
  · intro i j k hij hjk
    cases strategy with
    | keepNewest => exact le_trans (α := F) hij hjk
    | keepOldest => exact le_trans (α := F) hjk hij
    | keepMostAccessed => exact le_trans (α := ℕ) hij hjk
  · intro i j h
    cases strategy with
    | keepNewest => exact (compare_gt_iff_gt.mp h).le
    | keepOldest => exact (compare_gt_iff_gt.mp h).le
    | keepMostAccessed => exact (compare_gt_iff_gt.mp h).le
  · intro i j h
    cases strategy with
    | keepNewest => exact compare_le_iff_le.mp h
    | keepOldest => exact compare_le_iff_le.mp h
    | keepMostAccessed => exact compare_le_iff_le.mp h

section Distinct

variable {hashes : Fin n → String} (hinj : Function.Injective hashes)
include hinj

theorem index_hashes (i : Fin n) : index hashes (hashes i) = some i := by
  unfold index
  cases hfind : (List.finRange n).reverse.find? fun j => hashes j = hashes i with
  | none =>
    have hnone := List.find?_eq_none.mp hfind i (by simp)
    simp at hnone
  | some j =>
    have hj : hashes j = hashes i := by simpa using List.find?_some hfind
    rw [hinj hj]

/-- The memory selected from a group of memories. -/
theorem selectCanonical_map (createdAts : Fin n → F) (accessCounts : Fin n → ℕ)
    (strategy : CanonicalStrategy) {is : List (Fin n)} (hne : is ≠ []) :
    ∃ kept ∈ is, selectCanonical (is.map hashes) (index hashes) createdAts accessCounts strategy = hashes kept ∧
      ∀ i ∈ is, Keeps createdAts accessCounts strategy kept i := by
  obtain ⟨kept, hmax, hmem, hkeeps⟩ := canonicalCmp_spec createdAts accessCounts strategy hne
  refine ⟨kept, hmem, ?_, hkeeps⟩
  simp only [selectCanonical, maxBy_map, index_hashes hinj, hmax, Option.map_some, Option.getD_some]

/-! ## Pairs -/

omit hinj in
/-- The pairs found, each from the earlier of its two memories. -/
theorem mem_findDuplicatePairs {sim : E → E → Option F} {embeddings : Fin n → E} {threshold : F}
    {p : DuplicatePair F} : p ∈ findDuplicatePairs sim hashes embeddings threshold ↔
      ∃ i j, i < j ∧ atLeast threshold (sim (embeddings i) (embeddings j)) ∧
        p = ⟨hashes i, hashes j, sim (embeddings i) (embeddings j)⟩ := by
  simp only [findDuplicatePairs, List.mem_mergeSort, List.mem_flatMap, List.mem_filterMap, List.mem_filter,
    List.mem_finRange, true_and, decide_eq_true_eq, Option.ite_none_right_eq_some, Option.some.injEq]
  constructor
  · rintro ⟨i, j, hij, hs, rfl⟩
    exact ⟨i, j, hij, hs, rfl⟩
  · rintro ⟨i, j, hij, hs, rfl⟩
    exact ⟨i, j, hij, hs, rfl⟩

omit hinj [LinearOrder F] in
theorem unionPairs_eq (fuel : ℕ) (index : String → Option (Fin n)) (pairs : List (DuplicatePair F)) :
    ∀ uf, unionPairs fuel index pairs uf =
      UnionFind.unions fuel uf (pairs.filterMap fun p =>
        (index p.hashA).bind fun a => (index p.hashB).map fun b => (a, b)) := by
  induction pairs with
  | nil => exact fun _ => rfl
  | cons p pairs ih =>
    intro uf
    simp only [unionPairs, UnionFind.unions] at ih ⊢
    cases ha : index p.hashA <;> cases hb : index p.hashB <;> simp [ha, hb, ih, List.foldlM_cons]

/-- The classes that the pairs generate are the components of the graph. -/
theorem eqvGen_iff_reachable (sim : E → E → Option F) (embeddings : Fin n → E) (threshold : F)
    (a b : Fin n) :
    Relation.EqvGen (fun a b => (a, b) ∈ (findDuplicatePairs sim hashes embeddings threshold).filterMap
        fun p => (index hashes p.hashA).bind fun a => (index hashes p.hashB).map fun b => (a, b)) a b ↔
      (similarityGraph sim embeddings threshold).Reachable a b := by
  have hmem : ∀ a b, (a, b) ∈ ((findDuplicatePairs sim hashes embeddings threshold).filterMap
      fun p => (index hashes p.hashA).bind fun a => (index hashes p.hashB).map fun b => (a, b)) ↔
      a < b ∧ atLeast threshold (sim (embeddings a) (embeddings b)) := by
    intro a b
    simp only [List.mem_filterMap, mem_findDuplicatePairs]
    constructor
    · rintro ⟨p, ⟨i, j, hij, hs, rfl⟩, hp⟩
      simp only [index_hashes hinj, Option.bind_some, Option.map_some, Option.some.injEq, Prod.mk.injEq] at hp
      obtain ⟨rfl, rfl⟩ := hp
      exact ⟨hij, hs⟩
    · rintro ⟨hab, hs⟩
      exact ⟨_, ⟨a, b, hab, hs, rfl⟩, by simp [index_hashes hinj]⟩
  constructor
  · intro h
    induction h with
    | rel c d hcd =>
      obtain ⟨hlt, hs⟩ := (hmem c d).mp hcd
      refine SimpleGraph.Adj.reachable ⟨hlt.ne, ?_⟩
      rwa [min_eq_left hlt.le, max_eq_right hlt.le]
    | refl c => exact SimpleGraph.Reachable.refl c
    | symm c d _ ih => exact ih.symm
    | trans c d e _ _ ih₁ ih₂ => exact ih₁.trans ih₂
  · intro h
    rw [SimpleGraph.reachable_iff_reflTransGen] at h
    induction h with
    | refl => exact Relation.EqvGen.refl a
    | tail _ hadj ih =>
      refine ih.trans _ _ _ ?_
      obtain ⟨hne, hs⟩ := hadj
      rcases lt_or_gt_of_ne hne with hlt | hlt
      · rw [min_eq_left hlt.le, max_eq_right hlt.le] at hs
        exact Relation.EqvGen.rel _ _ ((hmem _ _).mpr ⟨hlt, hs⟩)
      · rw [min_eq_right hlt.le, max_eq_left hlt.le] at hs
        exact (Relation.EqvGen.rel _ _ ((hmem _ _).mpr ⟨hlt, hs⟩)).symm

/-! ## Groups -/

omit hinj in
/-- Under each root the memories of its class, in their order. -/
theorem groupByRoot_spec {fuel : ℕ} (hfuel : n ≤ fuel) (is : List (Fin n)) :
    ∀ {uf : UnionFind (Fin n)} (groups : Fin n → List String), uf.Ranked →
      groupByRoot fuel hashes is uf groups =
        some fun r => groups r ++ (is.filter fun i => uf.root i = r).map hashes := by
  induction is with
  | nil =>
    intro uf groups _
    simp [groupByRoot]
  | cons i is ih =>
    intro uf groups h
    obtain ⟨uf', hfind, h', hroot⟩ := UnionFind.find_ends h i ((Fintype.card_fin n).le.trans hfuel)
    simp only [groupByRoot, hfind, Option.bind_eq_bind, Option.bind_some, ih _ h', hroot, Option.some.injEq]
    funext r
    by_cases hr : uf.root i = r
    · subst hr
      simp
    · simp [hr, Function.update_of_ne (Ne.symm hr)]

open scoped Classical in
/-- The members of a component, in their order. -/
noncomputable def members {G : SimpleGraph (Fin n)} (c : G.ConnectedComponent) : List (Fin n) :=
  (List.finRange n).filter fun i => i ∈ c.supp

omit hinj in
@[simp] theorem mem_members {G : SimpleGraph (Fin n)} {c : G.ConnectedComponent} {i : Fin n} :
    i ∈ members c ↔ i ∈ c.supp := by
  simp [members]

omit hinj in
theorem nodup_members {G : SimpleGraph (Fin n)} (c : G.ConnectedComponent) : (members c).Nodup :=
  (List.nodup_finRange n).filter _

omit hinj in
theorem two_le_length_members {G : SimpleGraph (Fin n)} (c : G.ConnectedComponent) :
    2 ≤ (members c).length ↔ c.supp.Nontrivial := by
  rw [← List.toFinset_card_of_nodup (nodup_members c), Nat.succ_le_iff, Finset.one_lt_card_iff_nontrivial,
    ← Finset.nontrivial_coe]
  have hset : ((members c).toFinset : Set (Fin n)) = c.supp := by
    ext i
    simp
  rw [hset]

/-- The groups are the member lists of the components with two members or more. -/
theorem groupDuplicates_components {fuel : ℕ} (hfuel : n ≤ fuel) {order : List (Fin n) → List (Fin n)}
    (horder : ∀ keys, (order keys).Perm keys) (sim : E → E → Option F) (embeddings : Fin n → E)
    (threshold : F) :
    ∃ cs : List (similarityGraph sim embeddings threshold).ConnectedComponent, cs.Nodup ∧
      (∀ c, c ∈ cs ↔ c.supp.Nontrivial) ∧
      groupDuplicates fuel order (findDuplicatePairs sim hashes embeddings threshold) hashes =
        some (cs.map fun c => (members c).map hashes) := by
  have hgen := eqvGen_iff_reachable hinj sim embeddings threshold
  generalize findDuplicatePairs sim hashes embeddings threshold = pairs at hgen ⊢
  cases hpairs : pairs.isEmpty with
  | true =>
    -- Without a pair nothing is reached from anything else.
    obtain rfl := List.isEmpty_iff.mp hpairs
    refine ⟨[], List.nodup_nil, fun c => ⟨fun hc => absurd hc List.not_mem_nil, ?_⟩, by simp [groupDuplicates]⟩
    rintro ⟨i, hi, j, hj, hne⟩
    have hreach : (similarityGraph sim embeddings threshold).Reachable i j :=
      SimpleGraph.ConnectedComponent.exact (hi.trans hj.symm)
    have heq : i = j := by
      have h := (hgen i j).mpr hreach
      clear hreach hi hj hne
      induction h with
      | rel _ _ h => simp at h
      | refl _ => rfl
      | symm _ _ _ ih => exact ih.symm
      | trans _ _ _ _ _ ih₁ ih₂ => exact ih₁.trans ih₂
    exact absurd heq hne
  | false =>
    obtain ⟨uf, hrun⟩ := Option.isSome_iff_exists.mp
      (UnionFind.isSome_unions ((Fintype.card_fin n).le.trans hfuel) (pairs.filterMap fun p =>
        (index hashes p.hashA).bind fun a => (index hashes p.hashB).map fun b => (a, b))
        UnionFind.ranked_singletons)
    have hranked : uf.Ranked := (UnionFind.unions_spec _ UnionFind.ranked_singletons hrun).1
    have hclass : ∀ a b, uf.root a = uf.root b ↔ (similarityGraph sim embeddings threshold).Reachable a b :=
      fun a b => (UnionFind.unions_iff_eqvGen hrun a b).trans (hgen a b)
    -- What is filed under a root is its component.
    have hmembers : ∀ r, uf.root r = r → (List.finRange n).filter (fun i => uf.root i = r) =
        members ((similarityGraph sim embeddings threshold).connectedComponentMk r) := by
      intro r hr
      refine List.filter_congr fun i _ => ?_
      have hiff : uf.root i = r ↔
          i ∈ ((similarityGraph sim embeddings threshold).connectedComponentMk r).supp := by
        rw [SimpleGraph.ConnectedComponent.mem_supp_iff, SimpleGraph.ConnectedComponent.eq, ← hclass, hr]
      exact decide_eq_decide.mpr hiff
    let groups : Fin n → List String := fun r => ((List.finRange n).filter fun i => uf.root i = r).map hashes
    let roots := order ((List.finRange n).filter fun r => groups r ≠ [])
    have hroots : ∀ r, r ∈ roots ↔ ∃ i, uf.root i = r := by
      intro r
      rw [(horder _).mem_iff]
      simp [groups]
    have hfix : ∀ r ∈ roots, uf.root r = r := by
      intro r hr
      obtain ⟨i, rfl⟩ := (hroots r).mp hr
      exact UnionFind.root_root hranked i
    let mk := (similarityGraph sim embeddings threshold).connectedComponentMk
    refine ⟨(roots.map mk).filter fun c => 2 ≤ ((members c).map hashes).length, ?_, fun c => ?_, ?_⟩
    · have hnodup : roots.Nodup := (horder _).nodup_iff.mpr ((List.nodup_finRange n).filter _)
      refine (List.Nodup.map_on (fun r hr r' hr' h => ?_) hnodup).filter _
      have hsame := (hclass r r').mpr (SimpleGraph.ConnectedComponent.exact h)
      rwa [hfix r hr, hfix r' hr'] at hsame
    · rw [List.mem_filter, decide_eq_true_eq, List.length_map, two_le_length_members]
      refine ⟨fun h => h.2, fun h => ⟨?_, h⟩⟩
      obtain ⟨i, rfl⟩ := c.exists_rep
      refine List.mem_map.mpr ⟨uf.root i, (hroots _).mpr ⟨i, rfl⟩, ?_⟩
      exact SimpleGraph.ConnectedComponent.sound ((hclass _ _).mp (UnionFind.root_root hranked i))
    · have hgroups : roots.map groups = (roots.map mk).map fun c => (members c).map hashes := by
        rw [List.map_map]
        refine List.map_congr_left fun r hr => ?_
        simp only [groups, hmembers r (hfix r hr), Function.comp_apply, mk]
      have hunions : unionPairs fuel (index hashes) pairs UnionFind.singletons = some uf := by
        rw [unionPairs_eq, hrun]
      simp only [groupDuplicates, hpairs, hunions, groupByRoot_spec hfuel (List.finRange n) _ hranked,
        List.nil_append, Option.bind_eq_bind, Option.bind_some, Option.pure_def, Bool.false_eq_true, if_false]
      exact congrArg some ((congrArg (List.filter _) hgroups).trans List.filter_map)

theorem isGroup_duplicateGroup [Zero F] (pairs : List (DuplicatePair F)) (createdAts : Fin n → F)
    (accessCounts : Fin n → ℕ) (strategy : CanonicalStrategy) {G : SimpleGraph (Fin n)}
    (c : G.ConnectedComponent) :
    IsGroup hashes (Keeps createdAts accessCounts strategy) c
      (duplicateGroup pairs (index hashes) createdAts accessCounts strategy ((members c).map hashes)) where
  mem_iff h := by simp [duplicateGroup]
  nodup := (nodup_members c).map hinj
  size := rfl
  canonical := by
    obtain ⟨i, hi⟩ := c.nonempty_supp
    have hne : members c ≠ [] := List.ne_nil_of_mem (mem_members.mpr hi)
    obtain ⟨kept, hmem, hselect, hkeeps⟩ :=
      selectCanonical_map hinj createdAts accessCounts strategy hne
    exact ⟨kept, mem_members.mp hmem, hselect.symm, fun j hj => hkeeps j (mem_members.mpr hj)⟩

/-- The groups are the components of the similarity graph that have two members or more, each once; no two
share a hash, every pair found lies inside one, and no look-up of the run is without an end. -/
theorem buildDuplicateGroups_components [Zero F] {fuel : ℕ} (hfuel : n ≤ fuel)
    {order : List (Fin n) → List (Fin n)} (horder : ∀ keys, (order keys).Perm keys)
    (sim : E → E → Option F) (embeddings : Fin n → E) (createdAts : Fin n → F) (accessCounts : Fin n → ℕ)
    (threshold : F) (strategy : CanonicalStrategy) :
    (∃ groups, buildDuplicateGroups fuel order sim hashes embeddings createdAts accessCounts threshold
        strategy = some groups ∧
      (∃ cs : List (similarityGraph sim embeddings threshold).ConnectedComponent, cs.Nodup ∧
        (∀ c, c ∈ cs ↔ c.supp.Nontrivial) ∧
        List.Forall₂ (IsGroup hashes (Keeps createdAts accessCounts strategy)) cs groups) ∧
      (groups.Pairwise fun g g' => g.hashes.Disjoint g'.hashes) ∧
      ∀ p ∈ findDuplicatePairs sim hashes embeddings threshold,
        ∃ g ∈ groups, p.hashA ∈ g.hashes ∧ p.hashB ∈ g.hashes) ∧
    ∀ uf : UnionFind (Fin n), UnionFind.Reached uf → ∀ x, ∃ uf' r, uf.find fuel x = some (uf', r) := by
  refine ⟨?_, fun uf h x => ?_⟩
  · obtain ⟨cs, hnodup, hcs, hgroups⟩ := groupDuplicates_components hinj hfuel horder sim embeddings threshold
    let group := fun c : (similarityGraph sim embeddings threshold).ConnectedComponent =>
      duplicateGroup (findDuplicatePairs sim hashes embeddings threshold) (index hashes) createdAts accessCounts
        strategy ((members c).map hashes)
    have hisGroup : ∀ c, IsGroup hashes (Keeps createdAts accessCounts strategy) c (group c) :=
      isGroup_duplicateGroup hinj _ createdAts accessCounts strategy
    refine ⟨cs.map group, ?_, ⟨cs, hnodup, hcs, ?_⟩, ?_, fun p hp => ?_⟩
    · simp only [buildDuplicateGroups, hgroups, Option.bind_eq_bind, Option.bind_some, Option.pure_def,
        List.map_map]
      rfl
    · rw [List.forall₂_map_right_iff]
      exact List.forall₂_same.mpr fun c _ => hisGroup c
    · rw [List.pairwise_map]
      refine hnodup.imp fun {c d} hne h hc hd => hne ?_
      obtain ⟨i, hi, rfl⟩ := ((hisGroup c).mem_iff h).mp hc
      obtain ⟨j, hj, hij⟩ := ((hisGroup d).mem_iff _).mp hd
      obtain rfl := hinj hij
      exact hi.symm.trans hj
    · obtain ⟨i, j, hij, hs, rfl⟩ := mem_findDuplicatePairs.mp hp
      have hadj : (similarityGraph sim embeddings threshold).Adj i j :=
        ⟨hij.ne, by rwa [min_eq_left hij.le, max_eq_right hij.le]⟩
      let c := (similarityGraph sim embeddings threshold).connectedComponentMk i
      have hj : j ∈ c.supp := SimpleGraph.ConnectedComponent.sound hadj.symm.reachable
      refine ⟨group c, List.mem_map_of_mem ((hcs c).mpr ⟨i, rfl, j, hj, hij.ne⟩), ?_, ?_⟩
      · exact ((hisGroup c).mem_iff _).mpr ⟨i, rfl, rfl⟩
      · exact ((hisGroup c).mem_iff _).mpr ⟨j, hj, rfl⟩
  · obtain ⟨uf', hfind, -⟩ := UnionFind.find_ends h.ranked x ((Fintype.card_fin n).le.trans hfuel)
    exact ⟨uf', _, hfind⟩

end Distinct

/-- Three texts in a row, each like its neighbour, and one apart. -/
theorem buildDuplicateGroups_row :
    let sim : ℤ → ℤ → Option ℤ := fun a b => some (10 + min (a - b) (b - a))
    let hashes : Fin 4 → String := !["a", "b", "c", "d"]
    ∃ groups, buildDuplicateGroups 4 List.reverse sim hashes ![0, 1, 2, 9] ![5, 7, 7, 1] ![0, 3, 0, 0] 9
        .keepNewest = some groups ∧
      ∀ p ∈ findDuplicatePairs sim hashes ![0, 1, 2, 9] 9, ∃ g ∈ groups, p.hashA ∈ g.hashes ∧ p.hashB ∈ g.hashes := by
  intro sim hashes
  obtain ⟨groups, hrun, -, -, hpairs⟩ := (buildDuplicateGroups_components (by decide : Function.Injective hashes)
    (le_refl 4) (fun keys => keys.reverse_perm) sim ![0, 1, 2, 9] ![5, 7, 7, 1] ![0, 3, 0, 0] 9 .keepNewest).1
  exact ⟨groups, hrun, hpairs⟩

example : groupDuplicates (F := ℤ) 5 List.reverse [⟨"d", "c", some 9⟩, ⟨"b", "d", some 9⟩]
    !["a", "b", "c", "d", "e"] = some [["b", "c", "d"]] := by
  decide +kernel

end Alaya.Deduplication
