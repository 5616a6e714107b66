import Alaya.Core.Chains
import Alaya.Core.Sequence

/-!
# The edge of a supersession

A supersession that is reported leaves its SUPERSEDES edge when both memories have a node, and the
edge then stays until one of them is deleted or the supersession is reversed.  The edge is a `MATCH`
of both nodes: without one of them nothing is written and nothing is reported.
-/

namespace Alaya

open Json Interleave Labelled

/-! ### What a statement takes out of the graph -/

namespace GraphCall

/-- A statement that takes a node away. -/
def Drops (h : String) : GraphCall → Prop
  | deleteNode hash => hash = h
  | sweepDeleteMarkedNodes hashes _ => h ∈ hashes
  | _ => False

/-- A statement that takes SUPERSEDES edges into a node away. -/
def Unlinks (dst : String) : GraphCall → Prop
  | deleteIncomingSystemEdges d => d = dst
  | _ => False

theorem mem_nodes_exec {c : GraphCall} {h : String} (hc : ¬c.Drops h) {g : Graph}
    (hg : h ∈ g.nodes) : h ∈ (c.exec g).2.nodes := by
  cases c with
  | ensureNode hash => exact (Graph.mem_nodes_ensureNode g).mpr (.inr hg)
  | deleteNode hash =>
    refine Finset.mem_sdiff.mpr ⟨hg, fun hmem => hc ?_⟩
    exact (Finset.mem_singleton.mp hmem).symm
  | sweepDeleteMarkedNodes hashes token =>
    refine Finset.mem_sdiff.mpr ⟨hg, fun hmem => hc ?_⟩
    exact (Finset.mem_filter.mp hmem).2.1
  | linkRefutation => exact (Graph.nodes_linkRefutation g ..).symm ▸ hg
  | createSystemEdge => exact (Graph.nodes_createSystemEdge g).symm ▸ hg
  | createTypedEdge => exact (Graph.nodes_createTypedEdge g ..).symm ▸ hg
  | deleteTypedEdge => exact (Graph.nodes_deleteTypedEdge g ..).symm ▸ hg
  | setContradictionVerdict | setContradictionResolution | settleContradiction
  | unsettleContradiction => exact (Graph.nodes_editLink g ..).symm ▸ hg
  | deleteIncomingSystemEdges | countAuditedContradiction | listMemoryNodes
  | sweepMarkMemoryNodes => exact hg

theorem mem_supersedes_exec {c : GraphCall} {src dst : String} (hc : ¬c.Unlinks dst)
    (hsrc : ¬c.Drops src) (hdst : ¬c.Drops dst) {g : Graph} (hg : (src, dst) ∈ g.supersedes) :
    (src, dst) ∈ (c.exec g).2.supersedes := by
  cases c with
  | deleteNode hash =>
    exact (Graph.mem_supersedes_deleteNode g).mpr ⟨hg, fun h => hsrc h.symm, fun h => hdst h.symm⟩
  | sweepDeleteMarkedNodes hashes token =>
    refine Finset.mem_filter.mpr ⟨hg, fun hmem => hsrc ?_, fun hmem => hdst ?_⟩ <;>
    exact (Finset.mem_filter.mp hmem).2.1
  | deleteIncomingSystemEdges d =>
    exact (Graph.mem_supersedes_deleteIncoming g).mpr ⟨hg, fun h => hc h.symm⟩
  | createSystemEdge => exact (Graph.mem_supersedes_createSystemEdge g).mpr (.inl hg)
  | linkRefutation => exact (Graph.supersedes_linkRefutation g ..).symm ▸ hg
  | createTypedEdge => exact (Graph.supersedes_createTypedEdge g ..).symm ▸ hg
  | deleteTypedEdge => exact (Graph.supersedes_deleteTypedEdge g ..).symm ▸ hg
  | setContradictionVerdict | setContradictionResolution | settleContradiction
  | unsettleContradiction => exact (Graph.supersedes_editLink g ..).symm ▸ hg
  | ensureNode | countAuditedContradiction | listMemoryNodes | sweepMarkMemoryNodes => exact hg

end GraphCall

/-- A call that keeps the nodes of two memories and the edge between them. -/
def Call.KeepsEdge (src dst : String) (c : Call) : Prop :=
  ∀ g, c = .graph g → ¬g.Unlinks dst ∧ ¬g.Drops src ∧ ¬g.Drops dst

theorem mem_nodes_serve {src dst : String} {c : Call} {s : Service} (hc : c.KeepsEdge src dst) :
    (src ∈ s.graph.nodes → src ∈ (Service.serve c s).2.graph.nodes) ∧
      (dst ∈ s.graph.nodes → dst ∈ (Service.serve c s).2.graph.nodes) := by
  generalize hs' : (Service.serve c s).2 = s'
  have heffect := Service.effect_of_serve c s
  rw [hs'] at heffect
  cases heffect with
  | graph =>
    obtain ⟨-, hsrc, hdst⟩ := hc _ rfl
    exact ⟨GraphCall.mem_nodes_exec hsrc, GraphCall.mem_nodes_exec hdst⟩
  | quiet | landed | deleted | queued => exact ⟨id, id⟩

theorem mem_supersedes_serve {src dst : String} {c : Call} {s : Service} (hc : c.KeepsEdge src dst)
    (hs : (src, dst) ∈ s.graph.supersedes) :
    (src, dst) ∈ (Service.serve c s).2.graph.supersedes := by
  generalize hs' : (Service.serve c s).2 = s'
  have heffect := Service.effect_of_serve c s
  rw [hs'] at heffect
  cases heffect with
  | graph =>
    obtain ⟨hunlinks, hsrc, hdst⟩ := hc _ rfl
    exact GraphCall.mem_supersedes_exec hunlinks hsrc hdst hs
  | quiet | landed | deleted | queued => exact hs

/-! ### The memories and the points they are stored at -/

/-- Each memory is stored at the point its valid hash names. -/
def Service.Keyed (s : Service) : Prop :=
  ∀ id m, (s.points id).bind parsePayload = some m →
    validateContentHash m.contentHash ∧ hashToUuid m.contentHash = .ok id

/-- A call whose store names its own point. -/
def Call.StoresKeyed (c : Call) : Prop :=
  ∀ params ctx mode id, c = .vectors (.update (.store params ctx mode) id) →
    validateContentHash ctx.contentHash ∧ hashToUuid ctx.contentHash = .ok id

theorem get_contentHash_memoryToPayload (m : Memory) :
    (memoryToPayload m).get "content_hash" = some (.string m.contentHash) := by
  simp [memoryToPayload, Payload.get_insertSome, nearestSimilarityKey, Object.get_cons]

/-- A store leaves its own hash on the point. -/
theorem get_contentHash_of_store {params : StoreParams} {ctx : StoreContext} {mode : StoreMode}
    {mine : String} {cell : Option Payload} {p : Payload}
    (h : (Op.store params ctx mode).land mine cell = some p) :
    p.get "content_hash" = some (.string ctx.contentHash) := by
  cases cell with
  | none =>
    cases created_of_land h with
    | store =>
      rw [get_stamp_of_ne (by decide) (by decide), get_contentHash_memoryToPayload]
      rfl
  | some q =>
    cases landing_of_land h with
    | store =>
      rw [get_stamp_of_ne (by decide) (by decide), get_carryOver (by decide) (by decide),
        if_neg (by decide), get_contentHash_memoryToPayload]
      rfl
    | merge hmerged =>
      cases hmerged with
      | accessed htime => cases htime

/-- Each memory is stored at a point that suits its hash. -/
def Service.Suits (R : PointId → String → Prop) (s : Service) : Prop :=
  ∀ id m, (s.points id).bind parsePayload = some m → R id m.contentHash

/-- Only a store puts a hash on a point. -/
theorem suits_effect {R : PointId → String → Prop} {c : Call} {s s' : Service}
    (hc : ∀ params ctx mode id, c = .vectors (.update (.store params ctx mode) id) →
      R id ctx.contentHash) (heffect : s.Effect c s') (hs : s.Suits R) : s'.Suits R := by
  cases heffect with
  | quiet | graph | queued => exact hs
  | @deleted contentHash gone hgone =>
    intro id m hm
    by_cases hid : id = gone
    · subst hid
      simp [Service.erase] at hm
    · refine hs id m ?_
      rwa [show (s.erase gone).points id = s.points id from Function.update_of_ne hid ..] at hm
  | @landed op id' p hland =>
    intro id m hm
    by_cases hid : id = id'
    · subst hid
      rw [show (s.write op id p).points id = some p from Function.update_self .., Option.bind_some] at hm
      by_cases hstore : ∃ params ctx mode, op = .store params ctx mode
      · obtain ⟨params, ctx, mode, rfl⟩ := hstore
        have hhash := get_contentHash_of_store hland
        rw [(parsePayload_eq_some hm).2.1] at hhash
        obtain hhash := Value.string.inj (Option.some.inj hhash)
        rw [hhash]
        exact hc params ctx mode id rfl
      · have hop : ∀ params ctx mode, op ≠ .store params ctx mode :=
          fun params ctx mode h => hstore ⟨params, ctx, mode, h⟩
        cases hcell : s.points id with
        | none =>
          rw [hcell] at hland
          obtain ⟨params, ctx, mode, rfl, -⟩ := record_of_created (created_of_land hland)
          exact absurd rfl (hop params ctx mode)
        | some q =>
          rw [hcell] at hland
          obtain ⟨m', hm', hhash⟩ := (sameText_of_landing (landing_of_land hland) hop).parse hm
          rw [← hhash]
          exact hs id m' (by rw [hcell, Option.bind_some, hm'])
    · refine hs id m ?_
      rwa [show (s.write op id' p).points id = s.points id from Function.update_of_ne hid ..] at hm

theorem keyed_serve {c : Call} {s : Service} (hc : c.StoresKeyed) (hs : s.Keyed) :
    (Service.serve c s).2.Keyed :=
  suits_effect (R := fun id h => validateContentHash h ∧ hashToUuid h = .ok id) hc
    (Service.effect_of_serve c s) hs

/-! ### The edge a supersession writes -/

/-- A call that keeps two memories' nodes and edge, and the keys of the store. -/
def Call.Keeps (src dst : String) (c : Call) : Prop := c.KeepsEdge src dst ∧ c.StoresKeyed

/-- The store is keyed and both memories have their node. -/
structure Service.Ready (s : Service) (src dst : String) : Prop where
  keyed : s.Keyed
  src_mem : src ∈ s.graph.nodes
  dst_mem : dst ∈ s.graph.nodes

theorem Call.Keeps.mark {src dst newHash reason : String} {oldHashes : List String} {c : Call}
    (h : c.OfMark oldHashes newHash reason) : c.Keeps src dst := by
  constructor
  · rintro g rfl
    cases g with
    | createSystemEdge => exact ⟨id, id, id⟩
    | _ => exact h.elim
  · rintro params ctx mode id rfl
    cases h.1

section

open Program Alaya.Flow

variable {s : Service} {src dst : String}

theorem ready_of_makes {α : Type} {p : Program Reply α} (hp : p.Makes (Call.Keeps src dst))
    (hs : s.Ready src dst) : wp Service.serve p (fun _ s' => s'.Ready src dst) s :=
  wp_of_makes (I := fun s' : Service => s'.Ready src dst) hp (fun _ _ hc hI =>
    ⟨keyed_serve hc.2 hI.keyed, (mem_nodes_serve hc.1).1 hI.src_mem,
      (mem_nodes_serve hc.1).2 hI.dst_mem⟩) hs

theorem node_of_makes {α : Type} {p : Program Reply α} {h : String} (hp : p.Makes (Call.Keeps h h))
    (hs : h ∈ s.graph.nodes) : wp Service.serve p (fun _ s' => h ∈ s'.graph.nodes) s :=
  wp_of_makes (I := fun s' : Service => h ∈ s'.graph.nodes) hp
    (fun _ _ hc hI => (mem_nodes_serve hc.1).1 hI) hs

theorem edge_of_makes {α : Type} {p : Program Reply α} (hp : p.Makes (Call.Keeps src dst))
    (hs : (src, dst) ∈ s.graph.supersedes) :
    wp Service.serve p (fun _ s' => (src, dst) ∈ s'.graph.supersedes) s :=
  wp_of_makes (I := fun s' : Service => (src, dst) ∈ s'.graph.supersedes) hp
    (fun _ _ hc hI => mem_supersedes_serve hc.1 hI) hs

theorem keeps_createSystemEdge (a b : String) : (Call.graph (.createSystemEdge a b)).Keeps src dst :=
  .mark (show (Call.graph (.createSystemEdge a b)).OfMark [] a "" from rfl)

theorem edge_createSystemEach {edges : List (String × String)} (he : (src, dst) ∈ edges)
    (hs : s.Ready src dst) : wp Service.serve (Bridge.createSystemEach edges).run
      (fun _ s' => (src, dst) ∈ s'.graph.supersedes) s := by
  induction edges generalizing s with
  | nil => cases he
  | cons e edges ih =>
    have hkeeps : (Call.graph (.createSystemEdge e.1 e.2)).Keeps src dst := keeps_createSystemEdge ..
    refine wp_seq.mpr (wp_ask.mpr (wp_seq.mpr ?_))
    have hrest : wp Service.serve (Bridge.createSystemEach edges).run
        (fun _ s' => (src, dst) ∈ s'.graph.supersedes)
        (Service.serve (.graph (.createSystemEdge e.1 e.2)) s).2 := by
      rcases List.mem_cons.mp he with rfl | he
      · refine edge_of_makes (makes_createSystemEach _ fun _ _ => keeps_createSystemEdge ..) ?_
        exact (Graph.mem_supersedes_createSystemEdge _).mpr (.inr ⟨⟨hs.src_mem, hs.dst_mem⟩, rfl⟩)
      · exact ih he ⟨keyed_serve hkeeps.2 hs.keyed, (mem_nodes_serve hkeeps.1).1 hs.src_mem,
          (mem_nodes_serve hkeeps.1).2 hs.dst_mem⟩
    exact hrest.mono fun r s' hs' => by cases r <;> exact hs'

/-- **The batch writes the edge of each of its memories that has a node.** -/
theorem edge_writeSupersedesEdges {oldHashes : List String}
    (hvalid : ∀ old ∈ oldHashes, validateContentHash old) (hsrc : validateContentHash src)
    (hdst : dst ∈ oldHashes) (hs : s.Ready src dst) :
    wp Service.serve (MemoryService.writeSupersedesEdges oldHashes src).run
      (fun _ s' => (src, dst) ∈ s'.graph.supersedes) s := by
  unfold MemoryService.writeSupersedesEdges
  split
  · next hnil =>
    rw [hnil] at hdst
    cases hdst
  · refine wp_seq.mpr (wp_attempt.mpr ?_)
    unfold Bridge.createSystemBatch
    split
    · next hbad =>
      simp only [List.any_map, List.any_eq_true, Function.comp_apply, Bool.or_eq_true,
        Bool.not_eq_true'] at hbad
      obtain ⟨old, hold, hbad⟩ := hbad
      rw [hsrc, hvalid old hold] at hbad
      rcases hbad with hbad | hbad <;> cases hbad
    · exact edge_createSystemEach (List.mem_map.mpr ⟨dst, hdst, rfl⟩) hs

/-- Every memory read from a keyed store carries a valid hash. -/
theorem valid_of_getBatch {hashes : List String} {found : List Memory} (hs : s.Keyed)
    (h : getBatch s.points hashes = .ok found) {m : Memory} (hm : m ∈ found) :
    validateContentHash m.contentHash := by
  obtain ⟨ids, -, h⟩ := bind_eq_ok.mp h
  obtain rfl := Except.ok.inj h
  obtain ⟨id, -, hid⟩ := List.mem_filterMap.mp hm
  exact (hs id m hid).1

/-- **A mark leaves the edge of each memory it marks**, of those too that it finds marked after a
failure. -/
theorem edge_markSuperseded {oldHashes : List String} {reason : String}
    (hvalid : ∀ old ∈ oldHashes, validateContentHash old) (hsrc : validateContentHash src)
    (hdst : dst ∈ oldHashes) (hs : s.Ready src dst) :
    wp Service.serve (MemoryService.markSuperseded oldHashes src reason).run (fun r s' =>
      match r with
      | .ok (.ok _) => (src, dst) ∈ s'.graph.supersedes
      | .ok (.error f) => dst ∈ f.marked → (src, dst) ∈ s'.graph.supersedes
      | .error _ => True) s := by
  refine wp_seq.mpr (wp_attempt.mpr ?_)
  refine (ready_of_makes ((makes_updateMetadataBatch ..).mono fun _ => .mark) hs).mono ?_
  intro r s' hs'
  rcases r with e | _
  · refine wp_seq.mpr (wp_attempt.mpr (wp_getBatch.mpr ?_))
    cases hbatch : getBatch s'.points oldHashes with
    | error e => exact nofun
    | ok memories =>
      dsimp only
      set marked := (memories.filter fun m =>
        m.supersessionMarker.bind Value.asStr = some src).map Memory.contentHash with hmarked
      have hvalid' : ∀ old ∈ marked, validateContentHash old := by
        intro old hold
        obtain ⟨m, hm, rfl⟩ := List.mem_map.mp hold
        exact valid_of_getBatch hs'.keyed hbatch (List.mem_filter.mp hm).1
      by_cases hmem : dst ∈ marked
      · refine wp_seq.mpr ((edge_writeSupersedesEdges hvalid' hsrc hmem hs').mono ?_)
        rintro (_ | _) s'' hs''
        · trivial
        · exact fun _ => hs''
      · refine wp_seq.mpr (wp.mono (Q := fun _ _ => True) trivial ?_)
        rintro (_ | _) s'' -
        · trivial
        · exact fun h => absurd h hmem
  · refine wp_seq.mpr ((edge_writeSupersedesEdges hvalid hsrc hdst hs').mono ?_)
    rintro (_ | _) s'' hs''
    · trivial
    · exact hs''

end

/-! ### What an operation reports -/

/-- Every pair an operation reports has its edge. -/
def Reported (r : Except AlayaError Report) (s : Service) : Prop :=
  ∀ report, r = .ok report → ∀ m n, (m, n) ∈ report.pairs → (n, m) ∈ s.graph.supersedes

theorem reported_error (e : AlayaError) (s : Service) : Reported (.error e) s :=
  fun _ h => by cases h

/-- The superseded memory has a node, and the survivor has one or is not stored yet. -/
def Service.Linked (s : Service) (m n : String) : Prop :=
  m ∈ s.graph.nodes ∧ (n ∈ s.graph.nodes ∨ ∃ id, hashToUuid n = .ok id ∧ s.points id = none)

section

open Program Alaya.Flow

variable {s : Service} {lib : Components}

/-- What a batch found is at a point one of its hashes names. -/
theorem exists_of_mem_batch {hashes : List String} {w : Memory} (h : w ∈ s.batch hashes) :
    ∃ g ∈ hashes, ∃ id, hashToUuid g = .ok id ∧ (s.points id).bind parsePayload = some w := by
  unfold Service.batch at h
  cases hbatch : getBatch s.points hashes with
  | error e =>
    rw [hbatch] at h
    cases h
  | ok found =>
    rw [hbatch] at h
    obtain ⟨ids, hids, hfound⟩ := bind_eq_ok.mp hbatch
    obtain rfl := Except.ok.inj hfound
    obtain ⟨id, hid, hw⟩ := List.mem_filterMap.mp h
    obtain ⟨g, hg, hgid⟩ := mem_of_mapM_hashToUuid hids hid
    exact ⟨g, hg, id, hgid, hw⟩

/-- A survivor that a keyed store holds has a node. -/
theorem Service.Linked.src_mem {m n : String} {id : PointId} {w : Memory} (h : s.Linked m n)
    (hn : hashToUuid n = .ok id) (hw : (s.points id).bind parsePayload = some w) :
    n ∈ s.graph.nodes := by
  rcases h.2 with hnode | ⟨id', hid', hnone⟩
  · exact hnode
  · obtain rfl := Except.ok.inj (hn.symm.trans hid')
    rw [hnone] at hw
    cases hw

theorem reported_memorySupersede {oldHash newHash reason : String} (hs : s.Keyed)
    (hlinked : ∀ m n, (Operation.supersede oldHash newHash reason).Supersedes lib s m n →
      s.Linked m n) :
    wp Service.serve (MemoryService.memorySupersede oldHash newHash reason).run
      (fun r s' => Reported (r.map .superseded) s') s := by
  refine wp_seq.mpr (wp_ofExcept.mpr ?_)
  cases hchecked : MemoryService.supersedeChecked oldHash newHash with
  | error e => exact reported_error _ _
  | ok _ =>
    obtain ⟨hold, hnew, hne⟩ := MemoryService.supersedeChecked_eq_ok hchecked
    refine wp_seq.mpr (wp_getBatch.mpr ?_)
    cases hbatch : getBatch s.points [oldHash, newHash] with
    | error e => exact reported_error _ _
    | ok batch =>
      refine wp_seq.mpr (wp_ofExcept.mpr ?_)
      cases hboth : MemoryService.bothFound oldHash newHash batch with
      | error e => exact reported_error _ _
      | ok _ =>
        have hfound := MemoryService.bothFound_eq_ok hboth
        rw [← Service.batch_of_ok hbatch] at hfound
        have hpair := hlinked oldHash newHash ⟨rfl, rfl, hold, hnew, hne, hfound⟩
        obtain ⟨-, w, hw, hhash⟩ := hfound
        obtain ⟨g, -, id, -, hid⟩ := exists_of_mem_batch hw
        have hready : s.Ready newHash oldHash :=
          ⟨hs, hpair.src_mem (hhash ▸ (hs id w hid).2) hid, hpair.1⟩
        refine wp_seq.mpr ((edge_markSuperseded (by simpa using hold) hnew (List.mem_singleton_self _)
          hready).mono ?_)
        rintro (e | (f | _)) s' hs'
        · exact reported_error _ _
        · exact reported_error _ _
        · rintro report hreport m n hmn
          obtain rfl := Except.ok.inj hreport
          obtain ⟨rfl, rfl⟩ := Prod.mk.inj (List.mem_singleton.mp hmn)
          exact hs'

theorem reported_merged {report : MergeReport} (h : report.dryRun = false →
    ∀ m ∈ report.superseded, (report.canonicalHash, m) ∈ s.graph.supersedes) :
    Reported (.ok (.merged report)) s := by
  intro _ heq m n hmn
  obtain rfl := Except.ok.inj heq
  unfold Report.pairs at hmn
  dsimp only at hmn
  split at hmn
  · cases hmn
  · next hdry =>
    obtain ⟨dup, hdup, hpair⟩ := List.mem_map.mp hmn
    obtain ⟨rfl, rfl⟩ := Prod.mk.inj hpair
    exact h (by simpa using hdry) _ hdup

theorem reported_mergeFound {canonicalHash reason : String} {toSupersede : List String}
    {errors : List (String × String)} (hvalid : ∀ dup ∈ toSupersede, validateContentHash dup)
    (hcanonical : validateContentHash canonicalHash)
    (hready : ∀ dup ∈ toSupersede, s.Ready canonicalHash dup) :
    wp Service.serve (MemoryService.mergeFound canonicalHash toSupersede reason errors).run
      (fun r s' => Reported (r.map .merged) s') s := by
  have hmark : wp Service.serve (MemoryService.markSuperseded toSupersede canonicalHash reason).run
      (fun r s' => ∀ dup ∈ toSupersede, match r with
        | .ok (.ok _) => (canonicalHash, dup) ∈ s'.graph.supersedes
        | .ok (.error f) => dup ∈ f.marked → (canonicalHash, dup) ∈ s'.graph.supersedes
        | .error _ => True) s :=
    fun dup hdup => edge_markSuperseded hvalid hcanonical hdup (hready dup hdup)
  refine wp_seq.mpr (hmark.mono ?_)
  rintro (e | (f | _)) s' hs'
  · exact reported_error _ _
  · refine reported_merged fun _ m hm => ?_
    obtain ⟨hdup, hmarked⟩ := List.mem_filter.mp hm
    exact hs' m hdup (of_decide_eq_true hmarked)
  · exact reported_merged fun _ m hm => hs' m hm

theorem reported_mergeDuplicates {canonicalHash reason : String} {duplicateHashes : List String}
    {dryRun : Bool} (hs : s.Keyed)
    (hlinked : ∀ m n, (Operation.merge canonicalHash duplicateHashes reason dryRun).Supersedes lib s
      m n → s.Linked m n) :
    wp Service.serve (MemoryService.mergeDuplicates canonicalHash duplicateHashes reason dryRun).run
      (fun r s' => Reported (r.map .merged) s') s := by
  unfold MemoryService.mergeDuplicates
  split
  · exact reported_error _ _
  next hvalid =>
  replace hvalid : validateContentHash canonicalHash := by simpa using hvalid
  refine wp_seq.mpr (wp_getByHash.mpr ?_)
  rcases hcanonical : getByHash s.points canonicalHash with e | (_ | w)
  · exact reported_error _ _
  · exact reported_error _ _
  cases dryRun with
  | true => exact reported_merged nofun
  | false =>
    obtain ⟨id, hid, hw⟩ := bind_eq_ok.mp hcanonical
    replace hw : (s.points id).bind parsePayload = some w := Except.ok.inj hw
    refine wp_seq.mpr (wp_getBatch.mpr ?_)
    cases hbatch : getBatch s.points
        (MemoryService.mergeCandidates canonicalHash duplicateHashes) with
    | error e => exact reported_error _ _
    | ok found =>
      dsimp only
      split
      · exact reported_merged nofun
      · refine reported_mergeFound (fun dup hdup => ?_) hvalid fun dup hdup => ?_
        · exact (MemoryService.mem_mergeCandidates.mp (List.mem_filter.mp hdup).1).2.2
        · obtain ⟨hcandidate, hexisting⟩ := List.mem_filter.mp hdup
          obtain ⟨m, hm, hhash⟩ := List.mem_map.mp (of_decide_eq_true hexisting)
          have hpair := hlinked dup canonicalHash ⟨rfl, rfl, hvalid, ⟨w, hcanonical⟩, hcandidate,
            m, (Service.batch_of_ok hbatch).symm ▸ hm, hhash⟩
          exact ⟨hs, hpair.src_mem hid hw, hpair.1⟩

end

/-! ### The correction a refute stores -/

section

open Program Alaya.Flow

variable {s : Service} {lib : Components} {params : StoreParams} {now : ℚ}

theorem wp_query {q : Query} {Q : Except AlayaError q.Answer → Service → Prop} :
    wp Service.serve (query q).run Q s ↔ Q (s.answer q s.points s.graph) s := .rfl

theorem wp_nearDuplicate_none {embedding : List ℚ}
    {Q : Except AlayaError (Option ScoredMemory) → Service → Prop} :
    wp Service.serve (MemoryService.nearDuplicate embedding none).run Q s ↔ Q (.ok none) s := .rfl

theorem neighbourSearch_quiet (embedding : List ℚ) (readOnly : Bool) :
    wp Service.serve (MemoryService.neighbourSearch embedding readOnly).run (fun _ s' => s' = s) s := by
  cases readOnly with
  | true => exact rfl
  | false => exact rfl

/-- A store where there is no point creates it. -/
theorem created_of_store {ctx : StoreContext} {id : PointId} (hid : hashToUuid ctx.contentHash = .ok id)
    (hnone : s.points id = none) {mode : StoreMode} :
    wp Service.serve (Vectors.store params ctx mode).run
      (fun r _ => ∀ created, r = .ok created → created.1 = true) s := by
  refine wp_seq.mpr (wp_ofExcept.mpr ?_)
  rw [hid]
  refine wp_seq.mpr (wp_ask.mpr ?_)
  cases hanswer : (Service.serve (.vectors (.update (.store params ctx mode) id)) s).1 with
  | error e => exact fun _ h => by cases h
  | ok updated =>
    obtain ⟨call, -, hcall, -⟩ := Service.update_answer hanswer
    rw [hnone] at hcall
    refine wp_ofExcept.mpr fun created hcreated => ?_
    rcases UpdateCall.answer_none hcall with ⟨p, hp⟩ | habsent
    · rw [hp] at hcreated
      exact (Prod.mk.inj (Except.ok.inj hcreated)).1.symm
    · rw [habsent] at hcreated
      cases hcreated

/-- What a store leaves in the graph: the node of its hash. -/
theorem node_linkStored {contentHash : String} {edges : List Bridge.TypedEdge} :
    wp Service.serve (MemoryService.linkStored contentHash edges).run
      (fun _ s' => contentHash ∈ s'.graph.nodes) s := by
  have hkeeps : ∀ e : Bridge.TypedEdge, (Call.graph (.createTypedEdge e.source e.target e.relationType
      e.createdAt e.confidence)).KeepsEdge contentHash contentHash := by
    rintro e g heq
    obtain rfl := Call.graph.inj heq
    exact ⟨id, id, id⟩
  have hedges : (attempt (Bridge.createTypedBatch edges)).run.Makes
      (Call.KeepsEdge contentHash contentHash) := by
    refine makes_attempt ?_
    unfold Bridge.createTypedBatch
    split
    · exact .throw _
    · exact makes_createTypedEach _ fun e _ => hkeeps e
  refine wp_seq.mpr (wp_attempt.mpr (wp_ask.mpr ?_))
  have hnode : contentHash ∈ (Service.serve (.graph (.ensureNode contentHash)) s).2.graph.nodes :=
    Finset.mem_insert_self ..
  dsimp only
  split
  · exact hnode
  · refine wp_seq.mpr ((wp_of_makes (I := fun s' : Service => contentHash ∈ s'.graph.nodes) hedges
      (fun _ _ hc hI => (mem_nodes_serve hc).1 hI) hnode).mono ?_)
    rintro (e | _) s' hs'
    · exact hs'
    · exact hs'

theorem node_storePoint {embedding : List ℚ} {similar : Option (List ScoredMemory)} {id : PointId}
    (hid : hashToUuid (lib.generateContentHash params.content) = .ok id) (hnone : s.points id = none) :
    wp Service.serve (MemoryService.storePoint lib params false true now embedding similar).run
      (fun r s' => ∀ stored, r = .ok stored → lib.generateContentHash params.content ∈ s'.graph.nodes)
      s := by
  refine wp_seq.mpr ((created_of_store hid hnone).mono ?_)
  rintro (e | ⟨created, hash⟩) s' hcreated
  · exact fun _ h => by cases h
  · obtain rfl : created = true := hcreated _ rfl
    refine wp_seq.mpr ((node_linkStored).mono ?_)
    rintro (e | _) s'' hs''
    · exact fun _ h => by cases h
    · exact fun _ _ => hs''

theorem node_storeMemoryMode {id : PointId} (hdedup : params.dedupThreshold = none)
    (hid : hashToUuid (lib.generateContentHash params.content) = .ok id) (hnone : s.points id = none) :
    wp Service.serve (MemoryService.storeMemoryMode lib params false true now).run
      (fun r s' => ∀ stored, r = .ok stored → lib.generateContentHash params.content ∈ s'.graph.nodes)
      s := by
  unfold MemoryService.storeMemoryMode
  split
  · exact fun _ h => by cases h
  refine wp_seq.mpr (wp_ofExcept.mpr ?_)
  cases checked params.validate with
  | error e => exact fun _ h => by cases h
  | ok _ =>
    refine wp_seq.mpr (wp_query.mpr ?_)
    rcases s.answer (.embed params.content) s.points s.graph with e | (_ | embedding)
    · exact fun _ h => by cases h
    · exact fun _ h => by cases h
    · rw [hdedup]
      refine wp_seq.mpr (wp_nearDuplicate_none.mpr
        (wp_seq.mpr ((neighbourSearch_quiet embedding false).mono ?_)))
      rintro (e | similar) s' rfl
      · exact fun _ h => by cases h
      · exact node_storePoint hid hnone

end

/-! ### Refutes -/

theorem Call.Keeps.store {src dst : String} {lib : Components} {params : StoreParams}
    {readOnly insertOnly : Bool} {c : Call}
    (hhash : ∀ content, validateContentHash (lib.generateContentHash content))
    (h : c.OfStore lib params readOnly insertOnly) : c.Keeps src dst := by
  constructor
  · rintro g rfl
    cases g with
    | ensureNode | createTypedEdge => exact ⟨id, id, id⟩
    | _ => exact h.elim
  · rintro params' ctx mode id rfl
    obtain ⟨ctx', hop, hctx, hid⟩ := h
    obtain ⟨rfl, rfl, -⟩ := Op.store.inj hop
    exact ⟨hctx ▸ hhash _, hid⟩

section

open Program Alaya.Flow

variable {s : Service} {lib : Components} {contentHash : String} {refutation : Refutation} {now : ℚ}
  (hhash : ∀ content, validateContentHash (lib.generateContentHash content))

include hhash

theorem Call.Keeps.refute {src dst : String} {c : Call} (h : c.OfRefute lib contentHash refutation) :
    c.Keeps src dst := by
  rcases h with h | h
  · exact .store hhash h
  · constructor
    · rintro g rfl
      cases g with
      | ensureNode | createSystemEdge | linkRefutation => exact ⟨id, id, id⟩
      | _ => exact h.elim
    · rintro params ctx mode id rfl
      cases h.1

/-- A correction that was not stored before the refute has a node once it is. -/
theorem node_storeCorrection {id : PointId}
    (hid : hashToUuid (lib.generateContentHash refutation.content) = .ok id)
    (hnone : s.points id = none) :
    wp Service.serve (MemoryService.storeCorrection lib refutation
      (lib.generateContentHash refutation.content) none now).run
      (fun r s' => ∀ stored, r = .ok stored →
        (∃ refused, stored = .error refused) ∨
          lib.generateContentHash refutation.content ∈ s'.graph.nodes) s := by
  refine wp_seq.mpr (wp_attempt.mpr ((node_storeMemoryMode rfl hid hnone).mono ?_))
  rintro (e | stored) s' hs'
  · cases e <;> first | exact fun _ h => .inl ⟨_, (Except.ok.inj h).symm⟩ | exact fun _ h => by cases h
  · have hnode : lib.generateContentHash refutation.content ∈ s'.graph.nodes := hs' _ rfl
    cases stored with
    | some stored => exact fun _ _ => .inr hnode
    | none =>
      have huse : (MemoryService.useExisting refutation (lib.generateContentHash
          refutation.content)).run.Makes (Call.OfRefute lib "" refutation) := makes_useExisting
      refine wp_seq.mpr ((node_of_makes (huse.mono fun _ => .refute hhash) hnode).mono ?_)
      rintro (e | (refused | m)) s'' hs''
      · exact fun _ h => by cases h
      · exact fun _ h => .inl ⟨_, (Except.ok.inj h).symm⟩
      · exact fun _ _ => .inr hs''

theorem node_refuteStore {id : PointId} (hs : s.Keyed)
    (hid : hashToUuid (lib.generateContentHash refutation.content) = .ok id)
    (hnone : s.points id = none) :
    wp Service.serve (MemoryService.refuteStore lib contentHash refutation now).run
      (fun r s' => ∀ plan, r = .ok (.stored plan) →
        lib.generateContentHash refutation.content ∈ s'.graph.nodes) s := by
  refine wp_seq.mpr (wp_ofExcept.mpr ?_)
  cases hchecked : MemoryService.refuteChecked lib contentHash refutation with
  | error e => exact fun _ h => by cases h
  | ok checked =>
    obtain ⟨reason, correctionHash⟩ := checked
    obtain ⟨-, -, rfl, -⟩ := refuteChecked_eq_ok hchecked
    refine wp_seq.mpr (wp_getBatch.mpr ?_)
    cases hbatch : getBatch s.points [contentHash, lib.generateContentHash refutation.content] with
    | error e => exact fun _ h => by cases h
    | ok found =>
      -- Nothing stored carries the correction's hash: its point is empty.
      have hexisting : found.find? (fun m => m.contentHash =
          lib.generateContentHash refutation.content) = none := by
        refine List.find?_eq_none.mpr fun w hw hhash' => ?_
        rw [← Service.batch_of_ok hbatch] at hw
        obtain ⟨g, -, id', -, hw'⟩ := exists_of_mem_batch hw
        have hkey := (hs id' w hw').2
        rw [of_decide_eq_true hhash', hid] at hkey
        obtain rfl := Except.ok.inj hkey
        rw [hnone] at hw'
        cases hw'
      dsimp only
      cases found.find? fun m => m.contentHash = contentHash with
      | none => exact fun _ h => by cases h
      | some wrong =>
        dsimp only
        cases MemoryService.wrongRefusal refutation (lib.generateContentHash refutation.content)
          wrong with
        | some refused => exact fun _ h => by cases h
        | none =>
          dsimp only
          rw [hexisting]
          refine wp_seq.mpr ((node_storeCorrection hhash hid hnone).mono ?_)
          rintro (e | (refused | stored)) s' hs'
          · exact fun _ h => by cases h
          · exact fun _ h => by cases h
          · rintro plan -
            rcases hs' _ rfl with ⟨refused, hrefused⟩ | hnode
            · cases hrefused
            · exact hnode

/-- **A first phase that stores hands on a keyed store and both nodes.** -/
theorem ready_refuteStore (hs : s.Keyed) (hsupersede : refutation.supersede = true)
    (hlinked : ∀ m n, (Operation.refute contentHash refutation now).Supersedes lib s m n →
      s.Linked m n) :
    wp Service.serve (MemoryService.refuteStore lib contentHash refutation now).run
      (fun r s' => ∀ plan, r = .ok (.stored plan) → plan.Of lib contentHash refutation ∧
        s'.Ready (lib.generateContentHash refutation.content) contentHash) s := by
  by_cases hpasses : ∃ m n, (Operation.refute contentHash refutation now).Supersedes lib s m n
  · obtain ⟨m, n, hmn⟩ := hpasses
    obtain ⟨hdst, hsrc⟩ := hlinked m n hmn
    obtain ⟨rfl, -, ⟨reason, hchecked⟩, -⟩ := hmn
    obtain ⟨-, -, rfl, -⟩ := refuteChecked_eq_ok hchecked
    have hplan : wp Service.serve (MemoryService.refuteStore lib m refutation now).run
        (fun r _ => IfOk (RefuteStage.Of lib m refutation) r) s := wp_of_returns returns_refuteStore
    have hmakes : ∀ src dst, (MemoryService.refuteStore lib m refutation now).run.Makes
        (Call.Keeps src dst) := fun _ _ => makes_refuteStore.mono fun _ => .refute hhash
    have hready : wp Service.serve (MemoryService.refuteStore lib m refutation now).run
        (fun _ s' => s'.Ready m m) s := ready_of_makes (hmakes m m) ⟨hs, hdst, hdst⟩
    have hnode : wp Service.serve (MemoryService.refuteStore lib m refutation now).run
        (fun r s' => ∀ plan, r = .ok (.stored plan) →
          lib.generateContentHash refutation.content ∈ s'.graph.nodes) s := by
      rcases hsrc with hsrc | ⟨id, hid, hnone⟩
      · exact (node_of_makes (hmakes _ _) hsrc).mono fun _ _ h _ _ => h
      · exact node_refuteStore hhash hs hid hnone
    exact ((hplan.and hready).and hnode).mono fun r s' h plan hr => by
      subst hr
      exact ⟨h.1.1, h.1.2.keyed, h.2 plan rfl, h.1.2.dst_mem⟩
  · refine (refute_refused (fun m n h => hpasses ⟨m, n, h⟩) hsupersede).mono ?_
    rintro r s' ⟨-, hrefuses⟩ plan rfl
    exact hrefuses.elim

/-- **The second phase of a refute that answers superseded has written the edge.** -/
theorem edge_refuteSupersede {plan : RefutePlan} (hplan : plan.Of lib contentHash refutation)
    (hsupersede : plan.supersede = true)
    (hs : s.Ready (lib.generateContentHash refutation.content) contentHash) :
    wp Service.serve (MemoryService.refuteSupersede plan).run (fun r s' => r = .ok .superseded →
      (lib.generateContentHash refutation.content, contentHash) ∈ s'.graph.supersedes) s := by
  have hgone : (MemoryService.correctionGone plan).run.Makes (Call.OfRefute lib contentHash refutation) :=
    makes_correctionGone
  refine wp_seq.mpr (((ready_of_makes (hgone.mono fun _ => .refute hhash) hs).and
    (wp_of_returns returns_correctionGone)).mono ?_)
  rintro (e | (_ | ending)) s' ⟨hs', hends⟩
  · exact fun h => by cases h
  · refine wp_seq.mpr (((ready_of_makes ((makes_supersedeReason hplan hsupersede).mono
      fun _ => .refute hhash) hs').and (wp_of_returns returns_supersedeReason)).mono ?_)
    rintro (e | (ending | reason)) s'' ⟨hs'', hends'⟩
    · exact fun h => by cases h
    · exact fun h => (Except.ok.inj h ▸ hends' ending rfl : RefuteEnd.superseded.Refuses).elim
    · dsimp only
      split
      · exact fun h => by cases h
      · rw [hplan.contentHash, hplan.correctionHash]
        refine wp_seq.mpr ((edge_writeSupersedesEdges (by simpa using hplan.valid) (hhash _)
          (List.mem_singleton_self _) hs'').mono ?_)
        rintro (e | _) s₃ hs₃
        · exact fun h => by cases h
        · exact fun _ => hs₃
  · exact fun h => (Except.ok.inj h ▸ hends ending rfl : RefuteEnd.superseded.Refuses).elim

theorem reported_memoryRefute (hs : s.Keyed)
    (hlinked : ∀ m n, (Operation.refute contentHash refutation now).Supersedes lib s m n →
      s.Linked m n) :
    wp Service.serve (MemoryService.memoryRefute lib contentHash refutation now).run
      (fun r s' => Reported (r.map .refuted) s') s := by
  have hnothing : ∀ {answer : RefuteAnswer} {s' : Service},
      (∀ plan, answer ≠ .finished plan .superseded) → Reported (.ok (.refuted answer)) s' := by
    rintro answer s' hanswer report hreport m n hmn
    obtain rfl := Except.ok.inj hreport
    unfold Report.pairs at hmn
    split at hmn <;> cases ‹_ = _›
    · exact absurd rfl (hanswer _)
    · cases hmn
  cases hsupersede : refutation.supersede with
  | false =>
    refine wp_seq.mpr ((wp_of_returns returns_refuteStore).mono ?_)
    rintro (e | (refused | plan)) s' hplan
    · exact reported_error _ _
    · exact hnothing nofun
    · replace hplan : plan.Of lib contentHash refutation := hplan
      refine wp_seq.mpr ?_
      rw [MemoryService.refuteFinish, if_neg (by simp [hplan.supersede, hsupersede])]
      refine (wp_of_returns returns_refuteContradicts).mono ?_
      rintro (e | ending) s'' hending
      · exact reported_error _ _
      · exact hnothing fun plan' h => hending (RefuteAnswer.finished.inj h).2
  | true =>
    refine wp_seq.mpr ((ready_refuteStore hhash hs hsupersede hlinked).mono ?_)
    rintro (e | (refused | plan)) s' hs'
    · exact reported_error _ _
    · exact hnothing nofun
    · obtain ⟨hplan, hready⟩ := hs' plan rfl
      have hfinish : plan.supersede = true := hplan.supersede.trans hsupersede
      refine wp_seq.mpr ?_
      rw [MemoryService.refuteFinish, if_pos hfinish]
      refine (edge_refuteSupersede hhash hplan hfinish hready).mono ?_
      rintro (e | ending) s'' hedge
      · exact reported_error _ _
      · by_cases hending : ending = .superseded
        · subst hending
          rintro report hreport m n hmn
          obtain rfl := Except.ok.inj hreport
          obtain ⟨rfl, rfl⟩ := Prod.mk.inj (List.mem_singleton.mp hmn)
          rw [hplan.contentHash, hplan.correctionHash]
          exact hedge rfl
        · exact hnothing fun plan' h => hending (RefuteAnswer.finished.inj h).2

end

/-! ### Runs of operations -/

/-- An operation that takes one of two memories away, or reverses the supersession between them. -/
def Operation.Unlinks (src dst : String) : Operation → Prop
  | unsupersede contentHash .. => contentHash = dst
  | delete contentHash => contentHash = src ∨ contentHash = dst
  | _ => False

/-- What each call of an operation keeps. -/
def Operation.Keeps (src dst : String) (op : Operation) (c : Call) : Prop :=
  c.StoresKeyed ∧ (¬op.Unlinks src dst → c.KeepsEdge src dst)

theorem Operation.Keeps.of_call {src dst : String} {op : Operation} {c : Call}
    (h : c.Keeps src dst) : op.Keeps src dst c := ⟨h.2, fun _ => h.1⟩

/-- A read keeps everything. -/
theorem keeps_of_read {src dst : String} {c : Call}
    (h : ∀ g, c ≠ .graph g) (h' : ∀ op id, c ≠ .vectors (.update op id)) : c.Keeps src dst :=
  ⟨fun g hg => absurd hg (h g), fun _ _ _ _ hc => absurd hc (h' _ _)⟩

section

open Program Alaya.Flow

variable {lib : Components} {src dst : String}

theorem keeps_getByHash {contentHash : String} :
    (Call.vectors (.getByHash contentHash)).Keeps src dst :=
  keeps_of_read (fun _ h => by cases h) fun _ _ h => by cases h

theorem keeps_getBatch {hashes : List String} : (Call.vectors (.getBatch hashes)).Keeps src dst :=
  keeps_of_read (fun _ h => by cases h) fun _ _ h => by cases h

theorem makes_memorySupersede {oldHash newHash reason : String} :
    (MemoryService.memorySupersede oldHash newHash reason).run.Makes (Call.Keeps src dst) := by
  refine Makes.seq (.ofExcept _) fun _ => (makes_getBatch _ keeps_getBatch).seq fun _ =>
    Makes.seq (.ofExcept _) fun _ => ?_
  refine ((makes_markSuperseded ..).mono fun _ => .mark).seq fun marked => ?_
  rcases marked with f | _
  · exact .throw _
  · exact .pure _

theorem makes_mergeDuplicates {canonicalHash reason : String} {duplicateHashes : List String}
    {dryRun : Bool} : (MemoryService.mergeDuplicates canonicalHash duplicateHashes reason
      dryRun).run.Makes (Call.Keeps src dst) := by
  unfold MemoryService.mergeDuplicates
  split
  · exact .throw _
  refine (makes_ask keeps_getByHash).seq fun canonical => ?_
  rcases canonical with _ | w
  · exact .throw _
  dsimp only
  split
  · exact .pure _
  refine (makes_getBatch _ keeps_getBatch).seq fun found => ?_
  dsimp only
  split
  · exact .pure _
  refine ((makes_markSuperseded ..).mono fun _ => .mark).seq fun marked => ?_
  rcases marked with f | _ <;> exact .pure _

theorem keeps_reversal {contentHash reason via : String} {now : ℚ} {c : Call}
    (h : c.OfReversal contentHash now) :
    (Operation.unsupersede contentHash reason via now).Keeps src dst c := by
  constructor
  · rintro params ctx mode id rfl
    obtain ⟨⟨expected, reversal, hop⟩, -⟩ := h
    cases hop
  · rintro hkept g rfl
    cases g with
    | deleteIncomingSystemEdges d =>
      have hne : d = contentHash := h
      exact ⟨fun hd => hkept (hne.symm.trans hd), id, id⟩
    | createSystemEdge | settleContradiction | unsettleContradiction => exact ⟨id, id, id⟩
    | _ => exact h.elim

theorem makes_deleteMemory {contentHash : String} :
    (MemoryService.deleteMemory contentHash).run.Makes
      ((Operation.delete contentHash).Keeps src dst) := by
  have hpoint : (Call.vectors (.delete contentHash)).Keeps src dst :=
    keeps_of_read (fun _ h => by cases h) fun _ _ h => by cases h
  have hnode : (Operation.delete contentHash).Keeps src dst (.graph (.deleteNode contentHash)) := by
    refine ⟨fun _ _ _ _ h => (by cases h), fun hkept g hg => ?_⟩
    obtain rfl := Call.graph.inj hg
    exact ⟨id, fun h => hkept (.inl h), fun h => hkept (.inr h)⟩
  unfold MemoryService.deleteMemory
  split
  · exact .throw _
  · exact (makes_ask (.of_call hpoint)).seq fun deleted =>
      (makes_attempt (makes_ask hnode)).seq fun _ => .pure _

/-- **What no operation but a delete or a reversal takes away.** -/
theorem makes_flow (hhash : ∀ content, validateContentHash (lib.generateContentHash content))
    (op : Operation) : (op.flow lib).run.Makes (op.Keeps src dst) := by
  cases op with
  | store params readOnly insertOnly now =>
    exact ((makes_storeMemoryMode ..).mono fun _ hc => .of_call (.store hhash hc)).map _
  | supersede oldHash newHash reason => exact (makes_memorySupersede.mono fun _ => .of_call).map _
  | merge canonicalHash duplicateHashes reason dryRun =>
    exact (makes_mergeDuplicates.mono fun _ => .of_call).map _
  | refute contentHash refutation now =>
    exact (makes_memoryRefute.mono fun _ hc => .of_call (.refute hhash hc)).map _
  | unsupersede contentHash reason via now =>
    exact ((makes_memoryUnsupersede ..).mono fun _ => keeps_reversal).map _
  | delete contentHash => exact makes_deleteMemory.map _

end

/-- One operation runs alone, and each memory it is to supersede has a node, its survivor too unless
the operation is the one to store it. -/
def LinkedStep (lib : Components) (s : Service) (e : Operation × Except AlayaError Report)
    (s' : Service) : Prop :=
  (∀ m n, e.1.Supersedes lib s m n → s.Linked m n) ∧ SeqStep lib s e s'

section

open Program

variable {lib : Components} {s s' : Service} {e : Operation × Except AlayaError Report}
  (hhash : ∀ content, validateContentHash (lib.generateContentHash content))

include hhash

theorem keyed_step (hs : s.Keyed) (h : SeqStep lib s e s') : s'.Keyed := by
  have hmakes : (e.1.flow lib).run.Makes (e.1.Keeps "" "") := makes_flow hhash e.1
  refine h.of_wp (Q := fun _ s' => s'.Keyed) ?_
  exact wp_of_makes (I := Service.Keyed) hmakes (fun _ _ hc hI => keyed_serve hc.1 hI) hs

/-- An edge stays through an operation that takes neither memory away nor reverses it. -/
theorem edge_step {m n : String} (hs : (n, m) ∈ s.graph.supersedes) (hkept : ¬e.1.Unlinks n m)
    (h : SeqStep lib s e s') : (n, m) ∈ s'.graph.supersedes := by
  have hmakes : (e.1.flow lib).run.Makes (e.1.Keeps n m) := makes_flow hhash e.1
  refine h.of_wp (Q := fun _ s' => (n, m) ∈ s'.graph.supersedes) ?_
  exact wp_of_makes (I := fun s' : Service => (n, m) ∈ s'.graph.supersedes) hmakes
    (fun _ _ hc hI => mem_supersedes_serve (hc.2 hkept) hI) hs

/-- **What an operation reports superseded has its edge.** -/
theorem reported_step (hs : s.Keyed) (h : LinkedStep lib s e s') : Reported e.2 s' := by
  obtain ⟨hlinked, hstep⟩ := h
  obtain ⟨op, answer⟩ := e
  refine hstep.of_wp ?_
  have hnothing : ∀ {α : Type} {p : Flow α} {f : α → Report}, (∀ a, (f a).pairs = []) →
      wp Service.serve (f <$> p).run (fun r s' => Reported r s') s := by
    intro α p f hf
    refine wp_map.mpr (wp.mono (Q := fun _ _ => True) trivial ?_)
    rintro (e | a) s' -
    · exact reported_error _ _
    · rintro report hreport m n hmn
      obtain rfl := Except.ok.inj hreport
      rw [hf a] at hmn
      cases hmn
  cases op with
  | store | unsupersede | delete => exact hnothing fun _ => rfl
  | supersede oldHash newHash reason => exact wp_map.mpr (reported_memorySupersede hs hlinked)
  | merge canonicalHash duplicateHashes reason dryRun =>
    exact wp_map.mpr (reported_mergeDuplicates hs hlinked)
  | refute contentHash refutation now => exact wp_map.mpr (reported_memoryRefute hhash hs hlinked)

/-- **Every supersession leaves its edge.**  In a run of operations whose memories have nodes, a
memory that was reported superseded has the edge from its survivor, until one of the two is deleted
or the supersession is reversed. -/
theorem edge_kept {s₀ : Service} {tr tr' : List (Operation × Except AlayaError Report)}
    {op : Operation} {report : Report} {m n : String} (hs₀ : s₀.Keyed)
    (hrun : Run (LinkedStep lib) s₀ (tr ++ (op, .ok report) :: tr') s)
    (hmn : (m, n) ∈ report.pairs) (hkept : ∀ e ∈ tr', ¬e.1.Unlinks n m) :
    (n, m) ∈ s.graph.supersedes := by
  obtain ⟨s₁, s₂, hbefore, hstep, hafter⟩ := hrun.split_at
  have hkeyed : s₁.Keyed :=
    hbefore.preserves Service.Keyed hs₀ fun s e s' hs h => keyed_step hhash hs h.2
  have hedge : (n, m) ∈ s₂.graph.supersedes := reported_step hhash hkeyed hstep report rfl m n hmn
  clear hbefore hstep hrun
  induction hafter with
  | start => exact hedge
  | @step tr'' s₃ s₄ e hrun hlast ih =>
    refine edge_step hhash (ih fun e he => hkept e (List.mem_append_left _ he)) ?_ hlast.2
    exact hkept e (List.mem_append_right _ (List.mem_singleton_self e))

end

/-! ### A supersession without its edge -/

theorem keyed_twoMemories : twoMemories.Keyed := by
  intro id m hm
  obtain ⟨p, hp, hparse⟩ := Option.bind_eq_some_iff.mp hm
  rcases points_twoMemories hp with ⟨rfl, rfl⟩ | ⟨rfl, rfl⟩ <;>
  · obtain rfl := Option.some.inj hparse
    decide +kernel

/-- Two memories with a node each: the supersession leaves its edge. -/
theorem edge_kept_once : ∃ (report : Report) (s : Service), Run (LinkedStep plainComponents) twoMemories
    [(Operation.supersede eldestHash survivorHash "outdated", Except.ok report)] s ∧
    (survivorHash, eldestHash) ∈ s.graph.supersedes := by
  set op : Operation := .supersede eldestHash survivorHash "outdated" with hop
  have hreports : (((op.flow plainComponents).run.run Service.serve twoMemories).1.toOption.map
      Report.pairs) = some [(eldestHash, survivorHash)] := by
    decide +kernel
  obtain ⟨report, hreport, hpairs⟩ := Option.map_eq_some_iff.mp hreports
  have hlinked : ∀ m n, op.Supersedes plainComponents twoMemories m n → twoMemories.Linked m n := by
    rintro m n ⟨rfl, rfl, -⟩
    exact ⟨by decide +kernel, .inl (by decide +kernel)⟩
  have hvalid : validateContentHash survivorHash := by decide +kernel
  have hstep : LinkedStep plainComponents twoMemories (op, .ok report)
      ((op.flow plainComponents).run.run Service.serve twoMemories).2 :=
    ⟨hlinked, seqStep_of_toOption hreport⟩
  have hmem : (eldestHash, survivorHash) ∈ report.pairs := by
    rw [hpairs]
    exact List.mem_singleton_self _
  have hrun : Run (LinkedStep plainComponents) twoMemories ([] ++ (op, .ok report) :: [])
      ((op.flow plainComponents).run.run Service.serve twoMemories).2 := Run.single hstep
  have hnone : ∀ e ∈ ([] : List (Operation × Except AlayaError Report)),
      ¬e.1.Unlinks survivorHash eldestHash := fun _ h => absurd h List.not_mem_nil
  exact ⟨report, _, hrun, edge_kept (fun _ => hvalid) keyed_twoMemories hrun hmem hnone⟩

/-- The functions of a service that stores two texts. -/
def twoTexts : Components :=
  { plainComponents with
    generateContentHash := fun content => if content = "old" then eldestHash else survivorHash }

/-- Empty stores, with an embedding service. -/
def emptyStores : Service where
  points := fun _ => none
  vectors := fun _ => none
  graph := Graph.empty
  coAccess := []
  client := 0
  writes := 0
  answer := fun q _ _ =>
    match q with
    | .embed _ => .ok (some [1])
    | _ => .error (.embedding "not asked")

def textParams (content : String) : StoreParams where
  content := content
  tags := none
  memoryType := none
  metadata := none
  clientHostname := none
  summary := none
  dedupThreshold := none
  citations := none

/-- **A memory stored by a read-only caller gets no edge**: it has no node, so the supersession that
is reported writes none. -/
theorem edge_missing : ∃ tr op report s, emptyStores.Keyed ∧
    Run (SeqStep twoTexts) emptyStores (tr ++ [(op, .ok report)]) s ∧
    (eldestHash, survivorHash) ∈ report.pairs ∧
    (∃ m, getByHash s.points survivorHash = .ok (some m)) ∧
    (survivorHash, eldestHash) ∉ s.graph.supersedes := by
  set stores : List Operation := [.store (textParams "old") true true 1,
    .store (textParams "new") false false 2] with hstores
  set op : Operation := .supersede eldestHash survivorHash "outdated" with hop
  set s₁ := (runEach twoTexts emptyStores stores).2 with hs₁
  set r := (op.flow twoTexts).run.run Service.serve s₁ with hr
  have hrun : (r.1.toOption.map Report.pairs = some [(eldestHash, survivorHash)]) ∧
      ((getByHash r.2.points survivorHash).toOption.bind id).isSome ∧
      (survivorHash, eldestHash) ∉ r.2.graph.supersedes := by
    decide +kernel
  obtain ⟨hreports, hstored, hedge⟩ := hrun
  obtain ⟨report, hreport, hpairs⟩ := Option.map_eq_some_iff.mp hreports
  obtain ⟨m, hm⟩ := Option.isSome_iff_exists.mp hstored
  obtain ⟨found, hfound, hm⟩ := Option.bind_eq_some_iff.mp hm
  have hkeyed : emptyStores.Keyed := fun _ _ h => by cases h
  have hstep : SeqStep twoTexts s₁ (op, .ok report) r.2 := seqStep_of_toOption hreport
  exact ⟨_, op, report, r.2, hkeyed, (run_runEach twoTexts emptyStores stores).step hstep,
    hpairs ▸ List.mem_singleton_self _,
    ⟨m, (toOption_eq_some.mp hfound).trans (congrArg Except.ok hm)⟩, hedge⟩

end Alaya
