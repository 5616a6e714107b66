import Alaya.Backends.Vectors
import Alaya.Core.Merge
import Alaya.Lib.Keyset
import Mathlib.Data.Finset.Card

/-!
# The graph sweep

A sweep removes the nodes of memories that are gone, page by page in hash order.  A page is judged on a window of
fixed size before anything on it is written, and a call has an allowance of its own.  The nodes found without a point
are marked, the vector store is read again, and only nodes that still carry the mark are deleted.
-/

namespace Alaya

open Interleave Alaya.Flow Program

/-- Most nodes one sweep call reads. -/
def maxGraphSweepLimit : ℕ := 20000

/-- Nodes per page, and per window each page is judged on. -/
def graphSweepPage : ℕ := 500

/-- A window with more gone nodes than this holds the sweep; a call deletes at most this many. -/
def graphSweepHoldFloor : ℕ := 3

/-- Whether a window holds the pass: more gone nodes than the floor, or every valid node gone. -/
def windowHolds (missing valid : ℕ) : Bool :=
  graphSweepHoldFloor < missing || (0 < missing && missing = valid)

/-- Why a sweep held: its window, or the call's allowance. -/
inductive SweepHold where
  | window
  | callCap
  deriving DecidableEq

/-- How far a call is: its cursor and its counts. -/
structure Sweep where
  after : String
  scanned : ℕ
  swept : ℕ
  skipped : ℕ
  /-- The nodes found gone, counted before they are written. -/
  candidates : ℕ
  deriving DecidableEq

/-- The call after a page up to `last`. -/
def Sweep.pass (st : Sweep) (page : List String) (last : String) (swept missing : ℕ) : Sweep where
  after := last
  scanned := st.scanned + page.length
  swept := st.swept + swept
  skipped := st.skipped + (page.length - page.countP validateContentHash)
  candidates := st.candidates + missing

/-- What a sweep answers: `held_after` or `next_after` is the cursor of `state`, and a held page counts its window. -/
inductive SweepReport where
  | held (hold : SweepHold) (state : Sweep) (windowValid windowMissing : ℕ)
  | passed (state : Sweep) (finished : Bool)
  deriving DecidableEq

/-- How far the call was. -/
def SweepReport.state : SweepReport → Sweep
  | held _ st _ _ => st
  | passed st _ => st

namespace MemoryService

/-- How many of `page` are valid content hashes, and which of those have no point. -/
def missingPoints (page : List String) : Flow (ℕ × List String) := do
  let valid := page.filter validateContentHash
  let present ← Vectors.existingHashes valid
  return (valid.length, valid.filter (· ∉ present))

/-- Delete the nodes that a second read does not report and that still carry the mark; how many. -/
def sweepGone (missing : List String) (token : String) (present : List String) : Flow ℕ :=
  let gone := missing.filter (· ∉ present)
  if gone = [] then return 0 else graph (.sweepDeleteMarkedNodes gone token)

/-- Mark the nodes found without a point, and read again before the delete. -/
def sweepMissing (missing : List String) (token : String) : Flow ℕ := do
  if missing = [] then return 0
  graph (.sweepMarkMemoryNodes missing token)
  let present ← Vectors.existingHashes missing
  sweepGone missing token present

/-- A page whose window was read: how many of that are valid hashes, and which of those have no point. -/
def judgePage (token : String) (st : Sweep) (page : List String) (last : String) (window : ℕ × List String) :
    Flow (SweepReport ⊕ Sweep) := do
  if windowHolds window.2.length window.1 then return .inl (.held .window st window.1 window.2.length)
  -- Hash order: the page is the window's prefix up to `last`.
  let missing := window.2.filter (· ≤ last)
  if graphSweepHoldFloor < st.candidates + missing.length then
    return .inl (.held .callCap st window.1 window.2.length)
  let swept ← sweepMissing missing token
  return .inr (st.pass page last swept missing.length)

/-- The page of a window that was read, and the pages after it. -/
def sweepPage (limit : ℕ) (token : String) (next : Sweep → Flow SweepReport) (st : Sweep) (window : List String) :
    Flow SweepReport :=
  let want := min graphSweepPage (limit - st.scanned)
  let page := window.take want
  match page.getLast? with
  | none => return .passed st true
  | some last => do
    match ← missingPoints window >>= judgePage token st page last with
    | .inl held => return held
    | .inr st' => if page.length < want then return .passed st' true else next st'

/-- The pages of a sweep.  Each page scans a node, so `limit` of them are enough. -/
def sweepPages (limit : ℕ) (token : String) : ℕ → Sweep → Flow SweepReport
  | 0, st => return .passed st false
  | pages + 1, st =>
    if st.scanned < limit then do
      let window ← graph (.listMemoryNodes st.after graphSweepPage)
      sweepPage limit token (sweepPages limit token pages) st window
    else return .passed st false

/-- The checks of a sweep's request. -/
def sweepChecked (limit : ℕ) (token : String) : Except AlayaError Unit :=
  if ¬(1 ≤ limit ∧ limit ≤ maxGraphSweepLimit) then
    .error (.validation ("limit must be 1..=" ++ toString maxGraphSweepLimit))
  else if token = "" then .error (.validation "a sweep token is required")
  else .ok ()

/-- Remove the graph nodes after `after` whose memory is gone, up to `limit` of them. -/
def sweepGoneMemoryNodes (after : String) (limit : ℕ) (token : String) : Flow SweepReport := do
  let _ ← ofExcept (sweepChecked limit token)
  sweepPages limit token limit ⟨after, 0, 0, 0, 0⟩

end MemoryService

/-! ### A sweep alone -/

/-- There is no point for a valid hash. -/
def Service.stray (s : Service) (hash : String) : Bool :=
  validateContentHash hash && ((hashToUuid hash).toOption.bind s.points).isNone

section

variable {s s' : Service} {hash token : String}

theorem stray_iff : s.stray hash = true ↔ validateContentHash hash = true ∧ s.Gone hash := by
  unfold Service.stray
  rw [Bool.and_eq_true]
  refine and_congr_right fun hvalid => ?_
  obtain ⟨id, hid⟩ := exists_hashToUuid hvalid
  rw [hid]
  constructor
  · exact fun hnone => ⟨id, hid, Option.isNone_iff_eq_none.mp hnone⟩
  · rintro ⟨id', hid', hnone⟩
    obtain rfl := Except.ok.inj (hid.symm.trans hid')
    exact Option.isNone_iff_eq_none.mpr hnone

/-- What a read of valid hashes does not report. -/
theorem filter_existingHashes {hashes : List String} (hvalid : ∀ hash ∈ hashes, validateContentHash hash = true) :
    ∃ present, existingHashes s.points hashes = .ok present ∧ hashes.filter (· ∉ present) = hashes.filter s.stray := by
  obtain ⟨batch, hbatch⟩ := exists_getBatch s.points hvalid
  cases hids : hashes.mapM hashToUuid with
  | error e =>
    rw [getBatch, hids] at hbatch
    cases hbatch
  | ok ids =>
    refine ⟨_, by rw [existingHashes, hids]; rfl, List.filter_congr fun hash hhash => ?_⟩
    obtain ⟨id, hzip, hid⟩ := Rows.exists_mem_zip_of_mapM hids hhash
    have hstray : s.stray hash = (s.points id).isNone := by
      rw [Service.stray, hvalid hash hhash, hid]
      rfl
    rw [hstray, Bool.eq_iff_iff, decide_eq_true_eq, Option.isNone_iff_eq_none, ← Option.not_isSome_iff_eq_none,
      not_iff_not, List.mem_map]
    constructor
    · rintro ⟨⟨hash', id'⟩, hmem, rfl⟩
      obtain ⟨hpair, hpoint⟩ := List.mem_filter.mp hmem
      obtain rfl := Except.ok.inj (hid.symm.trans (List.forall₂_zip (Rows.forall₂_of_mapM hids) hpair))
      exact hpoint
    · exact fun hpoint => ⟨(hash, id), List.mem_filter.mpr ⟨hzip, hpoint⟩, rfl⟩

theorem run_missingPoints (window : List String) :
    (MemoryService.missingPoints window).run.run Service.serve s =
      (.ok ((window.filter validateContentHash).length, window.filter s.stray), s) := by
  have hvalid : ∀ hash ∈ window.filter validateContentHash, validateContentHash hash = true :=
    fun hash hhash => (List.mem_filter.mp hhash).2
  obtain ⟨present, hpresent, hmissing⟩ := filter_existingHashes (s := s) hvalid
  have hread : (Vectors.existingHashes (window.filter validateContentHash)).run.run Service.serve s =
      (.ok present, s) := by
    cases hhashes : window.filter validateContentHash with
    | nil =>
      rw [hhashes] at hpresent
      exact congrArg (·, s) hpresent
    | cons hash hashes =>
      rw [hhashes] at hpresent
      exact congrArg (·, s) hpresent
  have hstrays : (window.filter validateContentHash).filter s.stray = window.filter s.stray := by
    rw [List.filter_filter]
    refine List.filter_congr fun hash _ => ?_
    unfold Service.stray
    cases validateContentHash hash <;> simp
  show ((Vectors.existingHashes (window.filter validateContentHash)).run >>= ExceptT.bindCont _).run _ s = _
  rw [run_bind, hread, ← hstrays, ← hmissing]
  rfl

/-- The graphs are the same up to the marks of sweeps. -/
structure Graph.SameButMarks (g g' : Graph) : Prop where
  nodes : g.nodes = g'.nodes
  supersedes : g.supersedes = g'.supersedes
  contradicts : g.contradicts = g'.contradicts
  related : g.related = g'.related

/-- Every given node in the graph is marked. -/
theorem marked_sweepMark {g : Graph} {missing : List String} (hnodes : ∀ hash ∈ missing, hash ∈ g.nodes)
    (token : String) : (g.sweepMarkMemoryNodes missing token).marked missing token = missing.toFinset := by
  ext hash
  rw [Graph.marked, Finset.mem_filter, List.mem_toFinset]
  refine ⟨fun h => h.2.1, fun hhash => ⟨hnodes hash hhash, hhash, ?_⟩⟩
  exact if_pos ⟨hhash, hnodes hash hhash⟩

theorem run_sweepGone (token : String) {missing present gone : List String} (hgone : missing.filter (· ∉ present) = gone)
    (hne : gone ≠ []) : (MemoryService.sweepGone missing token present).run.run Service.serve s =
      (.ok (s.graph.marked gone token).card,
        { s with graph := s.graph.detachDelete (s.graph.marked gone token) }) := by
  subst hgone
  exact congrArg (fun p : Flow ℕ => p.run.run Service.serve s) (if_neg hne)

/-- Alone, every node that was found without a point is removed. -/
theorem run_sweepMissing (token : String) {missing : List String} (hnodes : ∀ hash ∈ missing, hash ∈ s.graph.nodes)
    (hstray : ∀ hash ∈ missing, s.stray hash = true) (hnodup : missing.Nodup) :
    ∃ g, (MemoryService.sweepMissing missing token).run.run Service.serve s =
        (.ok missing.length, { s with graph := g }) ∧
      g.SameButMarks (s.graph.detachDelete missing.toFinset) := by
  unfold MemoryService.sweepMissing
  by_cases hnone : missing = []
  · subst hnone
    exact ⟨s.graph, rfl, by constructor <;> simp [Graph.detachDelete]⟩
  · rw [if_neg hnone]
    have hvalid : ∀ hash ∈ missing, validateContentHash hash = true :=
      fun hash hhash => (stray_iff.mp (hstray hash hhash)).1
    obtain ⟨present, hpresent, hmissing⟩ := filter_existingHashes (s := s) hvalid
    rw [List.filter_eq_self.mpr hstray] at hmissing
    set marked : Service := { s with graph := s.graph.sweepMarkMemoryNodes missing token } with hmarked
    refine ⟨marked.graph.detachDelete missing.toFinset, ?_, rfl, rfl, rfl, rfl⟩
    have hrun := run_sweepGone (s := marked) token hmissing hnone
    rw [hmarked, marked_sweepMark hnodes, List.toFinset_card_of_nodup hnodup] at hrun
    obtain ⟨first, rest, rfl⟩ := List.exists_cons_of_ne_nil hnone
    show (ExceptT.bindCont (MemoryService.sweepGone (first :: rest) token)
      (existingHashes s.points (first :: rest)) : Program Reply (Except AlayaError ℕ)).run Service.serve marked = _
    rw [hpresent]
    exact hrun

/-! ### The nodes that were examined -/

/-- The nodes after `lo` up to `hi`. -/
def Graph.between (g : Graph) (lo hi : String) : Finset String := g.nodes.filter fun hash => lo < hash ∧ hash ≤ hi

/-- The nodes after `lo` up to `hi` whose memory is gone. -/
def Service.strays (s : Service) (lo hi : String) : Finset String := (s.graph.between lo hi).filter (s.stray ·)

/-- Between the cursors every node was counted once, and the strays removed, and nothing else was changed but marks. -/
structure Examined (s : Service) (st st' : Sweep) (s' : Service) : Prop where
  le : st.after ≤ st'.after
  scanned : st'.scanned = st.scanned + (s.graph.between st.after st'.after).card
  skipped : st'.skipped = st.skipped +
    ((s.graph.between st.after st'.after).filter fun hash => ¬validateContentHash hash).card
  swept : st'.swept = st.swept + (s.strays st.after st'.after).card
  graph : s'.graph.SameButMarks (s.graph.detachDelete (s.strays st.after st'.after))
  rest : s' = { s with graph := s'.graph }
  moved : st'.candidates = st.candidates ∨ (s.graph.between st.after st'.after).Nonempty

theorem mem_between {g : Graph} {lo hi : String} :
    hash ∈ g.between lo hi ↔ hash ∈ g.nodes ∧ lo < hash ∧ hash ≤ hi := Finset.mem_filter

theorem mem_strays {lo hi : String} :
    hash ∈ s.strays lo hi ↔ hash ∈ s.graph.between lo hi ∧ s.stray hash = true := Finset.mem_filter

/-- One delete after another. -/
theorem Graph.SameButMarks.detach {g g₁ g₂ : Graph} {gone gone' : Finset String}
    (h₁ : g₁.SameButMarks (g.detachDelete gone)) (h₂ : g₂.SameButMarks (g₁.detachDelete gone')) :
    g₂.SameButMarks (g.detachDelete (gone ∪ gone')) where
  nodes := by
    rw [h₂.nodes]
    show g₁.nodes \ gone' = g.nodes \ (gone ∪ gone')
    rw [h₁.nodes]
    exact sdiff_sdiff_left
  supersedes := by
    rw [h₂.supersedes]
    show g₁.supersedes.filter _ = _
    rw [h₁.supersedes]
    show (g.supersedes.filter _).filter _ = g.supersedes.filter _
    rw [Finset.filter_filter]
    refine Finset.filter_congr fun e _ => ?_
    simp only [Finset.mem_union, not_or]
    tauto
  contradicts := by
    rw [h₂.contradicts]
    funext a b
    show (if _ then g₁.contradicts a b else none) = if _ then g.contradicts a b else none
    rw [h₁.contradicts]
    show (if _ then (if _ then g.contradicts a b else none) else none) = _
    simp only [Finset.mem_union, not_or, ← ite_and]
    refine if_congr ?_ rfl rfl
    tauto
  related := by
    rw [h₂.related]
    show g₁.related.filter _ = _
    rw [h₁.related]
    show (g.related.filter _).filter _ = g.related.filter _
    rw [Finset.filter_filter]
    refine Finset.filter_congr fun e _ => ?_
    simp only [Finset.mem_union, not_or]
    tauto

/-- Two ranges, one after the other. -/
theorem between_union (g : Graph) {lo mid hi : String} (hlo : lo ≤ mid) (hhi : mid ≤ hi) :
    g.between lo hi = g.between lo mid ∪ g.between mid hi ∧ Disjoint (g.between lo mid) (g.between mid hi) := by
  refine ⟨Finset.ext fun hash => ?_, Finset.disjoint_left.mpr fun hash h h' => ?_⟩
  · rw [Finset.mem_union, mem_between, mem_between, mem_between]
    constructor
    · rintro ⟨hnode, hafter, hle⟩
      rcases le_or_gt hash mid with hmid | hmid
      · exact .inl ⟨hnode, hafter, hmid⟩
      · exact .inr ⟨hnode, hmid, hle⟩
    · rintro (⟨hnode, hafter, hle⟩ | ⟨hnode, hafter, hle⟩)
      · exact ⟨hnode, hafter, hle.trans hhi⟩
      · exact ⟨hnode, hlo.trans_lt hafter, hle⟩
  · exact absurd (mem_between.mp h).2.2 (not_le.mpr (mem_between.mp h').2.1)

theorem Examined.refl (s : Service) (st : Sweep) : Examined s st st s := by
  have hnone : s.graph.between st.after st.after = ∅ :=
    Finset.filter_eq_empty_iff.mpr fun hash _ h => absurd h.1 (not_lt.mpr h.2)
  refine ⟨le_rfl, ?_, ?_, ?_, ?_, rfl, .inl rfl⟩
  · rw [hnone, Finset.card_empty, Nat.add_zero]
  · rw [hnone, Finset.filter_empty, Finset.card_empty, Nat.add_zero]
  · rw [Service.strays, hnone, Finset.filter_empty, Finset.card_empty, Nat.add_zero]
  · rw [Service.strays, hnone, Finset.filter_empty]
    constructor <;> simp [Graph.detachDelete]

/-- What was examined before does not change what is there after it. -/
theorem Examined.between {st st' : Sweep} (h : Examined s st st' s') (hi : String) :
    s'.graph.between st'.after hi = s.graph.between st'.after hi := by
  ext hash
  rw [mem_between, mem_between, h.graph.nodes]
  refine and_congr_left fun hafter => ⟨fun hnode => (Finset.mem_sdiff.mp hnode).1, fun hnode => ?_⟩
  refine Finset.mem_sdiff.mpr ⟨hnode, fun hstray => ?_⟩
  exact absurd (mem_between.mp (mem_strays.mp hstray).1).2.2 (not_le.mpr hafter.1)

theorem Examined.stray {st st' : Sweep} (h : Examined s st st' s') : s'.stray = s.stray := by
  have hpoints : s'.points = s.points := by rw [h.rest]
  funext hash
  rw [Service.stray, hpoints, ← Service.stray]

/-- One part after another. -/
theorem Examined.trans {st e st' : Sweep} {s₁ : Service} (h₁ : Examined s st e s₁) (h₂ : Examined s₁ e st' s') :
    Examined s st st' s' := by
  obtain ⟨hunion, hdisjoint⟩ := between_union s.graph h₁.le h₂.le
  have hbetween := h₁.between st'.after
  have hstrays : s₁.strays e.after st'.after = s.strays e.after st'.after := by
    rw [Service.strays, hbetween, h₁.stray, ← Service.strays]
  have hstraysUnion : s.strays st.after st'.after = s.strays st.after e.after ∪ s.strays e.after st'.after := by
    rw [Service.strays, hunion, Finset.filter_union]
    rfl
  have hstraysDisjoint : Disjoint (s.strays st.after e.after) (s.strays e.after st'.after) :=
    Finset.disjoint_filter_filter hdisjoint
  refine ⟨h₁.le.trans h₂.le, ?_, ?_, ?_, ?_, ?_, ?_⟩
  · rw [h₂.scanned, h₁.scanned, hbetween, hunion, Finset.card_union_of_disjoint hdisjoint, Nat.add_assoc]
  · rw [h₂.skipped, h₁.skipped, hbetween, hunion, Finset.filter_union,
      Finset.card_union_of_disjoint (Finset.disjoint_filter_filter hdisjoint), Nat.add_assoc]
  · rw [h₂.swept, h₁.swept, hstrays, hstraysUnion,
      Finset.card_union_of_disjoint hstraysDisjoint, Nat.add_assoc]
  · rw [hstraysUnion]
    exact h₁.graph.detach (hstrays ▸ h₂.graph)
  · rw [h₂.rest, h₁.rest]
  · rw [hunion, ← hbetween]
    rcases h₂.moved with hsame | hsome
    · exact h₁.moved.imp hsame.trans fun hsome => hsome.inl
    · exact .inr hsome.inr

/-! ### The pages of a sweep alone -/

/-- The window a page is judged on. -/
def Service.sweepWindow (s : Service) (after : String) : List String := s.graph.listMemoryNodes after graphSweepPage

theorem mem_sweepWindow {after : String} (h : hash ∈ s.sweepWindow after) : hash ∈ s.graph.nodes ∧ after < hash :=
  Finset.mem_filter.mp ((Finset.mem_sort _).mp (List.mem_of_mem_take h))

theorem nodup_sweepWindow (s : Service) (after : String) : (s.sweepWindow after).Nodup :=
  (Finset.sort_nodup _ _).sublist (List.take_sublist _ _)

/-- A page is the nodes after its cursor up to its last one. -/
theorem mem_sweepPage {after last : String} {want : ℕ} (hlast : ((s.sweepWindow after).take want).getLast? = some last) :
    hash ∈ (s.sweepWindow after).take want ↔ hash ∈ s.graph.between after last := by
  have hsorted : (Finset.sort (s.graph.nodes.filter fun hash => after < hash) (· ≤ ·)).Pairwise (· < ·) :=
    (Finset.sortedLT_sort _).pairwise
  unfold Service.sweepWindow Graph.listMemoryNodes at hlast ⊢
  rw [List.take_take] at hlast ⊢
  rw [Paging.mem_take_iff_le hsorted hlast, Finset.mem_sort, Finset.mem_filter, mem_between, and_assoc]

/-- Without a page there is no node after the cursor. -/
theorem between_of_no_page {after : String} {want : ℕ} (hwant : 0 < want)
    (hnone : ((s.sweepWindow after).take want).getLast? = none) : ∀ hash ∈ s.graph.nodes, ¬after < hash := by
  intro hash hnode hafter
  rw [List.getLast?_eq_none_iff, Service.sweepWindow, Graph.listMemoryNodes, List.take_take,
    List.take_eq_nil_iff] at hnone
  rcases hnone with hzero | hnil
  · have hpage : 0 < graphSweepPage := by decide
    omega
  · have hmem : hash ∈ Finset.sort (s.graph.nodes.filter fun hash => after < hash) (· ≤ ·) :=
      (Finset.mem_sort _).mpr (Finset.mem_filter.mpr ⟨hnode, hafter⟩)
    rw [hnil] at hmem
    cases hmem

/-- A short page is the last one. -/
theorem between_of_short_page {after last : String} {want : ℕ} (hwant : want ≤ graphSweepPage)
    (hlast : ((s.sweepWindow after).take want).getLast? = some last)
    (hshort : ((s.sweepWindow after).take want).length < want) : ∀ hash ∈ s.graph.nodes, ¬last < hash := by
  intro hash hnode hafter
  have hstart : after < last := (mem_between.mp ((mem_sweepPage hlast).mp (List.mem_of_getLast? hlast))).2.1
  have hpage : hash ∈ (s.sweepWindow after).take want := by
    unfold Service.sweepWindow Graph.listMemoryNodes at hshort ⊢
    rw [List.length_take, List.length_take] at hshort
    rw [List.take_of_length_le (by rw [List.length_take]; omega), List.take_of_length_le (by omega)]
    exact (Finset.mem_sort _).mpr (Finset.mem_filter.mpr ⟨hnode, hstart.trans hafter⟩)
  exact absurd (mem_between.mp ((mem_sweepPage hlast).mp hpage)).2.2 (not_le.mpr hafter)

/-- A hold is at its page's start: its window has too many strays, or its call had removed some before. -/
def Service.HeldAt (s : Service) (st : Sweep) : SweepReport → Prop
  | .held hold st' valid missing => st' = st ∧ valid = ((s.sweepWindow st.after).filter validateContentHash).length ∧
      missing = ((s.sweepWindow st.after).filter s.stray).length ∧
      (hold = .window → windowHolds missing valid = true) ∧ (hold = .callCap → 0 < st.candidates)
  | .passed .. => False

theorem card_malformed {page : List String} (hnodup : page.Nodup) :
    (page.toFinset.filter fun hash => ¬validateContentHash hash).card =
      page.length - page.countP validateContentHash := by
  have hset : (page.toFinset.filter fun hash => ¬validateContentHash hash) =
      (page.filter fun hash => !validateContentHash hash).toFinset := by
    ext hash
    simp
  have hcount := List.length_eq_countP_add_countP validateContentHash (l := page)
  rw [hset, List.toFinset_card_of_nodup (hnodup.filter _), ← List.countP_eq_length_filter]
  simp only [Bool.not_eq_true, Bool.decide_eq_false] at hcount
  omega

/-- **A page alone** is held, or its nodes are examined. -/
theorem run_page (token : String) {st : Sweep} {last : String} {want : ℕ}
    (hlast : ((s.sweepWindow st.after).take want).getLast? = some last) :
    ∃ y s', (MemoryService.missingPoints (s.sweepWindow st.after) >>=
        MemoryService.judgePage token st ((s.sweepWindow st.after).take want) last).run.run Service.serve s =
          (.ok y, s') ∧
      (∀ report, y = .inl report → s' = s ∧ s.HeldAt st report) ∧
      ∀ st', y = .inr st' → st'.after = last ∧ Examined s st st' s' := by
  set window := s.sweepWindow st.after with hwindow
  have hjudge : (MemoryService.missingPoints window >>=
      MemoryService.judgePage token st (window.take want) last).run.run Service.serve s =
        (MemoryService.judgePage token st (window.take want) last
          ((window.filter validateContentHash).length, window.filter s.stray)).run.run Service.serve s := by
    show ((MemoryService.missingPoints window).run >>= ExceptT.bindCont _).run _ s = _
    rw [run_bind, run_missingPoints]
    rfl
  rw [hjudge]
  unfold MemoryService.judgePage
  dsimp only
  by_cases hholds : windowHolds (window.filter s.stray).length (window.filter validateContentHash).length = true
  · rw [if_pos hholds]
    refine ⟨_, s, rfl, fun report hreport => ⟨rfl, ?_⟩, fun st' hst' => by cases hst'⟩
    obtain rfl := Sum.inl.inj hreport
    exact ⟨rfl, rfl, rfl, fun _ => hholds, fun hcap => by cases hcap⟩
  · rw [if_neg hholds]
    by_cases hcap : graphSweepHoldFloor < st.candidates + ((window.filter s.stray).filter (· ≤ last)).length
    · rw [if_pos hcap]
      refine ⟨_, s, rfl, fun report hreport => ⟨rfl, ?_⟩, fun st' hst' => by cases hst'⟩
      obtain rfl := Sum.inl.inj hreport
      refine ⟨rfl, rfl, rfl, fun hwindow => (by cases hwindow), fun _ => ?_⟩
      have hfew : (window.filter s.stray).length ≤ graphSweepHoldFloor := by
        by_contra hmany
        exact hholds (by simp [windowHolds, not_le.mp hmany])
      have hle := List.length_filter_le (· ≤ last) (window.filter s.stray)
      omega
    · rw [if_neg hcap]
      have hmem : ∀ hash, hash ∈ (window.filter s.stray).filter (· ≤ last) ↔ hash ∈ s.strays st.after last := by
        intro hash
        rw [List.mem_filter, List.mem_filter, mem_strays, decide_eq_true_eq]
        constructor
        · rintro ⟨⟨hwindow, hstray⟩, hle⟩
          obtain ⟨hnode, hafter⟩ := mem_sweepWindow hwindow
          exact ⟨mem_between.mpr ⟨hnode, hafter, hle⟩, hstray⟩
        · rintro ⟨hbetween, hstray⟩
          exact ⟨⟨List.mem_of_mem_take ((mem_sweepPage hlast).mpr hbetween), hstray⟩, (mem_between.mp hbetween).2.2⟩
      have hnodup := ((nodup_sweepWindow s st.after).filter s.stray).filter (· ≤ last)
      have hset : ((window.filter s.stray).filter (· ≤ last)).toFinset = s.strays st.after last :=
        Finset.ext fun hash => by rw [List.mem_toFinset, hmem]
      obtain ⟨g, hrun, hgraph⟩ := run_sweepMissing token
        (fun hash hhash => (mem_between.mp (mem_strays.mp ((hmem hash).mp hhash)).1).1)
        (fun hash hhash => (mem_strays.mp ((hmem hash).mp hhash)).2) hnodup
      rw [← List.toFinset_card_of_nodup hnodup, hset] at hrun
      rw [hset] at hgraph
      refine ⟨.inr (st.pass (window.take want) last (s.strays st.after last).card
        ((window.filter s.stray).filter (· ≤ last)).length), { s with graph := g }, ?_, fun report hreport => (by cases hreport), fun st' hst' => ?_⟩
      · show ((MemoryService.sweepMissing _ token).run >>= ExceptT.bindCont _).run _ s = _
        rw [run_bind, hrun]
        rfl
      · obtain rfl := Sum.inr.inj hst'
        have hpage : (window.take want).toFinset = s.graph.between st.after last :=
          Finset.ext fun hash => by rw [List.mem_toFinset, mem_sweepPage hlast]
        have hpageNodup : (window.take want).Nodup := (nodup_sweepWindow s st.after).sublist (List.take_sublist _ _)
        have hbefore := mem_between.mp ((mem_sweepPage hlast).mp (List.mem_of_getLast? hlast))
        refine ⟨rfl, hbefore.2.1.le, ?_, ?_, rfl, hgraph, rfl,
          .inr ⟨last, (mem_sweepPage hlast).mp (List.mem_of_getLast? hlast)⟩⟩
        · show _ = st.scanned + (s.graph.between st.after last).card
          rw [← hpage, List.toFinset_card_of_nodup hpageNodup]
          rfl
        · show _ = st.skipped + ((s.graph.between st.after last).filter fun hash => ¬validateContentHash hash).card
          rw [← hpage, card_malformed hpageNodup]
          rfl

/-- How a call ends: with no node left, with its limit read, or held. -/
def Service.EndsAt (s : Service) (limit : ℕ) : SweepReport → Prop
  | .passed e true => ∀ hash ∈ s.graph.nodes, ¬e.after < hash
  | .passed e false => limit ≤ e.scanned
  | .held hold e valid missing => s.HeldAt e (.held hold e valid missing)

/-- **The pages of a sweep alone**, by induction on how many are left. -/
theorem run_sweepPages {limit pages : ℕ} {st : Sweep} (hpages : limit - st.scanned ≤ pages) :
    ∃ report s', (MemoryService.sweepPages limit token pages st).run.run Service.serve s = (.ok report, s') ∧
      Examined s st report.state s' ∧ s'.EndsAt limit report := by
  induction pages generalizing st s with
  | zero => exact ⟨.passed st false, s, rfl, .refl s st, by show limit ≤ st.scanned; omega⟩
  | succ pages ih =>
    unfold MemoryService.sweepPages
    by_cases hmore : st.scanned < limit
    · rw [if_pos hmore]
      show ∃ report s', (MemoryService.sweepPage limit token (MemoryService.sweepPages limit token pages) st
        (s.sweepWindow st.after)).run.run Service.serve s = (.ok report, s') ∧ _
      unfold MemoryService.sweepPage
      dsimp only
      set want := min graphSweepPage (limit - st.scanned) with hwant
      have hpos : 0 < want := by
        have hpage : 0 < graphSweepPage := by decide
        omega
      cases hlast : ((s.sweepWindow st.after).take want).getLast? with
      | none => exact ⟨.passed st true, s, rfl, .refl s st, between_of_no_page hpos hlast⟩
      | some last =>
        obtain ⟨y, s₁, hrun, hheld, hpassed⟩ := run_page token hlast
        have hgo : ∀ next : SweepReport ⊕ Sweep → Flow SweepReport, (MemoryService.missingPoints (s.sweepWindow st.after) >>=
            MemoryService.judgePage token st ((s.sweepWindow st.after).take want) last >>= next).run.run Service.serve s =
              (next y).run.run Service.serve s₁ := by
          intro next
          show ((MemoryService.missingPoints (s.sweepWindow st.after) >>= MemoryService.judgePage token st
            ((s.sweepWindow st.after).take want) last).run >>= ExceptT.bindCont next).run _ s = _
          rw [run_bind, hrun]
          rfl
        dsimp only
        rw [hgo]
        cases y with
        | inl report =>
          obtain ⟨rfl, hheldAt⟩ := hheld report rfl
          cases report with
          | passed e finished => exact hheldAt.elim
          | held hold e valid missing =>
            obtain ⟨rfl, hrest⟩ := hheldAt
            exact ⟨.held hold e valid missing, s₁, rfl, .refl s₁ e, rfl, hrest⟩
        | inr st' =>
          obtain ⟨hafter, hexamined⟩ := hpassed st' rfl
          dsimp only
          by_cases hshort : ((s.sweepWindow st.after).take want).length < want
          · rw [if_pos hshort]
            refine ⟨.passed st' true, s₁, rfl, hexamined, fun hash hnode => ?_⟩
            show ¬st'.after < hash
            rw [hafter]
            rw [hexamined.graph.nodes] at hnode
            exact between_of_short_page (Nat.min_le_left _ _) hlast hshort hash (Finset.mem_sdiff.mp hnode).1
          · rw [if_neg hshort]
            have hlastMem := (mem_sweepPage hlast).mp (List.mem_of_getLast? hlast)
            have hcard : 0 < (s.graph.between st.after st'.after).card :=
              Finset.card_pos.mpr ⟨last, hafter ▸ hlastMem⟩
            have hscanned := hexamined.scanned
            have hfewer : limit - st'.scanned ≤ pages := by omega
            obtain ⟨report, s', hrest, hexamined', hends⟩ := ih (s := s₁) hfewer
            exact ⟨report, s', hrest, hexamined.trans hexamined', hends⟩
    · rw [if_neg hmore]
      exact ⟨.passed st false, s, rfl, .refl s st, not_lt.mp hmore⟩

/-! ### Calls one after another -/

/-- A call after which a pass stops: no node is left, or a window holds it. -/
def SweepReport.Final : SweepReport → Prop
  | .passed _ finished => finished = true
  | .held hold _ _ _ => hold = .window

/-- The counts of two calls. -/
def Sweep.add (st e : Sweep) : Sweep :=
  ⟨e.after, st.scanned + e.scanned, st.swept + e.swept, st.skipped + e.skipped, st.candidates + e.candidates⟩

/-- A pass: calls one after another, each from the cursor that the call before it answered. -/
inductive Pass (limit : ℕ) (token : String) : Service → String → Sweep → SweepReport → Service → Prop
  | last {s s' : Service} {after : String} {report : SweepReport} :
      (MemoryService.sweepGoneMemoryNodes after limit token).run.run Service.serve s = (.ok report, s') →
      report.Final → Pass limit token s after report.state report s'
  | next {s s₁ s' : Service} {after : String} {first report : SweepReport} {total : Sweep} :
      (MemoryService.sweepGoneMemoryNodes after limit token).run.run Service.serve s = (.ok first, s₁) →
      ¬first.Final → Pass limit token s₁ first.state.after total report s' →
      Pass limit token s after (first.state.add total) report s'

theorem sweep_alone {limit : ℕ} (hlimit : 1 ≤ limit ∧ limit ≤ maxGraphSweepLimit) (htoken : token ≠ "")
    (s : Service) (after : String) : ∃ report s',
      (MemoryService.sweepGoneMemoryNodes after limit token).run.run Service.serve s = (.ok report, s') ∧
        Examined s ⟨after, 0, 0, 0, 0⟩ report.state s' ∧ s'.EndsAt limit report := by
  have hchecked : MemoryService.sweepChecked limit token = .ok () := by
    rw [MemoryService.sweepChecked, if_neg (not_not_intro hlimit), if_neg htoken]
  unfold MemoryService.sweepGoneMemoryNodes
  rw [hchecked]
  exact run_sweepPages (Nat.sub_le _ _)

/-- A call that does not end the pass has examined a node. -/
theorem nonempty_of_not_final {limit : ℕ} {after : String} {report : SweepReport} (hlimit : 1 ≤ limit)
    (h : Examined s ⟨after, 0, 0, 0, 0⟩ report.state s') (hends : s'.EndsAt limit report) (hmore : ¬report.Final) :
    (s.graph.between after report.state.after).Nonempty := by
  cases report with
  | passed e finished =>
    cases finished with
    | true => exact (hmore rfl).elim
    | false =>
      have hscanned : e.scanned = 0 + (s.graph.between after e.after).card := h.scanned
      have hlimit' : limit ≤ e.scanned := hends
      exact Finset.card_pos.mp (show 0 < (s.graph.between after e.after).card by omega)
  | held hold e valid missing =>
    obtain ⟨-, -, -, -, hcap⟩ := hends
    refine h.moved.resolve_left fun hsame => ?_
    have hnone : e.candidates = 0 := hsame
    cases hold with
    | window => exact hmore rfl
    | callCap => exact absurd (hcap rfl) (by omega)

/-- The counts of a call, on top of others. -/
theorem Examined.shift {st e : Sweep} (h : Examined s ⟨st.after, 0, 0, 0, 0⟩ e s') : Examined s st (st.add e) s' where
  le := h.le
  scanned := by
    have hscanned := h.scanned
    rw [Nat.zero_add] at hscanned
    exact congrArg (st.scanned + ·) hscanned
  skipped := by
    have hskipped := h.skipped
    rw [Nat.zero_add] at hskipped
    exact congrArg (st.skipped + ·) hskipped
  swept := by
    have hswept := h.swept
    rw [Nat.zero_add] at hswept
    exact congrArg (st.swept + ·) hswept
  graph := h.graph
  rest := h.rest
  moved := h.moved.imp_left fun hsame => by
    have hzero : e.candidates = 0 := hsame
    show st.candidates + e.candidates = st.candidates
    omega

/-- **A pass ends.** -/
theorem exists_pass {limit : ℕ} (hlimit : 1 ≤ limit ∧ limit ≤ maxGraphSweepLimit) (htoken : token ≠ "")
    (s : Service) (after : String) : ∃ total report s', Pass limit token s after total report s' := by
  -- A call that does not end it has a node behind its cursor that was before it.
  induction hn : (s.graph.nodes.filter fun hash => after < hash).card using Nat.strongRecOn generalizing s after with
  | ind n ih =>
    obtain ⟨report, s₁, hrun, hexamined, hends⟩ := sweep_alone hlimit htoken s after
    by_cases hfinal : report.Final
    · exact ⟨_, _, _, .last hrun hfinal⟩
    · obtain ⟨hash, hhash⟩ := nonempty_of_not_final hlimit.1 hexamined hends hfinal
      obtain ⟨hnode, hafter, hle⟩ := mem_between.mp hhash
      have hfewer : (s₁.graph.nodes.filter fun hash => report.state.after < hash).card < n := by
        subst hn
        refine Finset.card_lt_card ⟨fun hash' hhash' => ?_, fun hsub => ?_⟩
        · obtain ⟨hnode', hafter'⟩ := Finset.mem_filter.mp hhash'
          rw [hexamined.graph.nodes] at hnode'
          exact Finset.mem_filter.mpr ⟨(Finset.mem_sdiff.mp hnode').1, (hafter.trans_le hle).trans hafter'⟩
        · have hlate := (Finset.mem_filter.mp (hsub (Finset.mem_filter.mpr ⟨hnode, hafter⟩))).2
          exact absurd hle (not_le.mpr hlate)
      obtain ⟨total, last, s', hpass⟩ := ih _ hfewer s₁ report.state.after rfl
      exact ⟨_, _, _, .next hrun hfinal hpass⟩

theorem pass_examined {limit : ℕ} (hlimit : 1 ≤ limit ∧ limit ≤ maxGraphSweepLimit) (htoken : token ≠ "")
    {after : String} {total : Sweep} {report : SweepReport} (h : Pass limit token s after total report s') :
    Examined s ⟨after, 0, 0, 0, 0⟩ total s' ∧ total.after = report.state.after ∧ s'.EndsAt limit report ∧
      report.Final := by
  induction h with
  | @last s s' after report hrun hfinal =>
    obtain ⟨report', s₁, hrun', hexamined, hends⟩ := sweep_alone hlimit htoken s after
    obtain ⟨hreport, rfl⟩ := Prod.mk.inj (hrun.symm.trans hrun')
    obtain rfl := Except.ok.inj hreport
    exact ⟨hexamined, rfl, hends, hfinal⟩
  | @next s s₁ s' after first report total hrun _ _ ih =>
    obtain ⟨report', s₂, hrun', hexamined, -⟩ := sweep_alone hlimit htoken s after
    obtain ⟨hreport, rfl⟩ := Prod.mk.inj (hrun.symm.trans hrun')
    obtain rfl := Except.ok.inj hreport
    exact ⟨hexamined.trans ih.1.shift, ih.2⟩

/-- **A pass alone visits every node once.**  Calls that follow the cursor they are answered come to an end, with no
node left or held by a window.  Up to the last cursor every node was counted once, the malformed ones as skipped; the
nodes whose memory has no point were removed with their edges, and counted; and nothing else was changed but the marks
of sweeps.  Without a hold, these are all the nodes after the first cursor. -/
theorem sweep_pass {limit : ℕ} (hlimit : 1 ≤ limit ∧ limit ≤ maxGraphSweepLimit) (htoken : token ≠ "")
    (s : Service) (after : String) : (∃ total report s', Pass limit token s after total report s') ∧
      ∀ total report s', Pass limit token s after total report s' →
        Examined s ⟨after, 0, 0, 0, 0⟩ total s' ∧
          ((∃ e, report = .passed e true ∧ ∀ hash ∈ s.graph.nodes, after < hash → hash ≤ total.after) ∨
            ∃ e valid missing, report = .held .window e valid missing ∧ e.after = total.after ∧
              s'.HeldAt e report) := by
  refine ⟨exists_pass hlimit htoken s after, fun total report s' hpass => ?_⟩
  obtain ⟨hexamined, hlast, hends, hfinal⟩ := pass_examined hlimit htoken hpass
  refine ⟨hexamined, ?_⟩
  cases report with
  | passed e finished =>
    obtain rfl : finished = true := hfinal
    refine .inl ⟨e, rfl, fun hash hnode hafter => ?_⟩
    by_contra hlate
    have hleft : hash ∈ s'.graph.nodes := by
      rw [hexamined.graph.nodes]
      refine Finset.mem_sdiff.mpr ⟨hnode, fun hstray => hlate ?_⟩
      exact (mem_between.mp (mem_strays.mp hstray).1).2.2
    exact hends hash hleft (hlast ▸ not_le.mp hlate)
  | held hold e valid missing =>
    obtain rfl : hold = .window := hfinal
    exact .inr ⟨e, valid, missing, rfl, hlast.symm, hends⟩

end

/-! ### A stray node -/

/-- Two memories, and a node whose memory is gone. -/
def strayed : Service := { twoMemories with graph := twoMemories.graph.ensureNode thirdHash }

theorem sweepWindow_strayed : strayed.sweepWindow "" = [eldestHash, survivorHash, thirdHash] := by
  have hnodes : (strayed.graph.nodes.filter fun hash => "" < hash) =
      [eldestHash, survivorHash, thirdHash].toFinset := by decide +kernel
  have hsorted : [eldestHash, survivorHash, thirdHash].Pairwise (· ≤ ·) := by decide +kernel
  have hnodup : [eldestHash, survivorHash, thirdHash].Nodup := by decide +kernel
  rw [Service.sweepWindow, Graph.listMemoryNodes, hnodes, (List.toFinset_sort (· ≤ ·) hnodup).mpr hsorted]
  rfl

/-- One call removes the stray node. -/
theorem run_strayed : ∃ s', (MemoryService.sweepGoneMemoryNodes "" 3 "run").run.run Service.serve strayed =
    (.ok (.passed ⟨thirdHash, 3, 1, 0, 1⟩ false), s') ∧ s'.graph.nodes = {eldestHash, survivorHash} := by
  have hrun : (MemoryService.sweepGoneMemoryNodes "" 3 "run").run.run Service.serve strayed =
      (MemoryService.sweepPage 3 "run" (MemoryService.sweepPages 3 "run" 2) ⟨"", 0, 0, 0, 0⟩
        (strayed.sweepWindow "")).run.run Service.serve strayed := rfl
  rw [sweepWindow_strayed] at hrun
  refine ⟨_, Prod.ext (congrArg Prod.fst hrun |>.trans ?_) rfl, ?_⟩
  · decide +kernel
  · rw [hrun]
    decide +kernel

/-- The pass goes on behind the stray node, where it finds no other. -/
theorem sweep_pass_strayed : ∃ total report s', Pass 3 "run" strayed "" total report s' ∧
    (∃ e, report = .passed e true) ∧ total.scanned = 3 ∧ total.swept = 1 ∧ total.skipped = 0 ∧
    s'.graph.nodes = {eldestHash, survivorHash} := by
  obtain ⟨s₁, hfirst, hnodes⟩ := run_strayed
  have hlate : ∀ hash ∈ s₁.graph.nodes, ¬thirdHash < hash := by
    rw [hnodes]
    decide +kernel
  obtain ⟨⟨rest, report, s', hrest⟩, hall⟩ :=
    sweep_pass (show 1 ≤ 3 ∧ 3 ≤ maxGraphSweepLimit by decide) (show "run" ≠ "" by decide) s₁ thirdHash
  obtain ⟨hexamined, hends⟩ := hall _ _ _ hrest
  have hnone : s₁.graph.between thirdHash rest.after = ∅ :=
    Finset.filter_eq_empty_iff.mpr fun hash hnode hbetween => hlate hash hnode hbetween.1
  have hstrays : s₁.strays thirdHash rest.after = ∅ := by
    unfold Service.strays
    rw [hnone]
    rfl
  have hkept : s'.graph.nodes = {eldestHash, survivorHash} := by
    rw [hexamined.graph.nodes, hstrays, ← hnodes]
    exact Finset.sdiff_empty
  have hscanned := hexamined.scanned
  have hskipped := hexamined.skipped
  have hswept := hexamined.swept
  simp only [hnone, hstrays, Finset.card_empty, Finset.filter_empty, Nat.add_zero] at hscanned hskipped hswept
  refine ⟨_, report, s', .next hfirst nofun hrest, ?_, ?_, ?_, ?_, hkept⟩
  · rcases hends with ⟨e, hpassed, -⟩ | ⟨e, valid, missing, rfl, hafter, -, hvalid, hmissing, hheld, -⟩
    · exact ⟨e, hpassed⟩
    · have hwindow : s'.sweepWindow e.after = [] := by
        refine List.eq_nil_iff_forall_not_mem.mpr fun hash hmem => ?_
        obtain ⟨hnode, hbehind⟩ := mem_sweepWindow hmem
        rw [hkept, ← hnodes] at hnode
        rw [hafter] at hbehind
        exact hlate hash hnode (lt_of_le_of_lt hexamined.le hbehind)
      have hholds := hheld rfl
      rw [hvalid, hmissing, hwindow] at hholds
      exact absurd hholds Bool.false_ne_true
  · show 3 + rest.scanned = 3
    rw [hscanned]
  · show 1 + rest.swept = 1
    rw [hswept]
  · show 0 + rest.skipped = 0
    rw [hskipped]

end Alaya
