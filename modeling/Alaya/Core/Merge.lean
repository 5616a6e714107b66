import Alaya.Core.EdgeKept
import Alaya.Core.Refutation
import Alaya.Lib.Rows

/-!
# A merge among other writes

One merge runs while anything else happens to both stores, and its own calls may fail before or after they
took effect.  `mergeCalls` is the merge with what its calls came to in place of its report, which is then a
function of it.  Each entry of the report is traced to the moments of the run: a write that landed, a point
that went, the last read of the hash.
-/

namespace Alaya

open Json Interleave Alaya.Flow Program

/-! ### What the calls of a merge came to -/

/-- How the marking of a batch ended. -/
inductive MarkCalls where
  | written
  /-- The batch write failed, and so did the read of what it left. -/
  | unread (error read : AlayaError)
  /-- The batch write failed; the memories read again. -/
  | reread (error : AlayaError) (memories : List Memory)

/-- The memories among some that carry the marker of `newHash`. -/
def markedBy (newHash : String) (memories : List Memory) : List String :=
  (memories.filter fun m => m.supersessionMarker.bind Value.asStr = some newHash).map Memory.contentHash

namespace MarkCalls

/-- What `markSuperseded` makes of it. -/
def outcome (oldHashes : List String) (newHash : String) : MarkCalls → Except SupersedeFailure Unit
  | written => .ok ()
  | unread error _ => .error ⟨[], oldHashes, error⟩
  | reread error memories => .error ⟨markedBy newHash memories, [], error⟩

/-- The memories whose edges are sent to the bridge. -/
def attempted (oldHashes : List String) (newHash : String) : MarkCalls → List String
  | written => oldHashes
  | unread .. => []
  | reread _ memories => markedBy newHash memories

end MarkCalls

/-- What the existence read of a merge found, and how its marking ended when there was one. -/
structure MergeCalls where
  found : List Memory
  marked : Option MarkCalls

namespace MemoryService

/-- `markSuperseded`, with what its calls came to. -/
def markCalls (oldHashes : List String) (newHash reason : String) : Flow MarkCalls := do
  match ← attempt (Vectors.updateMetadataBatch oldHashes newHash reason) with
  | .ok () =>
    writeSupersedesEdges oldHashes newHash
    return .written
  | .error error =>
    match ← attempt (Vectors.getBatch oldHashes) with
    | .error read => return .unread error read
    | .ok memories =>
      writeSupersedesEdges (markedBy newHash memories) newHash
      return .reread error memories

/-- The duplicates the existence read of a merge found. -/
def mergeFoundHashes (canonicalHash : String) (duplicateHashes : List String) (found : List Memory) :
    List String :=
  (mergeCandidates canonicalHash duplicateHashes).filter (· ∈ found.map Memory.contentHash)

/-- What a merge writes once its existence read was answered. -/
def mergeWrites (canonicalHash : String) (duplicateHashes : List String) (reason : String)
    (found : List Memory) : Flow MergeCalls :=
  if mergeFoundHashes canonicalHash duplicateHashes found = [] then return ⟨found, none⟩
  else do
    let marked ← markCalls (mergeFoundHashes canonicalHash duplicateHashes found) canonicalHash reason
    return ⟨found, some marked⟩

/-- A merge that is no dry run, with what its calls came to. -/
def mergeCalls (canonicalHash : String) (duplicateHashes : List String) (reason : String) :
    Flow MergeCalls :=
  if !validateContentHash canonicalHash then throw (.validation "invalid canonical_hash")
  else do
    match ← Vectors.getByHash canonicalHash with
    | none => throw (.validation ("canonical memory not found: " ++ canonicalHash))
    | some _ => do
      let found ← Vectors.getBatch (mergeCandidates canonicalHash duplicateHashes)
      mergeWrites canonicalHash duplicateHashes reason found

end MemoryService

open MemoryService

/-- The duplicates that were refused or not found, and why. -/
def MergeCalls.refused (canonicalHash : String) (duplicateHashes : List String) (found : List Memory) :
    List (String × String) :=
  mergeRefused canonicalHash duplicateHashes ++
    ((mergeCandidates canonicalHash duplicateHashes).filter (· ∉ found.map Memory.contentHash)).map
      fun dup => (dup, (AlayaError.validation ("old memory not found: " ++ dup)).safeMessage)

/-- The duplicates that reached the write and were not superseded. -/
def MarkCalls.failed (toSupersede : List String) (canonicalHash : String) (marked : MarkCalls) :
    List (String × String) :=
  match marked.outcome toSupersede canonicalHash with
  | .ok () => []
  | .error f => (toSupersede.filter (· ∉ f.marked)).map fun dup =>
    (dup, if dup ∈ f.inDoubt then supersedeOutcomeUnknown else f.error.safeMessage)

/-- The duplicates that reached the write and were superseded. -/
def MarkCalls.superseded (toSupersede : List String) (canonicalHash : String) (marked : MarkCalls) :
    List String :=
  match marked.outcome toSupersede canonicalHash with
  | .ok () => toSupersede
  | .error f => toSupersede.filter (· ∈ f.marked)

/-- The report of a merge. -/
def MergeCalls.report (canonicalHash : String) (duplicateHashes : List String) (calls : MergeCalls) :
    MergeReport :=
  let toSupersede := mergeFoundHashes canonicalHash duplicateHashes calls.found
  { canonicalHash
    superseded := (calls.marked.map (MarkCalls.superseded toSupersede canonicalHash)).getD []
    errors := MergeCalls.refused canonicalHash duplicateHashes calls.found ++
      (calls.marked.map (MarkCalls.failed toSupersede canonicalHash)).getD []
    dryRun := false }

theorem markSuperseded_eq (oldHashes : List String) (newHash reason : String) :
    markSuperseded oldHashes newHash reason =
      MarkCalls.outcome oldHashes newHash <$> markCalls oldHashes newHash reason := by
  unfold markSuperseded markCalls
  rw [map_bind]
  refine bind_congr fun written => ?_
  rcases written with error | _
  · rw [map_bind]
    refine bind_congr fun again => ?_
    rcases again with read | memories
    · rw [map_pure]
      rfl
    · rw [map_bind]
      refine bind_congr fun _ => ?_
      rw [map_pure]
      rfl
  · rw [map_bind]
    refine bind_congr fun _ => ?_
    rw [map_pure]
    rfl

/-- **A merge reports what its calls came to.** -/
theorem mergeDuplicates_eq (canonicalHash : String) (duplicateHashes : List String) (reason : String) :
    mergeDuplicates canonicalHash duplicateHashes reason false =
      MergeCalls.report canonicalHash duplicateHashes <$>
        mergeCalls canonicalHash duplicateHashes reason := by
  have hwrites : ∀ found : List Memory, mergeFoundHashes canonicalHash duplicateHashes found ≠ [] →
      mergeFound canonicalHash (mergeFoundHashes canonicalHash duplicateHashes found) reason
        (MergeCalls.refused canonicalHash duplicateHashes found) =
      MergeCalls.report canonicalHash duplicateHashes <$>
        mergeWrites canonicalHash duplicateHashes reason found := by
    intro found hfound
    unfold mergeFound mergeWrites
    rw [if_neg hfound, markSuperseded_eq, map_bind, bind_map_left]
    refine bind_congr fun marked => ?_
    rw [map_pure]
    cases marked with
    | written => simp [MergeCalls.report, MarkCalls.superseded, MarkCalls.failed, MarkCalls.outcome]
    | unread error read => rfl
    | reread error memories => rfl
  unfold mergeDuplicates mergeCalls
  split
  · rfl
  rw [map_bind]
  refine bind_congr fun canonical => ?_
  cases canonical with
  | none => rfl
  | some m =>
    show mergeInto canonicalHash duplicateHashes reason = _
    unfold mergeInto
    rw [map_bind]
    refine bind_congr fun found => ?_
    show (if mergeFoundHashes canonicalHash duplicateHashes found = [] then _ else
      mergeFound canonicalHash (mergeFoundHashes canonicalHash duplicateHashes found) reason
        (MergeCalls.refused canonicalHash duplicateHashes found)) = _
    split
    · next hnone =>
      unfold mergeWrites
      rw [if_pos hnone, map_pure]
      simp [MergeCalls.report, MergeCalls.refused]
    · next hsome => exact hwrites found hsome

/-! ### The entries of the report -/

theorem map_fst_pair (f : String → String) (hashes : List String) :
    (hashes.map fun dup => (dup, f dup)).map Prod.fst = hashes := by
  rw [List.map_map]
  exact List.map_id hashes

theorem map_fst_mergeRefused (canonicalHash : String) (duplicateHashes : List String) :
    (mergeRefused canonicalHash duplicateHashes).map Prod.fst =
      duplicateHashes.filter fun dup => !(duplicateRefusal canonicalHash dup).isNone := by
  unfold mergeRefused
  induction duplicateHashes with
  | nil => rfl
  | cons dup rest ih =>
    cases h : duplicateRefusal canonicalHash dup with
    | none =>
      rw [List.filterMap_cons_none (by rw [h]; rfl), List.filter_cons_of_neg (by simp [h]), ih]
    | some e =>
      rw [List.filterMap_cons_some (b := (dup, e.safeMessage)) (by rw [h]; rfl),
        List.filter_cons_of_pos (by simp [h]), List.map_cons, ih]

section

variable (toSupersede : List String) (canonicalHash : String) (marked : MarkCalls)

theorem superseded_eq : marked.superseded toSupersede canonicalHash =
    toSupersede.filter (· ∈ marked.attempted toSupersede canonicalHash) := by
  cases marked with
  | written => exact (List.filter_eq_self.mpr fun h hh => decide_eq_true hh).symm
  | unread error read => rfl
  | reread error memories => rfl

theorem map_fst_failed : (marked.failed toSupersede canonicalHash).map Prod.fst =
    toSupersede.filter (· ∉ marked.attempted toSupersede canonicalHash) := by
  cases marked with
  | written =>
    exact (List.filter_eq_nil_iff.mpr fun h hh hnot => absurd hh (of_decide_eq_true hnot)).symm
  | unread error read => exact map_fst_pair _ _
  | reread error memories => exact map_fst_pair _ _

end

section

variable {canonicalHash : String} {duplicateHashes : List String} {calls : MergeCalls}

/-- A marking was skipped only for want of a memory to mark. -/
def MergeCalls.Marks (canonicalHash : String) (duplicateHashes : List String) (calls : MergeCalls) :
    Prop :=
  calls.marked = none → mergeFoundHashes canonicalHash duplicateHashes calls.found = []

/-- **One entry for each duplicate.** -/
theorem perm_report (hmarks : calls.Marks canonicalHash duplicateHashes) :
    ((calls.report canonicalHash duplicateHashes).superseded ++
      (calls.report canonicalHash duplicateHashes).errors.map Prod.fst).Perm duplicateHashes := by
  set toSupersede := mergeFoundHashes canonicalHash duplicateHashes calls.found with hto
  set superseded := (calls.marked.map (MarkCalls.superseded toSupersede canonicalHash)).getD []
    with hsuperseded
  set failed := (calls.marked.map (MarkCalls.failed toSupersede canonicalHash)).getD [] with hfailed
  have hmarked : (superseded ++ failed.map Prod.fst).Perm toSupersede := by
    cases hcalls : calls.marked with
    | none =>
      rw [hsuperseded, hfailed, hcalls, hto, hmarks hcalls]
      exact .nil
    | some marked =>
      rw [hsuperseded, hfailed, hcalls]
      simp only [Option.map_some, Option.getD_some, superseded_eq, map_fst_failed, decide_not]
      exact List.filter_append_perm ..
  have hfound : (toSupersede ++ (mergeCandidates canonicalHash duplicateHashes).filter
      (· ∉ calls.found.map Memory.contentHash)).Perm (mergeCandidates canonicalHash duplicateHashes) := by
    simp only [decide_not]
    exact List.filter_append_perm ..
  have hchecked : (mergeCandidates canonicalHash duplicateHashes ++
      (mergeRefused canonicalHash duplicateHashes).map Prod.fst).Perm duplicateHashes := by
    rw [map_fst_mergeRefused]
    exact List.filter_append_perm ..
  rw [List.perm_iff_count] at hmarked hfound hchecked ⊢
  intro h
  have hmarked := hmarked h
  have hfound := hfound h
  have hchecked := hchecked h
  show List.count h (superseded ++ (MergeCalls.refused canonicalHash duplicateHashes calls.found ++
    failed).map Prod.fst) = _
  simp only [MergeCalls.refused, List.map_append, List.count_append, map_fst_pair] at *
  omega

theorem mem_superseded {h : String} :
    h ∈ (calls.report canonicalHash duplicateHashes).superseded ↔
      ∃ marked, calls.marked = some marked ∧
        h ∈ mergeFoundHashes canonicalHash duplicateHashes calls.found ∧
        h ∈ marked.attempted (mergeFoundHashes canonicalHash duplicateHashes calls.found)
          canonicalHash := by
  show h ∈ (calls.marked.map (MarkCalls.superseded _ canonicalHash)).getD [] ↔ _
  cases calls.marked with
  | none => exact iff_of_false List.not_mem_nil nofun
  | some marked =>
    rw [Option.map_some, Option.getD_some, superseded_eq, List.mem_filter, decide_eq_true_eq]
    exact ⟨fun hh => ⟨marked, rfl, hh⟩, fun ⟨_, hmarked, hh⟩ => Option.some.inj hmarked ▸ hh⟩

theorem mem_failed {toSupersede : List String} {marked : MarkCalls} {h why : String} :
    (h, why) ∈ marked.failed toSupersede canonicalHash ↔ h ∈ toSupersede ∧
      ((∃ error read, marked = .unread error read ∧ why = supersedeOutcomeUnknown) ∨
        ∃ error memories, marked = .reread error memories ∧ h ∉ markedBy canonicalHash memories ∧
          why = error.safeMessage) := by
  cases marked with
  | written => exact iff_of_false List.not_mem_nil (by rintro ⟨-, ⟨_, _, h, -⟩ | ⟨_, _, h, -⟩⟩ <;> cases h)
  | unread error read =>
    simp only [MarkCalls.failed, MarkCalls.outcome, List.mem_map, List.mem_filter, decide_eq_true_eq,
      Prod.mk.injEq]
    constructor
    · rintro ⟨dup, ⟨hdup, -⟩, rfl, rfl⟩
      exact ⟨hdup, .inl ⟨error, read, rfl, if_pos hdup⟩⟩
    · rintro ⟨hdup, ⟨_, _, -, rfl⟩ | ⟨_, _, hmarked, -⟩⟩
      · exact ⟨h, ⟨hdup, List.not_mem_nil⟩, rfl, if_pos hdup⟩
      · cases hmarked
  | reread error memories =>
    simp only [MarkCalls.failed, MarkCalls.outcome, List.mem_map, List.mem_filter, decide_eq_true_eq,
      Prod.mk.injEq]
    constructor
    · rintro ⟨dup, ⟨hdup, hnot⟩, rfl, rfl⟩
      exact ⟨hdup, .inr ⟨error, memories, rfl, hnot, rfl⟩⟩
    · rintro ⟨hdup, ⟨_, _, hmarked, -⟩ | ⟨_, _, hmarked, hnot, rfl⟩⟩
      · cases hmarked
      · obtain ⟨rfl, rfl⟩ := MarkCalls.reread.inj hmarked
        exact ⟨h, ⟨hdup, hnot⟩, rfl, rfl⟩

/-- A duplicate that is no candidate was refused; one that is none of the found ones was missing. -/
theorem mem_refused {found : List Memory} {h why : String} :
    (h, why) ∈ MergeCalls.refused canonicalHash duplicateHashes found ↔
      (∃ e, h ∈ duplicateHashes ∧ duplicateRefusal canonicalHash h = some e ∧ e.safeMessage = why) ∨
        h ∈ mergeCandidates canonicalHash duplicateHashes ∧ h ∉ found.map Memory.contentHash ∧
          (AlayaError.validation ("old memory not found: " ++ h)).safeMessage = why := by
  unfold MergeCalls.refused mergeRefused
  rw [List.mem_append]
  refine or_congr ⟨fun hh => ?_, fun ⟨e, hdup, he, hwhy⟩ => ?_⟩ ⟨fun hh => ?_, fun ⟨hdup, hnot, hwhy⟩ => ?_⟩
  · obtain ⟨dup, hdup, hh⟩ := List.mem_filterMap.mp hh
    obtain ⟨e, he, hpair⟩ := Option.map_eq_some_iff.mp hh
    obtain ⟨rfl, rfl⟩ := Prod.mk.inj hpair
    exact ⟨e, hdup, he, rfl⟩
  · exact List.mem_filterMap.mpr ⟨h, hdup, by rw [he, Option.map_some, hwhy]⟩
  · obtain ⟨dup, hdup, hpair⟩ := List.mem_map.mp hh
    obtain ⟨rfl, rfl⟩ := Prod.mk.inj hpair
    obtain ⟨hdup, hnot⟩ := List.mem_filter.mp hdup
    exact ⟨hdup, of_decide_eq_true hnot, rfl⟩
  · exact List.mem_map.mpr ⟨h, List.mem_filter.mpr ⟨hdup, decide_eq_true hnot⟩, by rw [hwhy]⟩

theorem mem_errors {h why : String} :
    (h, why) ∈ (calls.report canonicalHash duplicateHashes).errors ↔
      (h, why) ∈ MergeCalls.refused canonicalHash duplicateHashes calls.found ∨
        ∃ marked, calls.marked = some marked ∧ (h, why) ∈
          marked.failed (mergeFoundHashes canonicalHash duplicateHashes calls.found) canonicalHash := by
  show (h, why) ∈ _ ++ (calls.marked.map (MarkCalls.failed _ canonicalHash)).getD [] ↔ _
  rw [List.mem_append]
  refine or_congr_right ?_
  cases calls.marked with
  | none => exact iff_of_false List.not_mem_nil nofun
  | some marked =>
    exact ⟨fun hh => ⟨marked, rfl, hh⟩, fun ⟨_, hmarked, hh⟩ => Option.some.inj hmarked ▸ hh⟩

/-- Of one duplicate the report says one thing. -/
theorem apart_report {h : String} (hh : h ∈ (calls.report canonicalHash duplicateHashes).superseded) :
    h ∉ (calls.report canonicalHash duplicateHashes).errors.map Prod.fst := by
  obtain ⟨marked, hmarked, hfound, hattempted⟩ := mem_superseded.mp hh
  obtain ⟨hcandidate, hexists⟩ := List.mem_filter.mp hfound
  intro herror
  obtain ⟨⟨h', why⟩, hentry, hh'⟩ := List.mem_map.mp herror
  obtain rfl : h' = h := hh'
  rcases mem_errors.mp hentry with hrefused | ⟨marked', hmarked', hfailed⟩
  · rcases mem_refused.mp hrefused with ⟨e, -, he, -⟩ | ⟨-, hnot, -⟩
    · have hnone := (List.mem_filter.mp hcandidate).2
      rw [he] at hnone
      cases hnone
    · exact hnot (of_decide_eq_true hexists)
  · obtain rfl := Option.some.inj (hmarked.symm.trans hmarked')
    rcases (mem_failed.mp hfailed).2 with ⟨error, read, rfl, -⟩ | ⟨error, memories, rfl, hnot, -⟩
    · exact absurd hattempted List.not_mem_nil
    · exact hnot hattempted

theorem safeMessage_ne_unknown (e : AlayaError) : e.safeMessage ≠ supersedeOutcomeUnknown := by
  cases e <;> dsimp only [AlayaError.safeMessage] <;> decide

/-- **In doubt**: exactly the duplicates that were found, when neither the write nor the read of what
it left was answered. -/
theorem doubt_report {h : String} :
    (h, supersedeOutcomeUnknown) ∈ (calls.report canonicalHash duplicateHashes).errors ↔
      h ∈ mergeFoundHashes canonicalHash duplicateHashes calls.found ∧
        ∃ error read, calls.marked = some (.unread error read) := by
  rw [mem_errors]
  constructor
  · rintro (hrefused | ⟨marked, hmarked, hfailed⟩)
    · rcases mem_refused.mp hrefused with ⟨e, -, -, he⟩ | ⟨-, -, he⟩ <;>
        exact absurd he (safeMessage_ne_unknown _)
    · obtain ⟨hfound, ⟨error, read, rfl, -⟩ | ⟨error, -, -, -, he⟩⟩ := mem_failed.mp hfailed
      · exact ⟨hfound, error, read, hmarked⟩
      · exact absurd he.symm (safeMessage_ne_unknown _)
  · rintro ⟨hfound, error, read, hmarked⟩
    exact .inr ⟨_, hmarked, mem_failed.mpr ⟨hfound, .inl ⟨error, read, rfl, rfl⟩⟩⟩

end

/-! ### The stores under a merge -/

/-- Each memory is stored at the point its hash names, and the point says which hash that is: no two
memories share the digits their point is named by. -/
def Service.Named (name : PointId → String) : Service → Prop :=
  Service.Suits fun id h => h = name id ∧ hashToUuid h = .ok id

/-- An update that calls its point gone leaves none. -/
def Call.TellsGone : (c : Call) → Reply c → Service → Prop
  | .vectors (.update _ id), .ok u, s =>
    (show Updated from u).update = .absent ∨ (show Updated from u).update = .deleted → s.points id = none
  | _, _, _ => True

/-- The stores may fail as in `Service.Serves`; a point they call gone is gone. -/
def Service.ServesTruly (c : Call) (s : Service) (r : Reply c) (s' : Service) : Prop :=
  s.Serves c r s' ∧ c.TellsGone r s'

/-- A read of the state finds the memory of a hash. -/
def Service.Finds (s : Service) (contentHash : String) (m : Memory) : Prop :=
  ∃ id, hashToUuid contentHash = .ok id ∧ (s.points id).bind parsePayload = some m ∧
    m.contentHash = contentHash

/-- There is no point for a hash. -/
def Service.Gone (s : Service) (contentHash : String) : Prop :=
  ∃ id, hashToUuid contentHash = .ok id ∧ s.points id = none

/-- The memory carries the marker of `newHash`. -/
def Service.Marked (s : Service) (contentHash newHash : String) : Prop :=
  ∃ reason, s.MarkedBy contentHash newHash reason

/-- A call that reads the memory of a hash. -/
def Call.Asks (contentHash : String) : Call → Prop
  | .vectors (.getByHash h) => h = contentHash
  | .vectors (.getBatch hashes) => contentHash ∈ hashes
  | _ => False

/-- The last read of a hash was made in a state with `Q`. -/
def LastRead (tr : List (Moment Call Service)) (contentHash : String) (Q : Service → Prop) : Prop :=
  ∃ tr₁ c t t' tr₂, tr = tr₁ ++ ⟨some c, t, t'⟩ :: tr₂ ∧ c.Asks contentHash ∧ Q t ∧
    ∀ m ∈ tr₂, ∀ c, m.call = some c → ¬c.Asks contentHash

/-- The memory of a hash was deleted: a moment has it, a later one has no point for it. -/
def Vanishes (tr : List (Moment Call Service)) (contentHash : String) : Prop :=
  ∃ tr₁ tr₂, tr = tr₁ ++ tr₂ ∧ (Once tr₁ fun x => ∃ m, x.Finds contentHash m) ∧
    Once tr₂ fun x => x.Gone contentHash

theorem LastRead.left {tr₁ tr₂ : List (Moment Call Service)} {contentHash : String} {Q : Service → Prop}
    (h : LastRead tr₁ contentHash Q)
    (hrest : ∀ m ∈ tr₂, ∀ c, m.call = some c → ¬c.Asks contentHash) :
    LastRead (tr₁ ++ tr₂) contentHash Q := by
  obtain ⟨before, c, t, t', after, rfl, hasks, hQ, hafter⟩ := h
  refine ⟨before, c, t, t', after ++ tr₂, by rw [List.append_assoc]; rfl, hasks, hQ, ?_⟩
  exact fun m hm => (List.mem_append.mp hm).elim (hafter m) (hrest m)

theorem LastRead.right {tr₁ tr₂ : List (Moment Call Service)} {contentHash : String} {Q : Service → Prop}
    (h : LastRead tr₂ contentHash Q) : LastRead (tr₁ ++ tr₂) contentHash Q := by
  obtain ⟨before, c, t, t', after, rfl, hasks, hQ, hafter⟩ := h
  exact ⟨tr₁ ++ before, c, t, t', after, (List.append_assoc ..).symm, hasks, hQ, hafter⟩

theorem LastRead.mono {tr : List (Moment Call Service)} {contentHash : String} {Q Q' : Service → Prop}
    (h : LastRead tr contentHash Q) (hQ : ∀ x, Q x → Q' x) : LastRead tr contentHash Q' := by
  obtain ⟨before, c, t, t', after, htr, hasks, hx, hafter⟩ := h
  exact ⟨before, c, t, t', after, htr, hasks, hQ t hx, hafter⟩

section

variable {others : Service → Service → Prop} {s s' : Service} {tr : List (Moment Call Service)}
  {newHash reason : String} {contentHashes : List String}

/-- A batch holds the memories at the points of its hashes. -/
theorem mem_getBatch {points : Points} {found : List Memory}
    (h : Alaya.getBatch points contentHashes = .ok found) (m : Memory) : m ∈ found ↔
      ∃ g ∈ contentHashes, ∃ id, hashToUuid g = .ok id ∧ (points id).bind parsePayload = some m := by
  obtain ⟨ids, hids, h⟩ := bind_eq_ok.mp h
  obtain rfl := Except.ok.inj h
  rw [List.mem_filterMap]
  constructor
  · rintro ⟨id, hid, hm⟩
    obtain ⟨g, hg, hgid⟩ := mem_of_mapM_hashToUuid hids hid
    exact ⟨g, hg, id, hgid, hm⟩
  · rintro ⟨g, hg, id, hgid, hm⟩
    obtain ⟨id', hmem, hgid'⟩ := Rows.exists_mem_zip_of_mapM hids hg
    obtain rfl := Except.ok.inj (hgid.symm.trans hgid')
    exact ⟨id, (List.of_mem_zip hmem).2, hm⟩

/-- A batch that is read is read last, for each of its hashes, in the state it was answered from. -/
theorem lastRead_getBatch {found : List Memory} (h : Among Service.ServesTruly others
    (Vectors.getBatch contentHashes).run s tr (.ok found) s') {contentHash : String}
    (hmem : contentHash ∈ contentHashes) :
    LastRead tr contentHash fun x => Alaya.getBatch x.points contentHashes = .ok found := by
  cases contentHashes with
  | nil => cases hmem
  | cons g hashes =>
    obtain ⟨tr₁, t, t', tr₂, rfl, ⟨hserves, -⟩, hwaits⟩ := Among.ask_split h
    refine ⟨tr₁, _, t, t', tr₂, rfl, hmem, ?_, fun m hm c hc => ?_⟩
    · rcases hserves with hserved | ⟨hunsure, -⟩
      · exact congrArg Prod.fst hserved
      · exact hunsure.elim
    · rw [hwaits m hm] at hc
      cases hc

/-- Every copy that can take its marker is written. -/
theorem modify_markSuperseded {call : UpdateCall}
    (h : (Op.markSuperseded contentHashes newHash reason).call = .ok call) (prev : Payload) :
    call.modify prev ≠ .ok none := by
  obtain ⟨ids, -, h⟩ := bind_eq_ok.mp h
  obtain rfl := Except.ok.inj h
  intro hnone
  obtain ⟨metadata, -, hwrite⟩ := bind_eq_ok.mp hnone
  cases hwrite

/-- What the marking of a point answers, and what it leaves. -/
theorem update_markSuperseded {id : PointId} {u : Updated}
    (h : (Service.update (.markSuperseded contentHashes newHash reason) id s).1 = .ok u) :
    (∃ p created, u.update = .landed p created ∧ p.marker = some (.string newHash) ∧
      (Service.update (.markSuperseded contentHashes newHash reason) id s).2.points id = some p) ∨
    u.update = .absent := by
  obtain ⟨call, hcall, hanswer, hland⟩ := Service.update_answer h
  cases hcell : s.points id with
  | none =>
    rw [hcell] at hanswer
    rcases UpdateCall.answer_none hanswer with ⟨p, hp⟩ | habsent
    · rw [hp, hcell] at hland
      cases created_of_land hland
    · exact .inr habsent
  | some q =>
    rw [hcell] at hanswer
    obtain ⟨hfound, hskipped | ⟨p, hlanded⟩⟩ := UpdateCall.answer_some hanswer
    · have hmodify := modify_markSuperseded hcall (restrict call.readKeys q)
      unfold UpdateCall.answer at hanswer
      dsimp only at hanswer
      split at hanswer
      · cases hanswer
      · next hnone => exact absurd hnone hmodify
      · obtain rfl := Except.ok.inj hanswer
        cases hskipped
    · rw [hlanded] at hland
      have hrecord := record_of_landing (landing_of_land (hcell ▸ hland))
      refine .inl ⟨p, false, hlanded, congrArg Record.marker hrecord, ?_⟩
      rw [Service.update_state hland]
      exact Function.update_self ..

/-- The updates of a batch, each at a moment of its own. -/
theorem among_updateEach {op : Op} {ids : List PointId} {outcome : Outcome}
    (h : Among Service.ServesTruly others (Vectors.updateEach op ids).run s tr (.ok outcome) s')
    {id : PointId} (hid : id ∈ ids) : ∃ u t t', ⟨some (.vectors (.update op id)), t, t'⟩ ∈ tr ∧
      t.ServesTruly (.vectors (.update op id)) (.ok u) t' ∧
      outcome.lookup id = some (if u.update = .absent then .deleted else u.update) := by
  induction ids generalizing s s' tr outcome with
  | nil => cases hid
  | cons first ids ih =>
    obtain ⟨tr₁, tr₂, u, t, rfl, hupdate, hrest⟩ := Among.seq_ok h
    obtain ⟨t₀, t₁, hmem, hserves⟩ := hupdate.ask
    obtain ⟨tr₃, tr₄, rest, t', rfl, heach, hdone⟩ := Among.seq_ok hrest
    obtain rfl := Except.ok.inj hdone.eq_of_done
    by_cases hfirst : id = first
    · subst hfirst
      exact ⟨u, t₀, t₁, List.mem_append_left _ hmem, hserves, List.lookup_cons_self⟩
    · obtain ⟨u', t₂, t₃, hmem', hserves', hlookup⟩ :=
        ih heach ((List.mem_cons.mp hid).resolve_left hfirst)
      refine ⟨u', t₂, t₃, List.mem_append_right _ (List.mem_append_left _ hmem'), hserves', ?_⟩
      rw [List.lookup_cons, beq_eq_false_iff_ne.mpr hfirst]
      exact hlookup

/-- A point that was there for its update was marked, or is gone. -/
theorem marked_or_gone {id : PointId} {contentHash what : String} {u : Updated}
    (hid : hashToUuid contentHash = .ok id)
    (h : s.ServesTruly (.vectors (.update (.markSuperseded contentHashes newHash reason) id)) (.ok u) s')
    (hchecked : Vectors.checkUpdated contentHash what
      (if u.update = .absent then .deleted else u.update) = .ok ()) :
    s'.Marked contentHash newHash ∨ s'.Gone contentHash := by
  obtain ⟨hserves, hgone⟩ := h
  have hcases : u.update = .absent ∨ u.update = .deleted ∨
      (u.update = .skipped ∨ ∃ p created, u.update = .landed p created) := by
    revert hchecked
    cases hu : u.update <;> simp [Vectors.checkUpdated]
  rcases hcases with habsent | hdeleted | hdone
  · exact .inr ⟨id, hid, hgone (.inl habsent)⟩
  · exact .inr ⟨id, hid, hgone (.inr hdeleted)⟩
  · have hserved := hserves.update hdone
    rcases update_markSuperseded (congrArg Prod.fst hserved) with
      ⟨p, created, hu, hmarker, hpoint⟩ | habsent
    · rw [hserved] at hpoint
      exact .inl ⟨_, id, p, hid, hpoint, hmarker, rfl⟩
    · exact .inr ⟨id, hid, hgone (.inl habsent)⟩

/-- A strict batch that was checked had every point: each was updated. -/
theorem among_updateStrictly {op : Op} {ids : List PointId} {outcome : Outcome}
    (h : Among Service.ServesTruly others (Vectors.updateStrictly op ids).run s tr (.ok outcome) s')
    (hthere : ∀ id ∈ ids, outcome.lookup id ≠ some .absent) {id : PointId} (hid : id ∈ ids) :
    ∃ u t t', ⟨some (.vectors (.update op id)), t, t'⟩ ∈ tr ∧
      t.ServesTruly (.vectors (.update op id)) (.ok u) t' ∧
      outcome.lookup id = some (if u.update = .absent then .deleted else u.update) := by
  obtain ⟨tr₁, tr₂, found, t, rfl, hread, hrest⟩ := Among.seq_ok h
  obtain ⟨t₀, t₁, -, ⟨hserves, -⟩⟩ := hread.ask
  have hfound : found = ids.map t₀.points := by
    rcases hserves with hserved | ⟨hunsure, -⟩
    · exact (Except.ok.inj (congrArg Prod.fst hserved)).symm
    · exact hunsure.elim
  subst hfound
  split at hrest
  · next hnone =>
    obtain rfl := Except.ok.inj hrest.eq_of_done
    obtain ⟨cell, hcell, habsent⟩ := List.any_eq_true.mp hnone
    obtain ⟨gone, hgone, rfl⟩ := List.mem_map.mp hcell
    refine absurd ?_ (hthere gone hgone)
    have houtcome : (ids.zip (ids.map t₀.points)).map (fun r =>
        (r.1, if r.2.isNone then Update.absent else .skipped)) =
        ids.map fun id => (id, if (t₀.points id).isNone then Update.absent else .skipped) := by
      rw [← List.map_id ids, List.map_map, List.zip_map', List.map_map, List.map_map]
      rfl
    rw [houtcome, List.lookup_graph _ hgone, if_pos habsent]
  · obtain ⟨_, -, hrest⟩ := Among.check_ok hrest
    obtain ⟨u, t₂, t₃, hmem, hserves, hlookup⟩ := among_updateEach hrest hid
    exact ⟨u, t₂, t₃, List.mem_append_right _ hmem, hserves, hlookup⟩

/-- **A batch write that reports success has, at some moment, each memory marked or gone.** -/
theorem once_updateMetadataBatch (h : Among Service.ServesTruly others
    (Vectors.updateMetadataBatch contentHashes newHash reason).run s tr (.ok ()) s')
    {contentHash : String} (hmem : contentHash ∈ contentHashes) :
    Once tr fun x => x.Marked contentHash newHash ∨ x.Gone contentHash := by
  unfold Vectors.updateMetadataBatch at h
  rw [if_neg (List.ne_nil_of_mem hmem)] at h
  obtain ⟨ids, hids, h⟩ := Among.check_ok h
  obtain ⟨tr₁, tr₂, outcome, t, rfl, hstrict, hrest⟩ := Among.seq_ok h
  obtain ⟨checks, hchecks, -⟩ := Among.check_ok hrest
  have hchecked : ∀ {g id}, (g, id) ∈ contentHashes.zip ids → Vectors.checkUpdated g "metadata update"
      ((outcome.lookup id).getD .absent) = .ok () := by
    intro g id hgid
    obtain ⟨_, -, hcheck⟩ := Rows.exists_mem_zip_of_mapM hchecks hgid
    exact hcheck
  have hthere : ∀ id ∈ ids.eraseDups, outcome.lookup id ≠ some .absent := by
    intro id hid habsent
    obtain ⟨g, hg, hgid⟩ := mem_of_mapM_hashToUuid hids (List.mem_eraseDups.mp hid)
    obtain ⟨id', hzip, hgid'⟩ := Rows.exists_mem_zip_of_mapM hids hg
    obtain rfl := Except.ok.inj (hgid.symm.trans hgid')
    have hcheck := hchecked hzip
    rw [habsent] at hcheck
    cases hcheck
  obtain ⟨id, hzip, hid⟩ := Rows.exists_mem_zip_of_mapM hids hmem
  have hlisted : id ∈ ids.eraseDups := List.mem_eraseDups.mpr (List.of_mem_zip hzip).2
  obtain ⟨u, t₀, t₁, hmoment, hserves, hlookup⟩ := among_updateStrictly hstrict hthere hlisted
  have hcheck := hchecked hzip
  rw [hlookup, Option.getD_some] at hcheck
  exact Once.left ⟨_, hmoment, .inr (marked_or_gone hid hserves hcheck)⟩

/-- A part of a run whose calls ask for none of a hash's reads. -/
theorem asks_none {α : Type} {p : Program Reply α} {a : α} {contentHash : String}
    (hp : p.Makes fun c => ¬c.Asks contentHash) (h : Among Service.ServesTruly others p s tr a s') :
    ∀ m ∈ tr, ∀ c, m.call = some c → ¬c.Asks contentHash :=
  fun _ hm _ hc => h.makes hp hm hc

theorem LastRead.once {contentHash : String} {Q : Service → Prop} (h : LastRead tr contentHash Q) :
    Once tr Q := by
  obtain ⟨before, c, t, t', after, rfl, -, hQ, -⟩ := h
  exact ⟨⟨some c, t, t'⟩, List.mem_append_right _ List.mem_cons_self, .inl hQ⟩

theorem once_or {Q R : Service → Prop} (h : Once tr fun x => Q x ∨ R x) : Once tr Q ∨ Once tr R := by
  obtain ⟨m, hm, hbefore | hafter⟩ := h
  · exact hbefore.imp (fun hQ => ⟨m, hm, .inl hQ⟩) fun hR => ⟨m, hm, .inl hR⟩
  · exact hafter.imp (fun hQ => ⟨m, hm, .inr hQ⟩) fun hR => ⟨m, hm, .inr hR⟩

/-- No call of the run goes to the graph. -/
def NoGraph (tr : List (Moment Call Service)) : Prop := ∀ m ∈ tr, ∀ c, m.call ≠ some (.graph c)

theorem NoGraph.append {tr₁ tr₂ : List (Moment Call Service)} (h₁ : NoGraph tr₁) (h₂ : NoGraph tr₂) :
    NoGraph (tr₁ ++ tr₂) := fun m hm => (List.mem_append.mp hm).elim (h₁ m) (h₂ m)

theorem noGraph_of_makes {α : Type} {p : Program Reply α} {a : α}
    (hp : p.Makes fun c => ∀ g, c ≠ .graph g) (h : Among Service.ServesTruly others p s tr a s') :
    NoGraph tr := fun _ hm g hc => h.makes hp hm hc g rfl

/-- What the marking of a batch shows: every memory marked or gone, or the batch read again. -/
def MarkCalls.Shown (tr : List (Moment Call Service)) (oldHashes : List String) (newHash : String) :
    MarkCalls → Prop
  | .written => ∀ h ∈ oldHashes, Once tr fun x => x.Marked h newHash ∨ x.Gone h
  | .unread .. => True
  | .reread _ memories => ∀ h ∈ oldHashes, LastRead tr h fun x =>
    Alaya.getBatch x.points oldHashes = .ok memories

/-- **The marking of a batch**: its write, its re-read when that failed, and last its edges. -/
theorem among_markCalls {marked : MarkCalls} (h : Among Service.ServesTruly others
    (markCalls contentHashes newHash reason).run s tr (.ok marked) s') :
    ∃ tr₁ tr₂ t, tr = tr₁ ++ tr₂ ∧ NoGraph tr₁ ∧ marked.Shown tr₁ contentHashes newHash ∧
      Among Service.ServesTruly others
        (writeSupersedesEdges (marked.attempted contentHashes newHash) newHash).run t tr₂ (.ok ()) s' := by
  obtain ⟨tr₁, tr₂, written, t, rfl, hattempt, hrest⟩ := Among.seq_ok h
  obtain ⟨y, hy, hupdate⟩ := among_attempt hattempt
  obtain rfl := Except.ok.inj hy
  have hupdates : NoGraph tr₁ := noGraph_of_makes
    (makes_updateMetadataBatch_of _ _ _ (fun _ => nofun) fun _ _ _ _ => nofun) hupdate
  rcases written with error | _
  · obtain ⟨tr₃, tr₄, again, t', rfl, hattempt, hrest⟩ := Among.seq_ok hrest
    obtain ⟨y, hy, hread⟩ := among_attempt hattempt
    obtain rfl := Except.ok.inj hy
    have hreads : NoGraph tr₃ := noGraph_of_makes (makes_getBatch _ nofun) hread
    rcases again with read | memories
    · obtain rfl := Except.ok.inj hrest.eq_of_done
      exact ⟨tr₁ ++ tr₃, tr₄, t', (List.append_assoc ..).symm, hupdates.append hreads, trivial,
        hrest.wait⟩
    · obtain ⟨tr₅, tr₆, _, t₂, rfl, hedges, hdone⟩ := Among.seq_ok hrest
      obtain rfl := Except.ok.inj hdone.eq_of_done
      refine ⟨tr₁ ++ tr₃, tr₅ ++ tr₆, t', by simp only [List.append_assoc], hupdates.append hreads,
        fun h hh => (lastRead_getBatch hread hh).right, hedges.then_wait hdone⟩
  · obtain ⟨tr₃, tr₄, _, t', rfl, hedges, hdone⟩ := Among.seq_ok hrest
    obtain rfl := Except.ok.inj hdone.eq_of_done
    exact ⟨tr₁, tr₃ ++ tr₄, t, rfl, hupdates, fun h hh => once_updateMetadataBatch hupdate hh,
      hedges.then_wait hdone⟩

/-- The phases of a merge that reports: its existence read, and what it writes then. -/
theorem among_mergeCalls {canonicalHash : String} {duplicateHashes : List String} {calls : MergeCalls}
    (h : Among Service.ServesTruly others
      (mergeCalls canonicalHash duplicateHashes reason).run s tr (.ok calls) s') :
    ∃ tr₁ tr₂ t, tr = tr₁ ++ tr₂ ∧ NoGraph tr₁ ∧
      (∀ h ∈ mergeCandidates canonicalHash duplicateHashes, LastRead tr₁ h fun x => Alaya.getBatch
        x.points (mergeCandidates canonicalHash duplicateHashes) = .ok calls.found) ∧
      Among Service.ServesTruly others
        (mergeWrites canonicalHash duplicateHashes reason calls.found).run t tr₂ (.ok calls) s' := by
  unfold mergeCalls at h
  split at h
  · cases h.eq_of_done
  obtain ⟨tr₁, tr₂, canonical, t, rfl, hcanonical, hrest⟩ := Among.seq_ok h
  rcases canonical with _ | m
  · cases hrest.eq_of_done
  obtain ⟨tr₃, tr₄, found, t', rfl, hread, hwrites⟩ := Among.seq_ok hrest
  have hfound : found = calls.found := by
    refine (hwrites.returns (R := IfOk fun calls => found = calls.found) ?_)
    unfold mergeWrites
    split
    · rfl
    · exact Returns.seq (returns_any _) fun _ _ => rfl
  subst hfound
  refine ⟨tr₁ ++ tr₃, tr₄, t', (List.append_assoc ..).symm, ?_, fun h hh =>
    (lastRead_getBatch hread hh).right, hwrites⟩
  have hasks : (Vectors.getByHash canonicalHash).run.Makes fun c => ∀ g, c ≠ .graph g :=
    makes_ask (c := .vectors (.getByHash canonicalHash)) nofun
  exact (noGraph_of_makes hasks hcanonical).append
    (noGraph_of_makes (makes_getBatch _ nofun) hread)

/-- The calls of a merge: it reads the canonical memory and its candidates, and marks and links some. -/
theorem makes_mergeCalls {canonicalHash : String} {duplicateHashes : List String} {P : Call → Prop}
    (hcanonical : P (.vectors (.getByHash canonicalHash)))
    (hread : ∀ hashes ⊆ mergeCandidates canonicalHash duplicateHashes, P (.vectors (.getBatch hashes)))
    (hretrieve : ∀ ids, P (.vectors (.retrieve ids)))
    (hupdate : ∀ hashes id, P (.vectors (.update (.markSuperseded hashes canonicalHash reason) id)))
    (hedge : ∀ h, P (.graph (.createSystemEdge canonicalHash h))) :
    (mergeCalls canonicalHash duplicateHashes reason).run.Makes P := by
  unfold mergeCalls
  split
  · exact .throw _
  refine (makes_ask hcanonical).seq fun canonical => ?_
  rcases canonical with _ | m
  · exact .throw _
  refine (makes_getBatch _ (hread _ (List.Subset.refl _))).seq fun found => ?_
  unfold mergeWrites
  split
  · exact .pure _
  refine Makes.seq ?_ fun _ => .pure _
  unfold markCalls
  refine (makes_attempt (makes_updateMetadataBatch_of _ _ _ hretrieve fun _ _ _ _ =>
    hupdate _ _)).seq fun written => ?_
  rcases written with error | _
  · refine (makes_attempt (makes_getBatch _ (hread _ (List.filter_subset_self _)))).seq fun again => ?_
    rcases again with read | memories
    · exact .pure _
    · exact (makes_writeSupersedesEdges _ _ fun _ _ => hedge _).seq fun _ => .pure _
  · exact (makes_writeSupersedesEdges _ _ fun _ _ => hedge _).seq fun _ => .pure _

/-- A merge reads no memory but the canonical one and its candidates. -/
theorem unasked_of_run {canonicalHash h : String} {duplicateHashes : List String}
    {r : Except AlayaError MergeCalls} (hcanonical : canonicalHash ≠ h)
    (hnot : h ∉ mergeCandidates canonicalHash duplicateHashes)
    (hrun : Among Service.ServesTruly others
      (mergeCalls canonicalHash duplicateHashes reason).run s tr r s') :
    ∀ m ∈ tr, ∀ c, m.call = some c → ¬c.Asks h :=
  asks_none (makes_mergeCalls hcanonical (fun _ hhashes hh => hnot (hhashes hh)) (fun _ => id)
    (fun _ _ => id) fun _ => id) hrun

end

/-! ### The account of a merge -/

/-- The report of a merge, traced to its run. -/
structure MergeAccounts (others : Service → Service → Prop) (canonicalHash : String)
    (duplicateHashes : List String) (calls : MergeCalls) (report : MergeReport)
    (tr : List (Moment Call Service)) (s' : Service) : Prop where
  /-- One entry for each position of the input. -/
  entries : (report.superseded ++ report.errors.map Prod.fst).Perm duplicateHashes
  /-- No hash is reported both ways. -/
  apart : ∀ h ∈ report.superseded, h ∉ report.errors.map Prod.fst
  /-- Superseded: marked at some moment, or deleted during the call. -/
  superseded : ∀ h ∈ report.superseded, (Once tr fun x => x.Marked h canonicalHash) ∨ Vanishes tr h
  /-- A plain error: refused for its form, or not found marked by the last read of it. -/
  plain : ∀ h why, (h, why) ∈ report.errors → why ≠ supersedeOutcomeUnknown →
    (duplicateRefusal canonicalHash h).isSome ∨ LastRead tr h fun x => ∀ m, x.Finds h m →
      m.supersessionMarker ≠ some (.string canonicalHash)
  /-- In doubt: found, and neither the batch write nor the re-read succeeded. -/
  doubt : ∀ h, (h, supersedeOutcomeUnknown) ∈ report.errors ↔
    h ∈ mergeFoundHashes canonicalHash duplicateHashes calls.found ∧
      ∃ error read, calls.marked = some (.unread error read)
  /-- One batch of edges ends the run: those of the memories reported superseded. -/
  edges : ∃ attempted, (∀ h, h ∈ attempted ↔ h ∈ report.superseded) ∧
    ∃ tr₁ tr₂ t, tr = tr₁ ++ tr₂ ∧ NoGraph tr₁ ∧ Among Service.ServesTruly others
      (writeSupersedesEdges attempted canonicalHash).run t tr₂ (.ok ()) s'

section

variable {others : Service → Service → Prop} {s s' : Service} {tr : List (Moment Call Service)}
  {canonicalHash reason : String} {duplicateHashes : List String} {calls : MergeCalls}
  {name : PointId → String}

theorem named_mergeCalls (hs : s.Named name)
    (hothers : ∀ t t', others t t' → t.Named name → t'.Named name)
    (h : Among Service.ServesTruly others
      (mergeCalls canonicalHash duplicateHashes reason).run s tr (.ok calls) s') :
    ∀ m ∈ tr, m.before.Named name ∧ m.after.Named name := by
  have hmakes : (mergeCalls canonicalHash duplicateHashes reason).run.Makes fun c =>
      ∀ params ctx mode id, c ≠ .vectors (.update (.store params ctx mode) id) :=
    makes_mergeCalls (fun _ _ _ _ h => nomatch h) (fun _ _ _ _ _ _ h => nomatch h)
      (fun _ _ _ _ _ h => nomatch h) (fun _ _ _ _ _ _ h => nomatch h) fun _ _ _ _ _ h => nomatch h
  refine (h.preserves (I := Service.Named name) hmakes (fun c t r t' hc hserves ht => ?_)
    hothers hs).2
  exact suits_effect (fun params ctx mode id heq => absurd heq (hc params ctx mode id))
    hserves.1.effect ht

/-- A memory some read found is the memory of its hash. -/
theorem finds_of_getBatch {x : Service} (hx : x.Named name) {hashes : List String}
    {found : List Memory} (h : Alaya.getBatch x.points hashes = .ok found) {m : Memory}
    (hm : m ∈ found) : x.Finds m.contentHash m := by
  obtain ⟨g, -, id, -, hparse⟩ := (mem_getBatch h m).mp hm
  exact ⟨id, (hx id m hparse).2, hparse, rfl⟩

/-- A hash that was read marked was marked. -/
theorem marked_of_finds {x : Service} {h newHash : String} {m : Memory} (hfinds : x.Finds h m)
    (hmarker : m.supersessionMarker = some (.string newHash)) : x.Marked h newHash := by
  obtain ⟨id, hid, hparse, -⟩ := hfinds
  obtain ⟨p, hp, hparse⟩ := Option.bind_eq_some_iff.mp hparse
  exact ⟨_, id, p, hid, hp, (supersessionMarker_of_parse hparse).symm.trans hmarker, rfl⟩

theorem mem_markedBy {memories : List Memory} {h newHash : String} : h ∈ markedBy newHash memories ↔
    ∃ m ∈ memories, m.contentHash = h ∧ m.supersessionMarker = some (.string newHash) := by
  unfold markedBy
  simp only [List.mem_map, List.mem_filter, decide_eq_true_eq]
  constructor
  · rintro ⟨m, ⟨hm, hmarker⟩, rfl⟩
    obtain ⟨v, hv, hstr⟩ := Option.bind_eq_some_iff.mp hmarker
    rw [(Value.asStr_eq_some).mp hstr] at hv
    exact ⟨m, hm, rfl, hv⟩
  · rintro ⟨m, hm, rfl, hmarker⟩
    exact ⟨m, ⟨hm, by rw [hmarker]; rfl⟩, rfl⟩

/-- The write of a merge, when it reports: `none` without a memory to mark, else the marking of those
found. -/
theorem among_mergeWrites (h : Among Service.ServesTruly others
    (mergeWrites canonicalHash duplicateHashes reason calls.found).run s tr (.ok calls) s') :
    (calls.marked = none ∧ mergeFoundHashes canonicalHash duplicateHashes calls.found = [] ∧
      Among Service.ServesTruly others (.done (.ok () : Except AlayaError Unit)) s tr (.ok ()) s') ∨
    ∃ marked, calls.marked = some marked ∧
      mergeFoundHashes canonicalHash duplicateHashes calls.found ≠ [] ∧
      Among Service.ServesTruly others
        (markCalls (mergeFoundHashes canonicalHash duplicateHashes calls.found) canonicalHash
          reason).run s tr (.ok marked) s' := by
  unfold mergeWrites at h
  split at h
  · next hnone =>
    have hcalls := Except.ok.inj h.eq_of_done
    exact .inl ⟨by rw [hcalls], hnone, h.wait⟩
  · next hsome =>
    obtain ⟨tr₁, tr₂, marked, t, rfl, hmark, hdone⟩ := Among.seq_ok h
    have hcalls := Except.ok.inj hdone.eq_of_done
    exact .inr ⟨marked, by rw [hcalls], hsome, hmark.then_wait hdone⟩

/-- What a merge writes asks only for the memories it found. -/
theorem asks_mergeWrites {h : String}
    (hrun : Among Service.ServesTruly others
      (mergeWrites canonicalHash duplicateHashes reason calls.found).run s tr (.ok calls) s')
    (hh : h ∉ mergeFoundHashes canonicalHash duplicateHashes calls.found) :
    ∀ m ∈ tr, ∀ c, m.call = some c → ¬c.Asks h := by
  refine asks_none ?_ hrun
  unfold mergeWrites markCalls
  split
  · exact .pure _
  refine Makes.seq ?_ fun _ => .pure _
  refine (makes_attempt (makes_updateMetadataBatch_of _ _ _ (fun _ => id) fun _ _ _ _ => id)).seq
    fun written => ?_
  rcases written with error | _
  · refine (makes_attempt (makes_getBatch _ hh)).seq fun again => ?_
    rcases again with read | memories
    · exact .pure _
    · exact (makes_writeSupersedesEdges _ _ fun _ _ => id).seq fun _ => .pure _
  · exact (makes_writeSupersedesEdges _ _ fun _ _ => id).seq fun _ => .pure _

/-- The hashes a merge found are those of memories it read. -/
theorem exists_of_mem_found {h : String} {found : List Memory}
    (hh : h ∈ mergeFoundHashes canonicalHash duplicateHashes found) :
    h ∈ mergeCandidates canonicalHash duplicateHashes ∧ ∃ m ∈ found, m.contentHash = h := by
  obtain ⟨hcandidate, hexists⟩ := List.mem_filter.mp hh
  exact ⟨hcandidate, List.mem_map.mp (of_decide_eq_true hexists)⟩

theorem of_once {tr : List (Moment Call Service)} {P : Prop} (h : Once tr fun _ => P) : P := by
  obtain ⟨_, -, h | h⟩ := h
  · exact h
  · exact h

/-- What a named read showed at some moment. -/
theorem once_read {tr : List (Moment Call Service)} {Q R : Service → Prop} (h : Once tr Q)
    (hnamed : ∀ m ∈ tr, m.before.Named name ∧ m.after.Named name)
    (hQ : ∀ x : Service, x.Named name → Q x → R x) : Once tr R := by
  obtain ⟨m, hm, hx⟩ := h
  exact ⟨m, hm, hx.imp (hQ _ (hnamed m hm).1) (hQ _ (hnamed m hm).2)⟩

theorem vanishes_of_read {tr₁ tr₂ : List (Moment Call Service)} {h : String}
    (hnamed : ∀ m ∈ tr₁, m.before.Named name ∧ m.after.Named name)
    (hread : ∀ h ∈ mergeCandidates canonicalHash duplicateHashes, LastRead tr₁ h fun x =>
      Alaya.getBatch x.points (mergeCandidates canonicalHash duplicateHashes) = .ok calls.found)
    (hfound : h ∈ mergeFoundHashes canonicalHash duplicateHashes calls.found)
    (hgone : Once tr₂ fun x => x.Gone h) : Vanishes (tr₁ ++ tr₂) h := by
  obtain ⟨hcandidate, m, hm, rfl⟩ := exists_of_mem_found hfound
  refine ⟨tr₁, tr₂, rfl, once_read (hread _ hcandidate).once hnamed fun x hx hbatch => ?_, hgone⟩
  exact ⟨m, finds_of_getBatch hx hbatch hm⟩

section

variable {tr₁ tr₂ tr₃ : List (Moment Call Service)} {marked : MarkCalls} {h : String}
  (hnamed : ∀ m ∈ tr₁ ++ (tr₂ ++ tr₃), m.before.Named name ∧ m.after.Named name)
  (hread : ∀ h ∈ mergeCandidates canonicalHash duplicateHashes, LastRead tr₁ h fun x =>
    Alaya.getBatch x.points (mergeCandidates canonicalHash duplicateHashes) = .ok calls.found)
  (hshown : marked.Shown tr₂ (mergeFoundHashes canonicalHash duplicateHashes calls.found) canonicalHash)

include hnamed hread hshown

/-- A found memory whose edge is sent was marked, or deleted meanwhile. -/
theorem marked_of_attempted
    (hfound : h ∈ mergeFoundHashes canonicalHash duplicateHashes calls.found)
    (hattempted : h ∈ marked.attempted
      (mergeFoundHashes canonicalHash duplicateHashes calls.found) canonicalHash) :
    (Once (tr₁ ++ (tr₂ ++ tr₃)) fun x => x.Marked h canonicalHash) ∨
      Vanishes (tr₁ ++ (tr₂ ++ tr₃)) h := by
  cases marked with
  | written =>
    refine (once_or (hshown h hfound)).imp (fun honce => Once.right (Once.left honce)) fun hgone => ?_
    exact vanishes_of_read (fun m hm => hnamed m (List.mem_append_left _ hm)) hread hfound
      (Once.left hgone)
  | unread error read => exact absurd hattempted List.not_mem_nil
  | reread error memories =>
    obtain ⟨m, hm, rfl, hmarker⟩ := mem_markedBy.mp hattempted
    have honce := once_read (hshown _ hfound).once
      (fun m hm => hnamed m (List.mem_append_right _ (List.mem_append_left _ hm)))
      fun x hx hbatch => marked_of_finds (finds_of_getBatch hx hbatch hm) hmarker
    exact .inl (Once.right (Once.left honce))

/-- An edge is sent only for a memory that was found. -/
theorem found_of_attempted (hsome : mergeFoundHashes canonicalHash duplicateHashes calls.found ≠ [])
    (hattempted : h ∈ marked.attempted
      (mergeFoundHashes canonicalHash duplicateHashes calls.found) canonicalHash) :
    h ∈ mergeFoundHashes canonicalHash duplicateHashes calls.found := by
  cases marked with
  | written => exact hattempted
  | unread error read => exact absurd hattempted List.not_mem_nil
  | reread error memories =>
    obtain ⟨m, hm, rfl, -⟩ := mem_markedBy.mp hattempted
    -- The point it was read from is the point of a memory found before, and names one hash.
    obtain ⟨first, hfirst⟩ := List.exists_mem_of_ne_nil _ hsome
    refine of_once (once_read (hshown first hfirst).once
      (fun m hm => hnamed m (List.mem_append_right _ (List.mem_append_left _ hm))) fun x hx hbatch => ?_)
    obtain ⟨g, hg, id, hgid, hparse⟩ := (mem_getBatch hbatch m).mp hm
    obtain ⟨hname, -⟩ := hx id m hparse
    obtain ⟨hcandidate, m', hm', rfl⟩ := exists_of_mem_found hg
    have hname' : m'.contentHash = name id := by
      refine of_once (once_read (hread _ hcandidate).once
        (fun m hm => hnamed m (List.mem_append_left _ hm)) fun x' hx' hbatch' => ?_)
      obtain ⟨g', -, id', -, hparse'⟩ := (mem_getBatch hbatch' m').mp hm'
      obtain ⟨hname', hid'⟩ := hx' id' m' hparse'
      obtain rfl := Except.ok.inj (hgid.symm.trans hid')
      exact hname'
    rw [hname, ← hname']
    exact hg

end

/-- **A merge accounts for every memory**, whatever else happens to the stores and whichever of its calls
fail. -/
theorem accounts_of_run (hs : s.Named name)
    (hothers : ∀ t t', others t t' → t.Named name → t'.Named name)
    (hrun : Among Service.ServesTruly others
      (mergeCalls canonicalHash duplicateHashes reason).run s tr (.ok calls) s') :
    MergeAccounts others canonicalHash duplicateHashes calls
      (calls.report canonicalHash duplicateHashes) tr s' := by
  have hnamed := named_mergeCalls hs hothers hrun
  obtain ⟨tr₁, tr₂, t, rfl, hreads, hread, hwrites⟩ := among_mergeCalls hrun
  have hphases := among_mergeWrites hwrites
  have hmarks : calls.Marks canonicalHash duplicateHashes := by
    intro hnone
    rcases hphases with ⟨-, hfound, -⟩ | ⟨marked, hmarked, -⟩
    · exact hfound
    · cases hnone.symm.trans hmarked
  refine ⟨perm_report hmarks, fun h => apart_report, fun h hh => ?_, fun h why hh hwhy => ?_,
    fun h => doubt_report, ?_⟩
  · obtain ⟨marked, hmarked, hfound, hattempted⟩ := mem_superseded.mp hh
    rcases hphases with ⟨hnone, -, -⟩ | ⟨marked', hmarked', -, hmark⟩
    · cases hnone.symm.trans hmarked
    · obtain rfl := Option.some.inj (hmarked.symm.trans hmarked')
      obtain ⟨tr₃, tr₄, t', rfl, -, hshown, -⟩ := among_markCalls hmark
      exact marked_of_attempted hnamed hread hshown hfound hattempted
  · rcases mem_errors.mp hh with hrefused | ⟨marked, hmarked, hfailed⟩
    · rcases mem_refused.mp hrefused with ⟨e, -, he, -⟩ | ⟨hcandidate, hmissing, -⟩
      · exact .inl (by rw [he]; rfl)
      · have hnot : h ∉ mergeFoundHashes canonicalHash duplicateHashes calls.found := fun hfound =>
          hmissing (of_decide_eq_true (List.mem_filter.mp hfound).2)
        refine .inr (((hread h hcandidate).left (asks_mergeWrites hwrites hnot)).mono fun x hbatch m hm => ?_)
        obtain ⟨id, hid, hparse, rfl⟩ := hm
        exact absurd (List.mem_map_of_mem ((mem_getBatch hbatch m).mpr ⟨_, hcandidate, id, hid, hparse⟩))
          hmissing
    · obtain ⟨hfound, ⟨error, read, -, hunknown⟩ | ⟨error, memories, rfl, hnot, -⟩⟩ := mem_failed.mp hfailed
      · exact absurd hunknown hwhy
      rcases hphases with ⟨hnone, -, -⟩ | ⟨marked', hmarked', -, hmark⟩
      · cases hnone.symm.trans hmarked
      obtain rfl := Option.some.inj (hmarked.symm.trans hmarked')
      obtain ⟨tr₃, tr₄, t', rfl, -, hshown, hedges⟩ := among_markCalls hmark
      have hquiet : ∀ m ∈ tr₄, ∀ c, m.call = some c → ¬c.Asks h :=
        asks_none (makes_writeSupersedesEdges _ _ fun _ _ => id) hedges
      refine .inr (((hshown h hfound).left hquiet).right.mono fun x hbatch m hm hmarker => hnot ?_)
      obtain ⟨id, hid, hparse, rfl⟩ := hm
      exact mem_markedBy.mpr ⟨m, (mem_getBatch hbatch m).mpr ⟨_, hfound, id, hid, hparse⟩, rfl, hmarker⟩
  · rcases hphases with ⟨hnone, -, hwait⟩ | ⟨marked, hmarked, hsome, hmark⟩
    · refine ⟨[], fun h => iff_of_false List.not_mem_nil fun hh => ?_, tr₁, tr₂, t, rfl, hreads, hwait⟩
      obtain ⟨marked, hmarked, -⟩ := mem_superseded.mp hh
      cases hnone.symm.trans hmarked
    · obtain ⟨tr₃, tr₄, t', rfl, hquiet, hshown, hedges⟩ := among_markCalls hmark
      refine ⟨_, fun h => ⟨fun hattempted => ?_, fun hh => ?_⟩, tr₁ ++ tr₃, tr₄, t',
        (List.append_assoc ..).symm, hreads.append hquiet, hedges⟩
      · exact mem_superseded.mpr ⟨marked, hmarked,
          found_of_attempted hnamed hread hshown hsome hattempted, hattempted⟩
      · obtain ⟨marked', hmarked', -, hattempted⟩ := mem_superseded.mp hh
        obtain rfl := Option.some.inj (hmarked.symm.trans hmarked')
        exact hattempted

end

theorem succeeds_attempt {α : Type} (p : Flow α) : (attempt p).run.Returns Succeeds :=
  Returns.bind (R := fun _ => True) (.of_forall _ fun _ => trivial) fun r _ => ⟨r, rfl⟩

theorem succeeds_writeSupersedesEdges (oldHashes : List String) (newHash : String) :
    (writeSupersedesEdges oldHashes newHash).run.Returns Succeeds := by
  unfold writeSupersedesEdges
  split
  · exact ⟨(), rfl⟩
  · exact (succeeds_attempt _).seq_succeeds fun _ => ⟨(), rfl⟩

/-- Past its existence read a merge reports. -/
theorem succeeds_mergeWrites (canonicalHash : String) (duplicateHashes : List String) (reason : String)
    (found : List Memory) :
    (mergeWrites canonicalHash duplicateHashes reason found).run.Returns Succeeds := by
  unfold mergeWrites markCalls
  split
  · exact ⟨_, rfl⟩
  refine Returns.seq_succeeds ?_ fun _ => ⟨_, rfl⟩
  refine (succeeds_attempt _).seq_succeeds fun written => ?_
  rcases written with error | _
  · refine (succeeds_attempt _).seq_succeeds fun again => ?_
    rcases again with read | memories
    · exact ⟨_, rfl⟩
    · exact (succeeds_writeSupersedesEdges ..).seq_succeeds fun _ => ⟨_, rfl⟩
  · exact (succeeds_writeSupersedesEdges ..).seq_succeeds fun _ => ⟨_, rfl⟩

/-- **The report of a merge.**  It is what its calls came to; past the existence read there always is one;
and it accounts for every memory, whatever else happens to the stores and whichever of its calls fail. -/
theorem merge_accounts (canonicalHash : String) (duplicateHashes : List String) (reason : String) :
    mergeDuplicates canonicalHash duplicateHashes reason false =
      MergeCalls.report canonicalHash duplicateHashes <$>
        mergeCalls canonicalHash duplicateHashes reason ∧
    (∀ found, (mergeWrites canonicalHash duplicateHashes reason found).run.Returns Succeeds) ∧
    ∀ (name : PointId → String) (others : Service → Service → Prop) (s s' : Service)
      (tr : List (Moment Call Service)) (calls : MergeCalls), s.Named name →
      (∀ t t', others t t' → t.Named name → t'.Named name) →
      Among Service.ServesTruly others
        (mergeCalls canonicalHash duplicateHashes reason).run s tr (.ok calls) s' →
      MergeAccounts others canonicalHash duplicateHashes calls
        (calls.report canonicalHash duplicateHashes) tr s' :=
  ⟨mergeDuplicates_eq .., fun _ => succeeds_mergeWrites .., fun _ _ _ _ _ _ hs hothers hrun =>
    accounts_of_run hs hothers hrun⟩

/-! ### Alone, and with a store that fails -/

/-- Only a point that is not there is called gone. -/
theorem tellsGone_update {op : Op} {id : PointId} {s : Service} :
    (Call.vectors (.update op id)).TellsGone (s.update op id).1 (s.update op id).2 := by
  cases hu : (s.update op id).1 with
  | error e => trivial
  | ok u =>
    intro hgone
    obtain ⟨call, -, hanswer, hland⟩ := Service.update_answer hu
    have hkept : op.land s.mine (s.points id) = none := by
      rcases hgone with hgone | hgone <;> rw [hland, hgone]
    rw [Service.update_kept hkept]
    cases hcell : s.points id with
    | none => rfl
    | some p =>
      rw [hcell] at hanswer
      rcases (UpdateCall.answer_some hanswer).2 with hskipped | ⟨p', hlanded⟩
      · rw [hskipped] at hgone
        rcases hgone with hgone | hgone <;> cases hgone
      · rw [hlanded] at hgone
        rcases hgone with hgone | hgone <;> cases hgone

theorem servesTruly_serve (c : Call) (s : Service) :
    s.ServesTruly c (Service.serve c s).1 (Service.serve c s).2 := by
  refine ⟨.inl rfl, ?_⟩
  cases c with
  | graph | query | enqueueStrengthen => trivial
  | vectors c =>
    cases c with
    | update op id => exact tellsGone_update
    | getByHash | getBatch | existingHashes | retrieve | delete => trivial

def thirdPoint : PointId := uuidToString (List.replicate 32 'c')

/-- The two memories and a third. -/
def threeMemories : Service :=
  { twoMemories with
    points := Function.update twoMemories.points thirdPoint (some (storedPayload "other" thirdHash)) }

/-- The hashes of three memories, by their points. -/
def threeNames (id : PointId) : String :=
  if id = eldestPoint then eldestHash else if id = survivorPoint then survivorHash else thirdHash

theorem named_threeMemories : threeMemories.Named threeNames := by
  intro id m hm
  obtain ⟨p, hp, hparse⟩ := Option.bind_eq_some_iff.mp hm
  change Function.update twoMemories.points thirdPoint (some (storedPayload "other" thirdHash)) id = some p at hp
  have hstored : (id = thirdPoint ∧ p = storedPayload "other" thirdHash) ∨
      (id = eldestPoint ∧ p = storedPayload "old" eldestHash) ∨
      id = survivorPoint ∧ p = storedPayload "new" survivorHash := by
    by_cases hthird : id = thirdPoint
    · subst hthird
      rw [Function.update_self] at hp
      exact .inl ⟨rfl, (Option.some.inj hp).symm⟩
    · rw [Function.update_of_ne hthird] at hp
      exact .inr (points_twoMemories hp)
  rcases hstored with ⟨rfl, rfl⟩ | ⟨rfl, rfl⟩ | ⟨rfl, rfl⟩ <;>
  · obtain rfl := Option.some.inj hparse
    decide +kernel

/-- A store that loses the answers of its marks. -/
def answersLost : Server Reply Service
  | .vectors (.update (.markSuperseded hashes newHash reason) id), s =>
    (.error (.storage "timed out"), (Service.serve (.vectors (.update (.markSuperseded hashes newHash reason) id)) s).2)
  | c, s => Service.serve c s

theorem servesTruly_answersLost (c : Call) (s : Service) :
    s.ServesTruly c (answersLost c s).1 (answersLost c s).2 := by
  unfold answersLost
  split
  · exact ⟨.inr ⟨trivial, .inr rfl⟩, trivial⟩
  · exact servesTruly_serve ..

/-- The batch write fails at its first memory, which is found marked when it is read again; the other one is an
error, and so is a malformed hash. -/
theorem merge_accounts_reread : ∃ tr calls s',
    MergeAccounts Nobody survivorHash [eldestHash, thirdHash, "x"] calls
      (calls.report survivorHash [eldestHash, thirdHash, "x"]) tr s' ∧
    (∃ error memories, calls.marked = some (.reread error memories)) ∧
    (calls.report survivorHash [eldestHash, thirdHash, "x"]).superseded = [eldestHash] ∧
    (calls.report survivorHash [eldestHash, thirdHash, "x"]).errors.map Prod.fst = ["x", thirdHash] := by
  set p := (mergeCalls survivorHash [eldestHash, thirdHash, "x"] "outdated").run with hp
  have hreport : (p.run answersLost threeMemories).1.toOption.map (fun calls =>
      (calls.marked.any fun marked => marked matches .reread ..,
        (calls.report survivorHash [eldestHash, thirdHash, "x"]).superseded,
        (calls.report survivorHash [eldestHash, thirdHash, "x"]).errors.map Prod.fst)) =
      some (true, [eldestHash], ["x", thirdHash]) := by decide +kernel
  obtain ⟨calls, hcalls, hreport⟩ := Option.map_eq_some_iff.mp hreport
  obtain ⟨hreread, hreport⟩ := Prod.mk.inj hreport
  obtain ⟨hsuperseded, herrors⟩ := Prod.mk.inj hreport
  obtain ⟨tr, hrun⟩ : ∃ tr, Among Service.ServesTruly Nobody p threeMemories tr
      (p.run answersLost threeMemories).1 (p.run answersLost threeMemories).2 :=
    Among.alone servesTruly_answersLost p threeMemories
  rw [toOption_eq_some.mp hcalls] at hrun
  refine ⟨tr, calls, _, (merge_accounts survivorHash [eldestHash, thirdHash, "x"] "outdated").2.2 threeNames Nobody
    _ _ _ _ named_threeMemories (fun _ _ h => h.elim) hrun, ?_, hsuperseded, herrors⟩
  cases hmarked : calls.marked with
  | none => simp [hmarked] at hreread
  | some marked =>
    cases marked with
    | reread error memories => exact ⟨error, memories, rfl⟩
    | written | unread => simp [hmarked] at hreread

/-- A store that reads no point alone and answers no batch of one hash. -/
def readsFail : Server Reply Service
  | .vectors (.retrieve _), s | .vectors (.getBatch [_]), s => (.error (.storage "unavailable"), s)
  | c, s => Service.serve c s

theorem servesTruly_readsFail (c : Call) (s : Service) :
    s.ServesTruly c (readsFail c s).1 (readsFail c s).2 := by
  unfold readsFail
  split
  · exact ⟨.inr ⟨trivial, .inl rfl⟩, trivial⟩
  · exact ⟨.inr ⟨trivial, .inl rfl⟩, trivial⟩
  · exact servesTruly_serve ..

/-- **A plain error without a read, and one beside a write and a read that both failed**: a malformed hash
is refused before any read asks for it, and a hash that is not stored is a plain error although neither the
batch write nor its re-read succeeded. -/
theorem merge_plain_errors : ∃ tr calls s', Among Service.ServesTruly Nobody
      (mergeCalls survivorHash [eldestHash, thirdHash, "x"] "outdated").run twoMemories tr (.ok calls) s' ∧
    (∃ error read, calls.marked = some (.unread error read)) ∧
    (calls.report survivorHash [eldestHash, thirdHash, "x"]).errors =
      [("x", "Invalid request parameters"), (thirdHash, "Invalid request parameters"),
        (eldestHash, supersedeOutcomeUnknown)] ∧
    ∀ m ∈ tr, ∀ c, m.call = some c → ¬c.Asks "x" := by
  set p := (mergeCalls survivorHash [eldestHash, thirdHash, "x"] "outdated").run with hp
  have hresult : (p.run readsFail twoMemories).1.toOption.map (fun calls =>
      (calls.marked.any fun marked => marked matches .unread ..,
        (calls.report survivorHash [eldestHash, thirdHash, "x"]).errors)) = some
      (true, [("x", "Invalid request parameters"), (thirdHash, "Invalid request parameters"),
        (eldestHash, supersedeOutcomeUnknown)]) := by decide +kernel
  obtain ⟨calls, hcalls, hresult⟩ := Option.map_eq_some_iff.mp hresult
  obtain ⟨hunread, herrors⟩ := Prod.mk.inj hresult
  obtain ⟨tr, hrun⟩ : ∃ tr, Among Service.ServesTruly Nobody p twoMemories tr
      (p.run readsFail twoMemories).1 (p.run readsFail twoMemories).2 :=
    Among.alone servesTruly_readsFail p twoMemories
  rw [toOption_eq_some.mp hcalls] at hrun
  refine ⟨tr, calls, _, hrun, ?_, herrors, ?_⟩
  · cases hmarked : calls.marked with
    | none => simp [hmarked] at hunread
    | some marked =>
      cases marked with
      | unread error read => exact ⟨error, read, rfl⟩
      | written | reread => simp [hmarked] at hunread
  · have hnot : "x" ∉ mergeCandidates survivorHash [eldestHash, thirdHash, "x"] := by decide +kernel
    have hne : survivorHash ≠ "x" := by decide +kernel
    exact unasked_of_run hne hnot hrun

end Alaya
