import Alaya.Core.Quiescence
import Alaya.Core.Sequence
import Alaya.Lib.Chain

/-!
# Chains of supersession

A marker leads from the point of a memory to the point of its survivor.  `MarkerChange` lists what a
call may do to the markers; a supersession keeps every chain finite exactly when its survivor's chain
does not already lead to the memory it supersedes, which a refute checks and a supersede and a merge
do not.
-/

namespace Alaya

open Json Interleave Labelled

/-! ### Markers as a successor function -/

/-- The point a marker names. -/
def markerPoint (marker : Value) : Option PointId :=
  marker.asStr.bind fun h => (hashToUuid h).toOption

/-- The marker a point carries. -/
def Service.marker (s : Service) (id : PointId) : Option Value := (s.points id).bind Payload.marker

/-- The point the marker of a point leads to. -/
def survivorIn (marker : PointId → Option Value) (id : PointId) : Option PointId :=
  (marker id).bind markerPoint

def Service.survivor (s : Service) : PointId → Option PointId := survivorIn s.marker

theorem survivorIn_update (marker : PointId → Option Value) (id : PointId) (v : Option Value) :
    survivorIn (Function.update marker id v) =
      Function.update (survivorIn marker) id (v.bind markerPoint) := by
  funext a
  by_cases ha : a = id
  · subst ha
    rw [survivorIn, Function.update_self, Function.update_self]
  · rw [survivorIn, Function.update_of_ne ha, Function.update_of_ne ha, survivorIn]

theorem markerPoint_string {h : String} {id : PointId} (hid : hashToUuid h = .ok id) :
    markerPoint (.string h) = some id := by
  show (hashToUuid h).toOption = some id
  rw [hid]
  rfl

/-- Every chain of markers ends, and every marker names a point. -/
structure Chained (marker : PointId → Option Value) : Prop where
  ends : ∀ id, Chain.Ends (survivorIn marker) id
  named : ∀ id v, marker id = some v → ∃ id', markerPoint v = some id'

/-! ### What a call does to the markers -/

/-- The hash an operation marks memories with. -/
def Op.survivor : Op → Option String
  | .markSuperseded _ newHash _ | .supersedeIfLive _ newHash _ => some newHash
  | _ => none

/-- A supersession that leaves a marker alone. -/
def Op.Conditional : Op → Prop
  | .supersedeIfLive .. => True
  | _ => False

/-- A call that takes markers away. -/
def Call.Clears : Call → Prop
  | .vectors (.update (.reverse ..) _) | .vectors (.delete _) => True
  | _ => False

/-- What a call may do to the markers. -/
inductive MarkerChange (s : Service) : Call → (PointId → Option Value) → Prop
  | kept {c : Call} : MarkerChange s c s.marker
  | marked {op : Op} {id : PointId} {newHash : String} :
      op.survivor = some newHash → (op.Conditional → s.marker id = none) →
      MarkerChange s (.vectors (.update op id))
        (Function.update s.marker id (some (.string newHash)))
  | cleared {c : Call} {id : PointId} :
      c.Clears → MarkerChange s c (Function.update s.marker id none)

theorem marker_write (s : Service) (op : Op) (id : PointId) (p : Payload) :
    (s.write op id p).marker = Function.update s.marker id p.marker := by
  funext a
  by_cases ha : a = id
  · subst ha
    simp [Service.marker, Service.write]
  · simp [Service.marker, Service.write, ha]

theorem marker_erase (s : Service) (id : PointId) :
    (s.erase id).marker = Function.update s.marker id none := by
  funext a
  by_cases ha : a = id
  · subst ha
    simp [Service.marker, Service.erase]
  · simp [Service.marker, Service.erase, ha]

theorem markerChange_write {s : Service} {op : Op} {id : PointId} {p : Payload}
    (hland : op.land s.mine (s.points id) = some p) :
    MarkerChange s (.vectors (.update op id)) (s.write op id p).marker := by
  have hkept : p.marker = s.marker id →
      MarkerChange s (.vectors (.update op id)) (s.write op id p).marker := by
    intro hsame
    rw [marker_write, hsame, Function.update_eq_self]
    exact .kept
  rw [marker_write] at hkept ⊢
  cases hcell : s.points id with
  | none =>
    rw [hcell] at hland
    obtain ⟨params, ctx, mode, rfl, hrecord⟩ := record_of_created (created_of_land hland)
    exact hkept ((congrArg Record.marker hrecord).trans (by simp [Service.marker, hcell, Record.fresh]))
  | some q =>
    rw [hcell] at hland
    have hlanding := landing_of_land hland
    have hmarker := congrArg Record.marker (record_of_landing hlanding)
    have hq : s.marker id = q.marker := by rw [Service.marker, hcell, Option.bind_some]
    cases op with
    | markSuperseded oldHashes newHash reason =>
      rw [show p.marker = some (.string newHash) from hmarker]
      exact .marked rfl fun h => by cases h
    | supersedeIfLive contentHash newHash reason =>
      rw [show p.marker = some (.string newHash) from hmarker]
      refine .marked rfl fun _ => ?_
      cases hlanding with
      | merge hmerged =>
        cases hmerged with
        | superseded hmd hlive =>
          rw [hq]
          exact (get_of_storedMetadata hmd supersededByKey).symm.trans hlive
        | accessed htime => cases htime
    | reverse contentHash expected reversal =>
      rw [show p.marker = none from hmarker]
      exact .cleared trivial
    | _ => exact hkept (hmarker.trans hq.symm)

/-- **Inversion of a call, for the markers.** -/
theorem markerChange_of_effect {s s' : Service} {c : Call} (h : s.Effect c s') :
    MarkerChange s c s'.marker := by
  cases h with
  | quiet | graph | queued => exact .kept
  | landed hland => exact markerChange_write hland
  | deleted hid =>
    rw [marker_erase]
    exact .cleared trivial

theorem markerChange_serve (c : Call) (s : Service) : MarkerChange s c (Service.serve c s).2.marker :=
  markerChange_of_effect (Service.effect_of_serve c s)

/-! ### What keeps every chain finite -/

/-- The chain of the survivor does not lead to the memory it is to supersede. -/
def Apart (marker : PointId → Option Value) (id : PointId) (newHash : String) : Prop :=
  ∃ y, hashToUuid newHash = .ok y ∧ ¬Chain.Reach (survivorIn marker) y id

section

variable {s : Service} {c : Call} {marker' : PointId → Option Value} {id : PointId}
  {newHash : String}

/-- **A mark of a memory apart from its survivor keeps every chain finite.** -/
theorem Chained.mark (hs : Chained s.marker) (hapart : Apart s.marker id newHash) :
    Chained (Function.update s.marker id (some (.string newHash))) := by
  obtain ⟨y, hy, hreach⟩ := hapart
  refine ⟨fun a => ?_, fun a v hv => ?_⟩
  · rw [survivorIn_update, Option.bind_some, markerPoint_string hy]
    exact Chain.ends_update hs.ends hreach a
  · by_cases ha : a = id
    · subst ha
      rw [Function.update_self] at hv
      exact ⟨y, Option.some.inj hv ▸ markerPoint_string hy⟩
    · rw [Function.update_of_ne ha] at hv
      exact hs.named a v hv

theorem Chained.clear (hs : Chained s.marker) (id : PointId) :
    Chained (Function.update s.marker id none) := by
  refine ⟨fun a => ?_, fun a v hv => ?_⟩
  · rw [survivorIn_update]
    exact Chain.ends_clear hs.ends id a
  · by_cases ha : a = id
    · subst ha
      rw [Function.update_self] at hv
      cases hv
    · rw [Function.update_of_ne ha] at hv
      exact hs.named a v hv

theorem Chained.change (hs : Chained s.marker) (h : MarkerChange s c marker')
    (hmark : ∀ op id newHash, c = .vectors (.update op id) → op.survivor = some newHash →
      (op.Conditional → s.marker id = none) → Apart s.marker id newHash) : Chained marker' := by
  cases h with
  | kept => exact hs
  | marked hsurvivor hlive => exact hs.mark (hmark _ _ _ rfl hsurvivor hlive)
  | cleared => exact hs.clear _

/-- Marks by one survivor of memories apart from it keep the others apart from it. -/
theorem Apart.change (hid : Apart s.marker id newHash) (h : MarkerChange s c marker')
    (hmark : ∀ op id' newHash', c = .vectors (.update op id') → op.survivor = some newHash' →
      newHash' = newHash ∧ Apart s.marker id' newHash) : Apart marker' id newHash := by
  obtain ⟨y, hy, hreach⟩ := hid
  refine ⟨y, hy, ?_⟩
  cases h with
  | kept => exact hreach
  | @marked op id' newHash' hsurvivor =>
    obtain ⟨rfl, y', hy', hreach'⟩ := hmark _ _ _ rfl hsurvivor
    obtain rfl : y = y' := Except.ok.inj (hy.symm.trans hy')
    rw [survivorIn_update]
    exact fun h => hreach ((Chain.reach_update _ hreach').mp h)
  | cleared =>
    rw [survivorIn_update]
    exact fun h => hreach h.of_clear

end

/-! ### One operation -/

/-- A call that marks nothing. -/
def Call.MarksNothing (c : Call) : Prop :=
  ∀ op id, c = .vectors (.update op id) → op.survivor = none

section

open Program Alaya.Flow

variable {s : Service} (hs : Chained s.marker)

include hs

/-- A program that marks nothing keeps every chain finite. -/
theorem chained_of_makes {α : Type} {p : Program Reply α} (hp : p.Makes Call.MarksNothing) :
    wp Service.serve p (fun _ s' => Chained s'.marker) s := by
  refine wp_of_makes (I := fun s' : Service => Chained s'.marker) hp (fun c s' hc hI => ?_) hs
  refine hI.change (markerChange_serve c s') fun op id newHash heq hsurvivor => ?_
  rw [hc op id heq] at hsurvivor
  cases hsurvivor

theorem chained_markSuperseded {oldHashes : List String} {newHash reason : String}
    (hapart : ∀ h ∈ oldHashes, ∀ id, hashToUuid h = .ok id → Apart s.marker id newHash) :
    wp Service.serve (MemoryService.markSuperseded oldHashes newHash reason).run
      (fun _ s' => Chained s'.marker) s := by
  let I : Service → Prop := fun s' => Chained s'.marker ∧
    ∀ h ∈ oldHashes, ∀ id, hashToUuid h = .ok id → Apart s'.marker id newHash
  have hmark : ∀ {c : Call} {s' : Service}, c.OfMark oldHashes newHash reason → I s' →
      ∀ op id newHash', c = .vectors (.update op id) → op.survivor = some newHash' →
        newHash' = newHash ∧ Apart s'.marker id newHash := by
    rintro c s' hc ⟨-, hI⟩ op id newHash' rfl hsurvivor
    obtain ⟨rfl, h, hh, hid⟩ := hc
    exact ⟨(Option.some.inj hsurvivor).symm, hI h hh id hid⟩
  refine (wp_of_makes (I := I) (makes_markSuperseded ..) (fun c s' hc hI => ⟨?_, ?_⟩)
    ⟨hs, hapart⟩).mono fun _ _ hI => hI.1
  · refine hI.1.change (markerChange_serve c s') fun op id newHash' heq hsurvivor _ => ?_
    obtain ⟨rfl, hid⟩ := hmark hc hI op id newHash' heq hsurvivor
    exact hid
  · exact fun h hh id hid => (hI.2 h hh id hid).change (markerChange_serve c s') (hmark hc hI)

theorem chained_memorySupersede {lib : Components} {oldHash newHash reason : String}
    (hapart : ∀ m n, (Operation.supersede oldHash newHash reason).Supersedes lib s m n →
      ∀ id, hashToUuid m = .ok id → Apart s.marker id n) :
    wp Service.serve (MemoryService.memorySupersede oldHash newHash reason).run
      (fun _ s' => Chained s'.marker) s := by
  refine wp_seq.mpr (wp_ofExcept.mpr ?_)
  cases hchecked : MemoryService.supersedeChecked oldHash newHash with
  | error e => exact hs
  | ok _ =>
    obtain ⟨hold, hnew, hne⟩ := MemoryService.supersedeChecked_eq_ok hchecked
    refine wp_seq.mpr (wp_getBatch.mpr ?_)
    cases hbatch : getBatch s.points [oldHash, newHash] with
    | error e => exact hs
    | ok batch =>
      refine wp_seq.mpr (wp_ofExcept.mpr ?_)
      cases hboth : MemoryService.bothFound oldHash newHash batch with
      | error e => exact hs
      | ok _ =>
        have hfound := MemoryService.bothFound_eq_ok hboth
        rw [← Service.batch_of_ok hbatch] at hfound
        have hmark : ∀ h ∈ [oldHash], ∀ id, hashToUuid h = .ok id → Apart s.marker id newHash := by
          intro h hh id hid
          rw [List.mem_singleton.mp hh] at hid
          exact hapart oldHash newHash ⟨rfl, rfl, hold, hnew, hne, hfound⟩ id hid
        refine wp_seq.mpr ((chained_markSuperseded hs hmark).mono fun r s' hs' => ?_)
        rcases r with e | (f | _) <;> exact hs'

theorem chained_mergeInto {canonicalHash reason : String} {duplicateHashes : List String}
    (hapart : ∀ m ∈ MemoryService.mergeCandidates canonicalHash duplicateHashes,
      (∃ w ∈ s.batch (MemoryService.mergeCandidates canonicalHash duplicateHashes),
        w.contentHash = m) → ∀ id, hashToUuid m = .ok id → Apart s.marker id canonicalHash) :
    wp Service.serve (MemoryService.mergeInto canonicalHash duplicateHashes reason).run
      (fun _ s' => Chained s'.marker) s := by
  refine wp_seq.mpr (wp_getBatch.mpr ?_)
  cases hbatch : getBatch s.points
      (MemoryService.mergeCandidates canonicalHash duplicateHashes) with
  | error e => exact hs
  | ok found =>
    dsimp only
    split
    · exact hs
    · refine wp_seq.mpr ((chained_markSuperseded hs fun h hh => ?_).mono fun r s' hs' => ?_)
      · obtain ⟨hcandidate, hexisting⟩ := List.mem_filter.mp hh
        obtain ⟨w, hw, hhash⟩ := List.mem_map.mp (of_decide_eq_true hexisting)
        exact hapart h hcandidate ⟨w, (Service.batch_of_ok hbatch).symm ▸ hw, hhash⟩
      · rcases r with e | (f | _) <;> exact hs'

theorem chained_mergeDuplicates {lib : Components} {canonicalHash reason : String}
    {duplicateHashes : List String} {dryRun : Bool}
    (hapart : ∀ m n, (Operation.merge canonicalHash duplicateHashes reason dryRun).Supersedes lib s
      m n → ∀ id, hashToUuid m = .ok id → Apart s.marker id n) :
    wp Service.serve (MemoryService.mergeDuplicates canonicalHash duplicateHashes reason dryRun).run
      (fun _ s' => Chained s'.marker) s := by
  unfold MemoryService.mergeDuplicates
  split
  · exact hs
  next hvalid =>
  refine wp_seq.mpr (wp_getByHash.mpr ?_)
  rcases hcanonical : getByHash s.points canonicalHash with e | (_ | w)
  · exact hs
  · exact hs
  · cases dryRun with
    | true => exact hs
    | false =>
      refine chained_mergeInto hs fun m hm hfound id hid => hapart m canonicalHash ?_ id hid
      exact ⟨rfl, rfl, by simpa using hvalid, ⟨w, hcanonical⟩, hm, hfound⟩

end

/-! ### Refutes -/

section

open Program Alaya.Flow

variable {s : Service} {lib : Components} {contentHash : String} {refutation : Refutation} {now : ℚ}

/-- A refute that does not supersede marks nothing. -/
theorem marksNothing_of_refute {c : Call} (h : c.OfRefute lib contentHash refutation)
    (hsupersede : refutation.supersede = false) : c.MarksNothing := by
  rintro op id rfl
  rcases h with ⟨ctx, rfl, -⟩ | ⟨rfl, -, htrue⟩
  · rfl
  · rw [hsupersede] at htrue
    cases htrue

/-- The mark of a refute is a conditional one of the wrong memory by the correction. -/
theorem mark_of_refute {op : Op} {id : PointId} {newHash : String}
    (h : (Call.vectors (.update op id)).OfRefute lib contentHash refutation)
    (hsurvivor : op.survivor = some newHash) : op.Conditional ∧ hashToUuid contentHash = .ok id ∧
      newHash = lib.generateContentHash refutation.content := by
  rcases h with ⟨ctx, rfl, -⟩ | ⟨rfl, hid, -⟩
  · cases hsurvivor
  · exact ⟨trivial, hid, (Option.some.inj hsurvivor).symm⟩

theorem not_clears_of_refute {c : Call} (h : c.OfRefute lib contentHash refutation) : ¬c.Clears := by
  intro hclears
  unfold Call.Clears at hclears
  split at hclears
  · rcases h with ⟨ctx, hop, -⟩ | ⟨hop, -⟩ <;> cases hop
  · rcases h with h | h <;> exact h
  · exact hclears

/-- **A refute keeps every chain finite** when the correction is apart from the wrong memory. -/
theorem chained_memoryRefute (hs : Chained s.marker)
    (hapart : ∀ m n, (Operation.refute contentHash refutation now).Supersedes lib s m n →
      ∀ id, hashToUuid m = .ok id → Apart s.marker id n) :
    wp Service.serve (MemoryService.memoryRefute lib contentHash refutation now).run
      (fun _ s' => Chained s'.marker) s := by
  cases hsupersede : refutation.supersede with
  | false =>
    exact chained_of_makes hs (makes_memoryRefute.mono fun c hc => marksNothing_of_refute hc hsupersede)
  | true =>
    by_cases hpasses : ∃ m n, (Operation.refute contentHash refutation now).Supersedes lib s m n
    · obtain ⟨m, n, hmn⟩ := hpasses
      have hid := hapart m n hmn
      obtain ⟨rfl, -, ⟨reason, hchecked⟩, -⟩ := hmn
      obtain ⟨-, -, rfl, -⟩ := refuteChecked_eq_ok hchecked
      -- The mark is conditional, so the wrong memory is still live when it lands.
      let I : Service → Prop := fun s' => Chained s'.marker ∧ ∀ id, hashToUuid m = .ok id →
        s'.marker id = none → Apart s'.marker id (lib.generateContentHash refutation.content)
      refine (wp_of_makes (I := I) makes_memoryRefute (fun c s' hc hI => ?_)
        ⟨hs, fun id h _ => hid id h⟩).mono fun _ _ hI => hI.1
      constructor
      · refine hI.1.change (markerChange_serve c s') fun op id newHash heq hsurvivor hlive => ?_
        subst heq
        obtain ⟨hconditional, hid', rfl⟩ := mark_of_refute hc hsurvivor
        exact hI.2 id hid' (hlive hconditional)
      · intro id hid' hnone
        generalize hmarker : (Service.serve c s').2.marker = marker' at hnone ⊢
        have hchange := markerChange_serve c s'
        rw [hmarker] at hchange
        cases hchange with
        | kept => exact hI.2 id hid' hnone
        | marked hsurvivor _ =>
          obtain ⟨-, hid'', -⟩ := mark_of_refute hc hsurvivor
          obtain rfl := Except.ok.inj (hid'.symm.trans hid'')
          rw [Function.update_self] at hnone
          cases hnone
        | cleared hclears => exact absurd hclears (not_clears_of_refute hc)
    · refine wp_seq.mpr ((refute_refused (fun m n h => hpasses ⟨m, n, h⟩) hsupersede).mono ?_)
      rintro r s' ⟨rfl, hrefuses⟩
      rcases r with e | (refused | plan)
      · exact hs
      · exact hs
      · exact hrefuses.elim

end

/-! ### Runs of operations -/

/-- One operation runs alone, and each memory it is to supersede is apart from its survivor. -/
def AcyclicStep (lib : Components) (s : Service) (e : Operation × Except AlayaError Report)
    (s' : Service) : Prop :=
  (∀ m n, e.1.Supersedes lib s m n → ∀ id, hashToUuid m = .ok id → Apart s.marker id n) ∧
    SeqStep lib s e s'

theorem Call.MarksNothing.store {c : Call} {lib : Components} {params : StoreParams}
    {readOnly insertOnly : Bool} (h : c.OfStore lib params readOnly insertOnly) :
    c.MarksNothing := by
  rintro op id rfl
  obtain ⟨ctx, rfl, -⟩ := h
  rfl

theorem Call.MarksNothing.reversal {c : Call} {contentHash : String} {now : ℚ}
    (h : c.OfReversal contentHash now) : c.MarksNothing := by
  rintro op id rfl
  obtain ⟨⟨expected, reversal, rfl⟩, -⟩ := h
  rfl

open Program Alaya.Flow in
theorem marksNothing_deleteMemory (contentHash : String) :
    (MemoryService.deleteMemory contentHash).run.Makes Call.MarksNothing := by
  have hdelete : (Call.vectors (.delete contentHash)).MarksNothing := fun _ _ h => by cases h
  have hnode : (Call.graph (.deleteNode contentHash)).MarksNothing := fun _ _ h => by cases h
  unfold MemoryService.deleteMemory
  split
  · exact .throw _
  · exact (makes_ask hdelete).seq fun deleted => (makes_attempt (makes_ask hnode)).seq fun _ => .pure _

/-- **One operation keeps every chain finite.** -/
theorem chained_step {lib : Components} {s s' : Service}
    {e : Operation × Except AlayaError Report} (hs : Chained s.marker)
    (h : AcyclicStep lib s e s') : Chained s'.marker := by
  obtain ⟨hapart, hstep⟩ := h
  obtain ⟨op, answer⟩ := e
  refine hstep.of_wp (Q := fun _ s' => Chained s'.marker) ?_
  cases op with
  | store params readOnly insertOnly now =>
    exact Program.wp_map.mpr (chained_of_makes hs ((makes_storeMemoryMode ..).mono fun c hc => .store hc))
  | supersede oldHash newHash reason =>
    exact Program.wp_map.mpr (chained_memorySupersede hs hapart)
  | merge canonicalHash duplicateHashes reason dryRun =>
    exact Program.wp_map.mpr (chained_mergeDuplicates hs hapart)
  | refute contentHash refutation now => exact Program.wp_map.mpr (chained_memoryRefute hs hapart)
  | unsupersede contentHash reason via now =>
    exact Program.wp_map.mpr
      (chained_of_makes hs ((makes_memoryUnsupersede ..).mono fun c hc => .reversal hc))
  | delete contentHash => exact Program.wp_map.mpr (chained_of_makes hs (marksNothing_deleteMemory _))

/-- No memory is marked superseded. -/
def Service.Unmarked (s : Service) : Prop := ∀ id, s.marker id = none

/-- A memory that is not superseded, or no memory at all. -/
def Service.Unhidden (s : Service) (id : PointId) : Prop := s.points id = none ∨ s.marker id = none

/-- **Supersession never hides all of a chain.**  In a run of operations that never supersede a memory
by one its own chain leads to, following the markers from any memory ends in one that is live or not
stored, no chain comes back to where it was, and no set of memories is superseded by its own members. -/
theorem chains_end {lib : Components} {s₀ s : Service}
    {tr : List (Operation × Except AlayaError Report)} (hs₀ : s₀.Unmarked)
    (hrun : Run (AcyclicStep lib) s₀ tr s) :
    (∀ id, ∃ e, Chain.Reach s.survivor id e ∧ s.Unhidden e) ∧
      (∀ id, ¬Relation.TransGen (Chain.Step s.survivor) id id) ∧
      ∀ hidden : Set PointId, hidden.Nonempty →
        ¬∀ id ∈ hidden, ∃ y ∈ hidden, s.survivor id = some y := by
  have hstart : Chained s₀.marker := by
    refine ⟨fun id => .stop ?_, fun id v hv => ?_⟩
    · rw [survivorIn, hs₀ id, Option.bind_none]
    · rw [hs₀ id] at hv
      cases hv
  have hchained : Chained s.marker :=
    hrun.preserves (fun s => Chained s.marker) hstart fun s e s' => chained_step
  refine ⟨fun id => ?_, fun id => (hchained.ends id).not_cycle, ?_⟩
  · obtain ⟨e, hreach, hnone⟩ := (hchained.ends id).exists_end
    refine ⟨e, hreach, .inr ?_⟩
    -- A marker always names a point, so a chain stops at a memory without one.
    by_contra hmarked
    obtain ⟨v, hv⟩ := Option.ne_none_iff_exists'.mp hmarked
    obtain ⟨y, hy⟩ := hchained.named e v hv
    rw [survivorIn, hv, Option.bind_some, hy] at hnone
    cases hnone
  · rintro hidden ⟨id, hid⟩ hclosed
    obtain ⟨e, hreach, hnone⟩ := (hchained.ends id).exists_end
    have hmem : e ∈ hidden := by
      clear hnone
      induction hreach with
      | refl => exact hid
      | tail _ hstep ih =>
        obtain ⟨y, hy, hsurvivor⟩ := hclosed _ ih
        obtain rfl := Option.some.inj (hsurvivor.symm.trans hstep)
        exact hy
    obtain ⟨y, -, hsurvivor⟩ := hclosed e hmem
    exact absurd (hnone.symm.trans hsurvivor) nofun

/-- The functions of a service that stores one text. -/
def plainComponents : Components where
  generateContentHash := fun _ => survivorHash
  computeSalience := fun _ => 0
  captureEncodingContext := fun _ _ => []
  buildProvenance := fun _ _ => []
  detectContradictionSignals := fun _ _ _ => []

theorem unmarked_twoMemories : twoMemories.Unmarked := by
  intro id
  unfold Service.marker
  cases hp : twoMemories.points id with
  | none => rfl
  | some p => rcases points_twoMemories hp with ⟨-, rfl⟩ | ⟨-, rfl⟩ <;> rfl

/-- Without markers a memory is apart from every other. -/
theorem apart_of_unmarked {s : Service} (hs : s.Unmarked) {id y : PointId} {newHash : String}
    (hy : hashToUuid newHash = .ok y) (hne : y ≠ id) : Apart s.marker id newHash := by
  refine ⟨y, hy, fun hreach => ?_⟩
  rcases Relation.ReflTransGen.cases_head hreach with heq | ⟨z, hstep, -⟩
  · exact hne heq
  · rw [Chain.Step, survivorIn, hs y] at hstep
    cases hstep

/-- One supersession: its survivor carries no marker. -/
theorem chains_end_once : ∃ tr s, Run (AcyclicStep plainComponents) twoMemories tr s ∧
    s.survivor eldestPoint = some survivorPoint ∧
    ∀ id, ∃ e, Chain.Reach s.survivor id e ∧ s.Unhidden e := by
  set op : Operation := .supersede eldestHash survivorHash "outdated" with hop
  set s := (runEach plainComponents twoMemories [op]).2 with hs
  have hsurvivor : s.survivor eldestPoint = some survivorPoint := by decide +kernel
  have hstep : AcyclicStep plainComponents twoMemories
      (op, ((op.flow plainComponents).run.run Service.serve twoMemories).1) s := by
    refine ⟨fun m n hmn id hid => ?_, rfl⟩
    obtain ⟨rfl, rfl, -⟩ := hmn
    refine apart_of_unmarked unmarked_twoMemories (y := survivorPoint) (by decide +kernel) ?_
    have hold : hashToUuid eldestHash = .ok eldestPoint := by decide +kernel
    obtain rfl := Except.ok.inj (hold.symm.trans hid)
    decide +kernel
  exact ⟨_, s, Run.single hstep, hsurvivor, (chains_end unmarked_twoMemories (Run.single hstep)).1⟩

/-- **Two memories hide each other**: a memory is superseded by the one that it superseded. -/
theorem mutual_supersession : ∃ tr s, twoMemories.Unmarked ∧
    Run (SeqStep plainComponents) twoMemories tr s ∧
    s.survivor eldestPoint = some survivorPoint ∧ s.survivor survivorPoint = some eldestPoint ∧
    (∀ e, Chain.Reach s.survivor eldestPoint e → ¬s.Unhidden e) ∧
    Relation.TransGen (Chain.Step s.survivor) eldestPoint eldestPoint := by
  set ops : List Operation := [.supersede eldestHash survivorHash "outdated",
    .supersede survivorHash eldestHash "better"] with hops
  set s := (runEach plainComponents twoMemories ops).2 with hs
  have hthere : s.survivor eldestPoint = some survivorPoint := by decide +kernel
  have hback : s.survivor survivorPoint = some eldestPoint := by decide +kernel
  refine ⟨_, s, unmarked_twoMemories, run_runEach _ _ _, hthere, hback, ?_, ?_⟩
  · have hclosed : ∀ e, Chain.Reach s.survivor eldestPoint e → e = eldestPoint ∨ e = survivorPoint := by
      intro e hreach
      induction hreach with
      | refl => exact .inl rfl
      | tail _ hstep ih =>
        rcases ih with rfl | rfl
        · exact .inr (Option.some.inj (hstep.symm.trans hthere))
        · exact .inl (Option.some.inj (hstep.symm.trans hback))
    have hhidden : ∀ {e y}, s.survivor e = some y → ¬s.Unhidden e := by
      rintro e y hy (hgone | hlive)
      · rw [Service.survivor, survivorIn, Service.marker, hgone] at hy
        cases hy
      · rw [Service.survivor, survivorIn, hlive] at hy
        cases hy
    intro e hreach
    rcases hclosed e hreach with rfl | rfl
    · exact hhidden hthere
    · exact hhidden hback
  · exact .tail (.single hthere) hback

end Alaya
