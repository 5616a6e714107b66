import Alaya.Core.Refute
import Alaya.Core.Stored

/-!
# The calls each operation makes

For each operation, the calls it can make, whatever it is answered: `Call.OfMark` of a supersession,
`Call.OfReversal` of a reversal, `Call.OfStore` of a store and `Call.OfRefute` of a refute.  What an
operation cannot do is read off these, never by unfolding it again.
-/

namespace Alaya

open Json Interleave Alaya.Flow Program

/-! ### Supersessions -/

/-- The calls of `markSuperseded`. -/
def Call.OfMark (oldHashes : List String) (newHash reason : String) : Call → Prop
  | .vectors (.retrieve _) | .vectors (.getBatch _) => True
  | .vectors (.update op id) => op = .markSuperseded oldHashes newHash reason ∧
      ∃ h ∈ oldHashes, hashToUuid h = .ok id
  | .graph (.createSystemEdge src _) => src = newHash
  | _ => False

theorem makes_createSystemEach {P : Call → Prop} (edges : List (String × String))
    (h : ∀ e ∈ edges, P (.graph (.createSystemEdge e.1 e.2))) :
    (Bridge.createSystemEach edges).run.Makes P := by
  induction edges with
  | nil => exact .pure _
  | cons e edges ih =>
    exact (makes_ask (h e List.mem_cons_self)).seq fun _ =>
      (ih fun e he => h e (List.mem_cons_of_mem _ he)).seq fun _ => .pure _

theorem makes_writeSupersedesEdges {P : Call → Prop} (oldHashes : List String) (newHash : String)
    (h : ∀ old ∈ oldHashes, P (.graph (.createSystemEdge newHash old))) :
    (MemoryService.writeSupersedesEdges oldHashes newHash).run.Makes P := by
  unfold MemoryService.writeSupersedesEdges Bridge.createSystemBatch
  split
  · exact .pure _
  · refine (makes_attempt ?_).seq fun _ => .pure _
    split
    · exact .throw _
    · refine makes_createSystemEach _ fun e he => ?_
      obtain ⟨old, hold, rfl⟩ := List.mem_map.mp he
      exact h old hold

theorem makes_getBatch {P : Call → Prop} (hashes : List String)
    (h : P (.vectors (.getBatch hashes))) : (Vectors.getBatch hashes).run.Makes P := by
  cases hashes with
  | nil => exact .pure _
  | cons g hashes => exact makes_ask h

theorem makes_updateEach {P : Call → Prop} {op : Op} (ids : List PointId)
    (h : ∀ id ∈ ids, P (.vectors (.update op id))) : (Vectors.updateEach op ids).run.Makes P := by
  induction ids with
  | nil => exact .pure _
  | cons id ids ih =>
    exact (makes_ask (h id List.mem_cons_self)).seq fun _ =>
      (ih fun id hid => h id (List.mem_cons_of_mem _ hid)).seq fun _ => .pure _

theorem makes_updateMetadataBatch_of {P : Call → Prop} (oldHashes : List String)
    (newHash reason : String) (hread : ∀ ids, P (.vectors (.retrieve ids)))
    (hupdate : ∀ id h, h ∈ oldHashes → hashToUuid h = .ok id →
      P (.vectors (.update (.markSuperseded oldHashes newHash reason) id))) :
    (Vectors.updateMetadataBatch oldHashes newHash reason).run.Makes P := by
  unfold Vectors.updateMetadataBatch
  split
  · exact .pure _
  · cases hids : oldHashes.mapM hashToUuid with
    | error e => trivial
    | ok ids =>
      have hstrict : (Vectors.updateStrictly (.markSuperseded oldHashes newHash reason)
          ids.eraseDups).run.Makes P := by
        refine (makes_ask (hread _)).seq fun found => ?_
        split
        · exact .pure _
        · refine (Makes.ofExcept _).seq fun _ => makes_updateEach _ fun id hid => ?_
          obtain ⟨h, hh, hhid⟩ := mem_of_mapM_hashToUuid hids (List.mem_eraseDups.mp hid)
          exact hupdate id h hh hhid
      exact hstrict.seq fun outcome => (Makes.ofExcept _).seq fun _ => .pure _

theorem makes_updateMetadataBatch (oldHashes : List String) (newHash reason : String) :
    (Vectors.updateMetadataBatch oldHashes newHash reason).run.Makes
      (Call.OfMark oldHashes newHash reason) :=
  makes_updateMetadataBatch_of oldHashes newHash reason (fun _ => trivial)
    fun _ h hh hid => ⟨rfl, h, hh, hid⟩

theorem makes_markSuperseded (oldHashes : List String) (newHash reason : String) :
    (MemoryService.markSuperseded oldHashes newHash reason).run.Makes
      (Call.OfMark oldHashes newHash reason) := by
  unfold MemoryService.markSuperseded
  refine (makes_attempt (makes_updateMetadataBatch ..)).seq fun updated => ?_
  split
  · exact (makes_writeSupersedesEdges _ _ fun _ _ => rfl).seq fun _ => .pure _
  · refine (makes_attempt (makes_getBatch _ trivial)).seq fun again => ?_
    split
    · exact .pure _
    · exact (makes_writeSupersedesEdges _ _ fun _ _ => rfl).seq fun _ => .pure _

/-! ### Reversals -/

/-- The calls of `memoryUnsupersede`. -/
def Call.OfReversal (contentHash : String) (now : ℚ) : Call → Prop
  | .vectors (.getByHash h) => h = contentHash
  | .vectors (.update op id) => (∃ expected reversal, op = .reverse contentHash expected reversal) ∧
      hashToUuid contentHash = .ok id
  | .graph (.settleContradiction a b via ts) =>
    (a = contentHash ∨ b = contentHash) ∧ via = unsupersedeResolvedVia ∧ ts = now
  | .graph (.unsettleContradiction _ _ via ts) => via = unsupersedeResolvedVia ∧ ts = now
  | .graph (.deleteIncomingSystemEdges dst) | .graph (.createSystemEdge _ dst) => dst = contentHash
  | _ => False

/-- Whether a call is the write of a reversal. -/
def Call.Reverses : Call → Prop
  | .vectors (.update (.reverse ..) _) => True
  | _ => False

/-- The calls of a reversal around its write. -/
def Call.AroundReversal (contentHash : String) (now : ℚ) (c : Call) : Prop :=
  c.OfReversal contentHash now ∧ ¬c.Reverses

section

variable (contentHash : String) (now : ℚ)

theorem makes_settleBoth (survivor : String) :
    (MemoryService.settleBoth contentHash survivor now).run.Makes
      (Call.AroundReversal contentHash now) :=
  (makes_ask ⟨⟨.inl rfl, rfl, rfl⟩, id⟩).seq fun _ =>
    (makes_ask ⟨⟨.inr rfl, rfl, rfl⟩, id⟩).seq fun _ => .pure _

theorem makes_settlePair (marker : Value) :
    (MemoryService.settlePair contentHash marker now).run.Makes
      (Call.AroundReversal contentHash now) := by
  unfold MemoryService.settlePair
  split
  · exact makes_settleBoth ..
  · exact .pure _

theorem makes_deleteIncoming :
    (MemoryService.deleteIncoming contentHash).run.Makes (Call.AroundReversal contentHash now) :=
  (makes_ask ⟨rfl, id⟩).seq fun _ => .pure _

theorem makes_unsettleEach (stamped : List (String × String)) :
    (MemoryService.unsettleEach now stamped).run.Makes (Call.AroundReversal contentHash now) := by
  induction stamped with
  | nil => exact .pure _
  | cons e stamped ih =>
    exact (makes_attempt (makes_ask ⟨⟨rfl, rfl⟩, id⟩)).seq fun _ => ih

theorem makes_restoreEdge (marker : Value) :
    (MemoryService.restoreEdge contentHash marker).run.Makes
      (Call.AroundReversal contentHash now) := by
  unfold MemoryService.restoreEdge
  split
  · refine makes_writeSupersedesEdges _ _ fun old hold => ⟨?_, id⟩
    exact List.mem_singleton.mp hold
  · exact .pure _

theorem makes_afterCleared (edgesRemoved : List String) :
    (MemoryService.afterCleared contentHash edgesRemoved).run.Makes
      (Call.AroundReversal contentHash now) :=
  (makes_attempt (makes_deleteIncoming ..)).seq fun _ =>
    (makes_attempt (makes_ask ⟨rfl, id⟩)).seq fun _ =>
      (makes_restoreEdge ..).seq fun _ => .pure _

theorem makes_afterChanged (stamped : List (String × String)) (current : Value) :
    (MemoryService.afterChanged contentHash stamped current now).run.Makes
      (Call.AroundReversal contentHash now) :=
  (makes_unsettleEach ..).seq fun _ => makes_restoreEdge ..

/-- What follows the write of a reversal. -/
theorem makes_afterReversal {marker : Value} {reason via : String} {edgesRemoved : List String}
    {stamped : List (String × String)} (outcome : ReversalOutcome) :
    (MemoryService.afterReversal contentHash marker reason via now edgesRemoved stamped
      outcome).run.Makes (Call.AroundReversal contentHash now) := by
  cases outcome with
  | cleared => exact (makes_afterCleared ..).seq fun _ => .pure _
  | notSuperseded => exact .pure _
  | supersededByOther => exact (makes_afterChanged ..).seq fun _ => .pure _

theorem makes_reverseSupersession (expected : Value) (reversal : ReversalRecord) :
    (Vectors.reverseSupersession contentHash expected reversal).run.Makes
      (Call.OfReversal contentHash now) := by
  unfold Vectors.reverseSupersession
  cases hid : hashToUuid contentHash with
  | error e => trivial
  | ok id => exact (makes_ask ⟨⟨_, _, rfl⟩, hid⟩).seq fun _ => .ofExcept _

theorem makes_reverseMarked (marker : Value) (reason via : String) :
    (MemoryService.reverseMarked contentHash marker reason via now).run.Makes
      (Call.OfReversal contentHash now) := by
  have haround : ∀ {α : Type} {p : Flow α}, p.run.Makes (Call.AroundReversal contentHash now) →
      p.run.Makes (Call.OfReversal contentHash now) :=
    fun h => h.mono fun _ hc => hc.1
  exact (haround (makes_settlePair ..)).seq fun _ => (haround (makes_deleteIncoming ..)).seq fun _ =>
    (makes_reverseSupersession ..).seq fun _ => haround (makes_afterReversal ..)

theorem makes_memoryUnsupersede (reason via : String) :
    (MemoryService.memoryUnsupersede contentHash reason via now).run.Makes
      (Call.OfReversal contentHash now) := by
  refine Makes.seq (.ofExcept _) fun checked => ?_
  refine Makes.seq (makes_ask rfl) fun memory => ?_
  cases memory with
  | none => exact .throw _
  | some memory =>
    dsimp only
    cases memory.supersessionMarker with
    | none => exact .pure _
    | some marker => exact makes_reverseMarked ..

end

/-! ### Stores -/

/-- The calls of a store of `params`: its queries, one update of the point its hash names, and unless
it is read-only the node and the edges of that hash. -/
def Call.OfStore (lib : Components) (params : StoreParams) (readOnly insertOnly : Bool) :
    Call → Prop
  | .query _ => True
  | .vectors (.update op id) =>
    ∃ ctx, op = .store params ctx (if insertOnly || readOnly then .insertOnly else .upsert) ∧
      ctx.contentHash = lib.generateContentHash params.content ∧ hashToUuid ctx.contentHash = .ok id
  | .graph (.ensureNode h) => readOnly = false ∧ h = lib.generateContentHash params.content
  | .graph (.createTypedEdge src _ rel _ _) =>
    readOnly = false ∧ src = lib.generateContentHash params.content ∧
      (rel = .contradicts ∨ rel = .relatesTo)
  | _ => False

theorem makes_createTypedEach {P : Call → Prop} (edges : List Bridge.TypedEdge)
    (h : ∀ e ∈ edges, P (.graph (.createTypedEdge e.source e.target e.relationType e.createdAt
      e.confidence))) : (Bridge.createTypedEach edges).run.Makes P := by
  induction edges with
  | nil => exact .pure _
  | cons e edges ih =>
    exact (makes_ask (h e List.mem_cons_self)).seq fun _ =>
      (ih fun e he => h e (List.mem_cons_of_mem _ he)).seq fun _ => .pure _

/-- The edges of a new memory leave it, and contradict or relate. -/
theorem mem_interferenceEdges {signals : ScoredMemory → List ContradictionSignal}
    {contentHash : String} {now : ℚ} {window : List ScoredMemory} {e : Bridge.TypedEdge}
    (h : e ∈ MemoryService.interferenceEdges signals contentHash now window) :
    e.source = contentHash ∧ (e.relationType = .contradicts ∨ e.relationType = .relatesTo) := by
  rcases List.mem_append.mp h with h | h
  · obtain ⟨s, -, h⟩ := List.mem_flatMap.mp h
    obtain ⟨signal, -, rfl⟩ := List.mem_map.mp h
    exact ⟨rfl, .inl rfl⟩
  · obtain ⟨s, -, rfl⟩ := List.mem_map.mp h
    exact ⟨rfl, .inr rfl⟩

section

variable (lib : Components) (params : StoreParams) (readOnly insertOnly : Bool) (now : ℚ)

theorem makes_linkStored {P : Call → Prop} {contentHash : String} {edges : List Bridge.TypedEdge}
    (hnode : P (.graph (.ensureNode contentHash)))
    (hedges : ∀ e ∈ edges, P (.graph (.createTypedEdge e.source e.target e.relationType e.createdAt
      e.confidence))) : (MemoryService.linkStored contentHash edges).run.Makes P := by
  refine (makes_attempt (makes_ask hnode)).seq fun _ => ?_
  split
  · exact .pure _
  · refine (makes_attempt ?_).seq fun _ => .pure _
    unfold Bridge.createTypedBatch
    split
    · exact .throw _
    · exact makes_createTypedEach _ hedges

/-- The edges a store makes of the neighbours it was answered. -/
def MemoryService.storeEdges (hits : List ScoredMemory) : List Bridge.TypedEdge :=
  let contentHash := lib.generateContentHash params.content
  MemoryService.interferenceEdges
    (fun s => lib.detectContradictionSignals params.content s.memory s.score) contentHash now
    ((hits.filter fun s => s.memory.contentHash ≠ contentHash).take detectionWindow)

/-- A store writes its point and, unless it is read-only, the node and the edges of its memory. -/
theorem makes_storePoint_of {P : Call → Prop} (embedding : List ℚ)
    (similar : Option (List ScoredMemory))
    (hstore : ∀ ctx id, ctx.contentHash = lib.generateContentHash params.content →
      hashToUuid (lib.generateContentHash params.content) = .ok id → P (.vectors (.update
        (.store params ctx (if insertOnly || readOnly then .insertOnly else .upsert)) id)))
    (hnode : readOnly = false → P (.graph (.ensureNode (lib.generateContentHash params.content))))
    (hedges : readOnly = false → ∀ hits, similar = some hits →
      ∀ e ∈ MemoryService.storeEdges lib params now hits,
        P (.graph (.createTypedEdge e.source e.target e.relationType e.createdAt e.confidence))) :
    (MemoryService.storePoint lib params readOnly insertOnly now embedding similar).run.Makes P := by
  have hpoint : ∀ ctx : StoreContext, ctx.contentHash = lib.generateContentHash params.content →
      (Vectors.store params ctx
        (if insertOnly || readOnly then .insertOnly else .upsert)).run.Makes P := by
    intro ctx hctx
    unfold Vectors.store
    cases hid : hashToUuid ctx.contentHash with
    | error e => trivial
    | ok id => exact (makes_ask (hstore ctx id hctx (hctx ▸ hid))).seq fun _ => .ofExcept _
  unfold MemoryService.storePoint
  refine (hpoint _ rfl).seq fun stored => ?_
  obtain ⟨created, hash⟩ := stored
  dsimp only
  split
  · exact .throw _
  split
  · exact .pure _
  cases readOnly with
  | true => exact .pure _
  | false =>
    refine (makes_linkStored (hnode rfl) ?_).seq fun _ => .pure _
    cases similar with
    | none => exact fun e he => absurd he List.not_mem_nil
    | some hits => exact hedges rfl hits rfl

theorem makes_storePoint (embedding : List ℚ) (similar : Option (List ScoredMemory)) :
    (MemoryService.storePoint lib params readOnly insertOnly now embedding similar).run.Makes
      (Call.OfStore lib params readOnly insertOnly) :=
  makes_storePoint_of lib params readOnly insertOnly now embedding similar
    (fun ctx _ hctx hid => ⟨ctx, rfl, hctx, hctx ▸ hid⟩) (fun hreadOnly => ⟨hreadOnly, rfl⟩)
    fun hreadOnly _ _ _ he => ⟨hreadOnly, mem_interferenceEdges he⟩

theorem makes_storeMemoryMode :
    (MemoryService.storeMemoryMode lib params readOnly insertOnly now).run.Makes
      (Call.OfStore lib params readOnly insertOnly) := by
  have hquery : ∀ {q : Query}, (Call.query q).OfStore lib params readOnly insertOnly := trivial
  have hnear : ∀ embedding, (MemoryService.nearDuplicate embedding
      params.dedupThreshold).run.Makes (Call.OfStore lib params readOnly insertOnly) := by
    intro embedding
    unfold MemoryService.nearDuplicate
    split
    · exact .pure _
    · exact (makes_attempt (makes_ask hquery)).seq fun _ => .pure _
  have hsearch : ∀ embedding, (MemoryService.neighbourSearch embedding readOnly).run.Makes
      (Call.OfStore lib params readOnly insertOnly) := by
    intro embedding
    cases readOnly with
    | true => exact .pure _
    | false => exact (makes_attempt (makes_ask hquery)).seq fun _ => .pure _
  unfold MemoryService.storeMemoryMode
  split
  · exact .throw _
  refine Makes.seq (.ofExcept _) fun _ => Makes.seq (makes_ask hquery) fun embedding => ?_
  split
  · next embedding =>
    refine (hnear embedding).seq fun top => ?_
    split
    · exact .pure _
    · exact (hsearch embedding).seq fun similar => makes_storePoint ..
  · exact .throw _

end

/-! ### Refutes -/

/-- The calls of a refute besides its correction's store. -/
def Call.OfFinish (contentHash correctionHash reason : String) (supersede : Bool) : Call → Prop
  | .vectors (.getBatch _) | .vectors (.getByHash _) | .vectors (.existingHashes _) => True
  | .vectors (.update op id) => op = .supersedeIfLive contentHash correctionHash reason ∧
      hashToUuid contentHash = .ok id ∧ supersede = true
  | .graph (.ensureNode h) => h = contentHash ∨ h = correctionHash
  | .graph (.createSystemEdge src dst) => src = correctionHash ∧ dst = contentHash
  | .graph (.linkRefutation src dst _ r) => src = correctionHash ∧ dst = contentHash ∧ r = reason
  | _ => False

/-- The calls of a refute. -/
def Call.OfRefute (lib : Components) (contentHash : String) (refutation : Refutation)
    (c : Call) : Prop :=
  c.OfStore lib refutation.correction false true ∨
    c.OfFinish contentHash (lib.generateContentHash refutation.content) (trim refutation.reason)
      refutation.supersede

/-- What the first phase hands on. -/
structure RefutePlan.Of (lib : Components) (contentHash : String) (refutation : Refutation)
    (plan : RefutePlan) : Prop where
  valid : validateContentHash contentHash
  contentHash : plan.contentHash = contentHash
  correctionHash : plan.correctionHash = lib.generateContentHash refutation.content
  reason : plan.reason = trim refutation.reason
  supersede : plan.supersede = refutation.supersede

/-- A stage that stores hands on a plan of its own input. -/
def RefuteStage.Of (lib : Components) (contentHash : String) (refutation : Refutation) :
    RefuteStage → Prop
  | .refused _ => True
  | .stored plan => plan.Of lib contentHash refutation

theorem requireReason_eq_ok {raw reason : String} (h : requireReason raw = .ok reason) :
    reason = trim raw := by
  unfold requireReason at h
  dsimp only at h
  split at h
  · cases h
  · exact (Except.ok.inj h).symm

theorem mapError_eq_ok {ε ε' α : Type} {f : ε → ε'} {r : Except ε α} {a : α}
    (h : r.mapError f = .ok a) : r = .ok a := by
  cases r with
  | error e => cases h
  | ok b => exact congrArg Except.ok (Except.ok.inj h)

section

variable {lib : Components} {contentHash : String} {refutation : Refutation} {now : ℚ}

/-- The checks hand on the trimmed reason and the correction's hash, of two different memories. -/
theorem refuteChecked_eq_ok {reason correctionHash : String}
    (h : MemoryService.refuteChecked lib contentHash refutation = .ok (reason, correctionHash)) :
    validateContentHash contentHash ∧ reason = trim refutation.reason ∧
      correctionHash = lib.generateContentHash refutation.content ∧ correctionHash ≠ contentHash := by
  unfold MemoryService.refuteChecked at h
  split at h
  · cases h
  · next hvalid =>
    obtain ⟨trimmed, hreason, h⟩ := bind_eq_ok.mp h
    obtain ⟨_, -, h⟩ := bind_eq_ok.mp h
    dsimp only at h
    split at h
    · cases h
    · next hsame =>
      obtain ⟨rfl, rfl⟩ := Prod.mk.inj (Except.ok.inj h)
      exact ⟨by simpa using hvalid, requireReason_eq_ok (mapError_eq_ok hreason), rfl, hsame⟩

theorem Call.OfRefute.finish {c : Call} (h : c.OfFinish contentHash
    (lib.generateContentHash refutation.content) (trim refutation.reason) refutation.supersede) :
    c.OfRefute lib contentHash refutation := .inr h

theorem makes_correctionUnreadable {correctionHash : String} :
    (MemoryService.correctionUnreadable correctionHash).run.Makes
      (Call.OfRefute lib contentHash refutation) :=
  (makes_ask (.inr trivial)).seq fun _ => .pure _

theorem makes_useExisting {correctionHash : String} :
    (MemoryService.useExisting refutation correctionHash).run.Makes
      (Call.OfRefute lib contentHash refutation) := by
  refine (makes_ask (.inr trivial)).seq fun found => ?_
  cases found with
  | none => exact makes_correctionUnreadable.seq fun _ => .pure _
  | some m =>
    dsimp only
    cases refutation.refusal m <;> exact .pure _

theorem makes_storeCorrection {correctionHash : String} (existing : Option Memory) :
    (MemoryService.storeCorrection lib refutation correctionHash existing now).run.Makes
      (Call.OfRefute lib contentHash refutation) := by
  unfold MemoryService.storeCorrection
  cases existing with
  | some m =>
    dsimp only
    cases refutation.refusal m <;> exact .pure _
  | none =>
    refine (makes_attempt ((makes_storeMemoryMode ..).mono fun _ hc => .inl hc)).seq fun stored => ?_
    rcases stored with e | stored
    · cases e <;> first | exact .pure _ | exact .throw _
    · cases stored with
      | some stored => exact .pure _
      | none =>
        refine makes_useExisting.seq fun used => ?_
        cases used <;> exact .pure _

theorem makes_planRefute {reason correctionHash : String} {wrong : Memory}
    {existing : Option Memory} : (MemoryService.planRefute lib contentHash refutation reason
      correctionHash wrong existing now).run.Makes (Call.OfRefute lib contentHash refutation) := by
  refine (makes_storeCorrection existing).seq fun stored => ?_
  cases stored <;> exact .pure _

theorem makes_refuteStore : (MemoryService.refuteStore lib contentHash refutation now).run.Makes
    (Call.OfRefute lib contentHash refutation) := by
  refine Makes.seq (.ofExcept _) fun ⟨reason, correctionHash⟩ => ?_
  refine Makes.seq (makes_getBatch _ (.inr trivial)) fun found => ?_
  cases found.find? fun m => m.contentHash = contentHash with
  | none => exact .pure _
  | some wrong =>
    dsimp only
    cases MemoryService.wrongRefusal refutation correctionHash wrong with
    | some refused => exact .pure _
    | none => exact makes_planRefute

theorem returns_any {α : Type} (p : Flow α) : p.run.Returns (IfOk fun _ => True) :=
  .of_forall _ fun r => by cases r <;> trivial

/-- The first phase hands on a plan of its own input. -/
theorem returns_refuteStore : (MemoryService.refuteStore lib contentHash refutation now).run.Returns
    (IfOk (RefuteStage.Of lib contentHash refutation)) := by
  refine Returns.seq (.ofExcept fun _ => refuteChecked_eq_ok) fun ⟨reason, correctionHash⟩ hchecked => ?_
  obtain ⟨hvalid, rfl, rfl, -⟩ := hchecked
  refine Returns.seq (returns_any (Vectors.getBatch _)) fun found _ => ?_
  cases found.find? fun m => m.contentHash = contentHash with
  | none => trivial
  | some wrong =>
    dsimp only
    cases MemoryService.wrongRefusal refutation (lib.generateContentHash refutation.content)
      wrong with
    | some refused => trivial
    | none =>
      refine Returns.seq (returns_any (MemoryService.storeCorrection ..)) fun stored _ => ?_
      cases stored with
      | error refused => trivial
      | ok stored => exact ⟨hvalid, rfl, rfl, rfl, rfl⟩

/-- An ending that leaves the pair as it was found. -/
def RefuteEnd.Refuses : RefuteEnd → Prop
  | .superseded | .contradicts => False
  | _ => True

section

variable {plan : RefutePlan}

theorem returns_correctionGone : (MemoryService.correctionGone plan).run.Returns
    (IfOk fun gone => ∀ ending, gone = some ending → ending.Refuses) := by
  refine Returns.seq (returns_any (attempt (Vectors.getByHash _))) fun found _ => ?_
  rcases found with e | (_ | m)
  · exact nofun
  · rintro ending ⟨⟩
    trivial
  · intro ending h
    obtain ⟨marker, -, rfl⟩ := Option.map_eq_some_iff.mp h
    trivial

theorem returns_wrongGone : (MemoryService.wrongGone plan).run.Returns
    (IfOk fun gone => ∀ ending, gone = some ending → ending.Refuses) := by
  refine Returns.seq (returns_any (attempt (Vectors.getByHash _))) fun found _ => ?_
  rcases found with e | (_ | m)
  · exact nofun
  · rintro ending ⟨⟩
    trivial
  · intro ending h
    obtain ⟨marker, -, rfl⟩ := Option.map_eq_some_iff.mp h
    trivial

theorem returns_storedReason (error : AlayaError) : (MemoryService.storedReason plan error).run.Returns
    (IfOk fun reason => ∀ ending, reason = .error ending → ending.Refuses) := by
  refine Returns.seq (returns_any (attempt (Vectors.getByHash _))) fun found _ => ?_
  rcases found with e | (_ | m)
  · rintro ending ⟨⟩
    trivial
  · rintro ending ⟨⟩
    trivial
  · dsimp only
    cases m.supersessionMarker with
    | none =>
      rintro ending ⟨⟩
      trivial
    | some marker =>
      intro ending h
      split at h
      · cases h
      · obtain rfl := Except.error.inj h
        trivial

theorem returns_supersedeReason : (MemoryService.supersedeReason plan).run.Returns
    (IfOk fun reason => ∀ ending, reason = .error ending → ending.Refuses) := by
  refine Returns.seq (returns_any (attempt (Vectors.supersedeIfLive ..))) fun outcome _ => ?_
  rcases outcome with e | (_ | reason | marker)
  · exact returns_storedReason e
  · exact nofun
  · exact nofun
  · rintro ending ⟨⟩
    trivial

theorem returns_linkCorrection : (MemoryService.linkCorrection plan now).run.Returns
    (IfOk fun stored => ∀ ending, stored = .error ending → ending.Refuses) := by
  refine Returns.seq (returns_any (attempt (graph (.ensureNode _)))) fun _ _ => ?_
  refine Returns.seq (returns_any (attempt (graph (.ensureNode _)))) fun _ _ => ?_
  refine Returns.seq (returns_any (attempt (graph (.linkRefutation ..)))) fun stored _ => ?_
  rcases stored with e | (_ | stored)
  · rintro ending ⟨⟩
    trivial
  · rintro ending ⟨⟩
    trivial
  · exact nofun

/-- Only the supersede branch ends superseded. -/
theorem returns_refuteContradicts : (MemoryService.refuteContradicts plan now).run.Returns
    (IfOk fun ending => ending ≠ .superseded) := by
  have hrefuses : ∀ {ending : RefuteEnd}, ending.Refuses → ending ≠ .superseded := by
    rintro ending h rfl
    exact h
  refine Returns.seq returns_correctionGone fun gone hgone => ?_
  rcases gone with _ | ending
  · refine Returns.seq returns_wrongGone fun gone hgone => ?_
    rcases gone with _ | ending
    · refine Returns.seq returns_linkCorrection fun stored hstored => ?_
      rcases stored with ending | stored
      · exact hrefuses (hstored ending rfl)
      · refine Returns.seq returns_wrongGone fun gone hgone => ?_
        rcases gone with _ | ending
        · show (if stored ≠ plan.reason then RefuteEnd.linkReasonConflict stored
            else RefuteEnd.contradicts) ≠ .superseded
          split <;> exact nofun
        · exact hrefuses (hgone ending rfl)
    · exact hrefuses (hgone ending rfl)
  · exact hrefuses (hgone ending rfl)

/-- Only the link branch ends with a contradiction. -/
theorem returns_refuteSupersede : (MemoryService.refuteSupersede plan).run.Returns
    (IfOk fun ending => ending ≠ .contradicts) := by
  have hrefuses : ∀ {ending : RefuteEnd}, ending.Refuses → ending ≠ .contradicts := by
    rintro ending h rfl
    exact h
  refine Returns.seq returns_correctionGone fun gone hgone => ?_
  rcases gone with _ | ending
  · refine Returns.seq returns_supersedeReason fun reason hreason => ?_
    rcases reason with ending | reason
    · exact hrefuses (hreason ending rfl)
    · dsimp only
      split
      · exact nofun
      · exact Returns.seq (returns_any (MemoryService.writeSupersedesEdges ..)) fun _ _ => nofun
  · exact hrefuses (hgone ending rfl)

theorem makes_correctionGone : (MemoryService.correctionGone plan).run.Makes
    (Call.OfRefute lib contentHash refutation) := by
  refine (makes_attempt (makes_ask (.inr trivial))).seq fun found => ?_
  rcases found with e | (_ | m) <;> exact .pure _

theorem makes_wrongGone : (MemoryService.wrongGone plan).run.Makes
    (Call.OfRefute lib contentHash refutation) := by
  refine (makes_attempt (makes_ask (.inr trivial))).seq fun found => ?_
  rcases found with e | (_ | m) <;> exact .pure _

theorem makes_storedReason (error : AlayaError) : (MemoryService.storedReason plan error).run.Makes
    (Call.OfRefute lib contentHash refutation) := by
  refine (makes_attempt (makes_ask (.inr trivial))).seq fun found => ?_
  rcases found with e | (_ | m)
  · exact .pure _
  · exact .pure _
  · dsimp only
    cases m.supersessionMarker <;> exact .pure _

variable (h : plan.Of lib contentHash refutation)

include h

theorem makes_supersedeReason (hsupersede : plan.supersede = true) :
    (MemoryService.supersedeReason plan).run.Makes (Call.OfRefute lib contentHash refutation) := by
  refine (makes_attempt ?_).seq fun outcome => ?_
  · unfold Vectors.supersedeIfLive
    rw [h.contentHash, h.correctionHash, h.reason]
    cases hid : hashToUuid contentHash with
    | error e => trivial
    | ok id =>
      refine (makes_ask (.finish ⟨rfl, hid, ?_⟩)).seq fun _ => Makes.seq (.ofExcept _) fun _ => .pure _
      rw [← h.supersede, hsupersede]
  · rcases outcome with e | outcome
    · exact makes_storedReason e
    · cases outcome <;> exact .pure _

theorem makes_refuteSupersede (hsupersede : plan.supersede = true) :
    (MemoryService.refuteSupersede plan).run.Makes (Call.OfRefute lib contentHash refutation) := by
  refine makes_correctionGone.seq fun gone => ?_
  cases gone with
  | some ending => exact .pure _
  | none =>
    refine (makes_supersedeReason h hsupersede).seq fun reason => ?_
    cases reason with
    | error ending => exact .pure _
    | ok reason =>
      dsimp only
      split
      · exact .pure _
      · refine Makes.seq (makes_writeSupersedesEdges _ _ fun old hold => .finish ⟨h.correctionHash, ?_⟩)
          fun _ => .pure _
        rw [List.mem_singleton.mp hold, h.contentHash]

theorem makes_linkCorrection : (MemoryService.linkCorrection plan now).run.Makes
    (Call.OfRefute lib contentHash refutation) := by
  refine (makes_attempt (makes_ask (.finish (.inl h.contentHash)))).seq fun _ => ?_
  refine (makes_attempt (makes_ask (.finish (.inr h.correctionHash)))).seq fun _ => ?_
  refine (makes_attempt (makes_ask (.finish ⟨h.correctionHash, h.contentHash, h.reason⟩))).seq
    fun stored => ?_
  rcases stored with e | (_ | stored) <;> exact .pure _

theorem makes_refuteContradicts : (MemoryService.refuteContradicts plan now).run.Makes
    (Call.OfRefute lib contentHash refutation) := by
  refine makes_correctionGone.seq fun gone => ?_
  rcases gone with _ | ending
  · refine makes_wrongGone.seq fun gone => ?_
    rcases gone with _ | ending
    · refine (makes_linkCorrection h).seq fun stored => ?_
      rcases stored with ending | stored
      · exact .pure _
      · refine makes_wrongGone.seq fun gone => ?_
        rcases gone with _ | ending <;> exact .pure _
    · exact .pure _
  · exact .pure _

theorem makes_refuteFinish : (MemoryService.refuteFinish plan now).run.Makes
    (Call.OfRefute lib contentHash refutation) := by
  unfold MemoryService.refuteFinish
  split
  · next hsupersede => exact makes_refuteSupersede h hsupersede
  · exact makes_refuteContradicts h

end

theorem makes_memoryRefute : (MemoryService.memoryRefute lib contentHash refutation now).run.Makes
    (Call.OfRefute lib contentHash refutation) := by
  refine Makes.seqOf makes_refuteStore returns_refuteStore fun stage hstage => ?_
  cases stage with
  | refused refusal => exact .pure _
  | stored plan => exact (makes_refuteFinish hstage).seq fun _ => .pure _

end

end Alaya
