import Alaya.Cluster.Landing
import Alaya.Lib.Run

/-!
# The record the server keeps of a memory

A payload mixes what callers send with what only the server maintains.  `Record` is the second part
and `Op.revise` says what each operation means for it, in one line each; `record_of_landing` and
`record_of_created` say that the payloads follow it.  Everything about counts, markers, reasons and
logs is then a fact about `Op.revise`.
-/

namespace Alaya

open Json Labelled

/-- The server-maintained fields of a memory. -/
structure Record where
  createdAt : Option Value
  accessCount : UInt64
  accessTimestamps : List ℚ
  marker : Option Value
  lastConfirmedAt : Option Value
  reason : Option Value
  log : Option Value
  deriving DecidableEq

namespace Record

/-- The record of a memory that was just inserted. -/
def fresh (now : ℚ) : Record where
  createdAt := some (.ofF64 now)
  accessCount := 0
  accessTimestamps := []
  marker := none
  lastConfirmedAt := none
  reason := none
  log := none

/-- One more access. -/
def access (now : ℚ) (r : Record) : Record :=
  { r with
    accessCount := r.accessCount + 1
    accessTimestamps := capTimestamps (r.accessTimestamps ++ [now]) maxAccessTimestamps }

/-- A marker and its reason, together. -/
def supersede (newHash reason : String) (r : Record) : Record :=
  { r with marker := some (.string newHash), reason := some (.string reason) }

/-- The entries of the log. -/
def entries (r : Record) : List Value := (r.log.map logEntries).getD []

/-- Take marker and reason off and log what was removed. -/
def reverse (reversal : ReversalRecord) (r : Record) : Record :=
  { r with
    marker := none
    reason := none
    log := some (.array (r.entries ++ [reversalEntry r.marker r.reason reversal])) }

end Record

/-- What an operation does to the record of a memory that is there. -/
def Op.revise : Op → Record → Record
  | store _ ctx _, r => { r with createdAt := r.createdAt.or (some (.ofF64 ctx.now)) }
  | patch .., r | generatedSummary .., r => r
  | markSuperseded _ newHash reason, r | supersedeIfLive _ newHash reason, r =>
    r.supersede newHash reason
  | reverse _ _ reversal, r => r.reverse reversal
  | confirm _ atTime, r => { r with lastConfirmedAt := some (.ofF64 atTime) }
  | incrementAccess _ now, r | incrementAccessBatch _ now, r => r.access now

/-- The record a payload holds. -/
def Payload.record (p : Payload) : Record where
  createdAt := p.get "created_at"
  accessCount := p.accessCount
  accessTimestamps := p.accessTimestamps
  marker := p.marker
  lastConfirmedAt := p.metadataGet lastConfirmedAtKey
  reason := p.get supersessionReasonKey
  log := p.get supersessionLogKey

/-- The payload keys a record is read from. -/
def recordKeys : List String :=
  ["created_at", "access_count", "access_timestamps", "metadata", supersessionReasonKey,
    supersessionLogKey]

theorem record_congr {p q : Payload} (h : ∀ k ∈ recordKeys, p.get k = q.get k) :
    p.record = q.record := by
  have hmeta : ∀ key, p.metadataGet key = q.metadataGet key :=
    Payload.metadataGet_congr (h _ (by simp [recordKeys]))
  rw [Payload.record, Payload.record, Record.mk.injEq]
  refine ⟨h _ (by simp [recordKeys]), ?_, ?_, hmeta _, hmeta _, h _ (by simp [recordKeys]),
    h _ (by simp [recordKeys])⟩
  · rw [Payload.accessCount, h _ (by simp [recordKeys]), Payload.accessCount]
  · rw [Payload.accessTimestamps, h _ (by simp [recordKeys]), Payload.accessTimestamps]

theorem ne_rev_of_mem_recordKeys {k : String} (h : k ∈ recordKeys) :
    k ≠ revKey ∧ k ≠ revLogKey := by
  constructor <;> rintro rfl <;> revert h <;> decide

/-- A stamp leaves the record alone. -/
@[simp] theorem record_stamp (mine : String) (write : Payload) (prev : Option Payload) :
    (stamp mine write prev).record = write.record :=
  record_congr fun _ hk =>
    get_stamp_of_ne (ne_rev_of_mem_recordKeys hk).1 (ne_rev_of_mem_recordKeys hk).2 ..

theorem record_merge_stamp (p : Payload) (mine : String) (write : Payload)
    (prev : Option Payload) :
    Payload.record (p.merge (stamp mine write prev)) = Payload.record (p.merge write) :=
  record_congr fun k hk => by
    rw [Object.get_merge, Object.get_merge,
      get_stamp_of_ne (ne_rev_of_mem_recordKeys hk).1 (ne_rev_of_mem_recordKeys hk).2]

/-! ### A fresh payload and a re-store -/

/-- The metadata of a store that passed its checks holds no key of the server's. -/
theorem metadataGet_memoryToPayload {params : StoreParams} {k why : String}
    (h : params.validate = .ok ()) (hk : (k, why) ∈ reservedMetadataKeys) (hc : k ≠ citationsKey)
    (ctx : StoreContext) : (memoryToPayload (params.memory ctx)).metadataGet k = none := by
  have hmeta : (memoryToPayload (params.memory ctx)).get "metadata" =
      params.metadataWithCitations.map .object := by
    simp [memoryToPayload, StoreParams.memory, Payload.get_insertSome, nearestSimilarityKey,
      Object.get_cons]
  cases hmd : params.metadataWithCitations with
  | none => simp [Payload.metadataGet, Payload.metadata, hmeta, hmd]
  | some md =>
    rw [hmd] at hmeta
    rw [Payload.metadataGet_of_object hmeta]
    exact StoreParams.get_metadata_of_validate h hmd hk hc

theorem record_memoryToPayload {params : StoreParams} (h : params.validate = .ok ())
    (ctx : StoreContext) : (memoryToPayload (params.memory ctx)).record = .fresh ctx.now := by
  obtain ⟨hreason, hlog⟩ := get_memoryToPayload_supersession (params.memory ctx)
  have hmarker := metadataGet_memoryToPayload h (k := supersededByKey) (.head _) (by decide) ctx
  have hconfirmed := metadataGet_memoryToPayload h (k := lastConfirmedAtKey)
    (.tail _ (.tail _ (.head _))) (by decide) ctx
  rw [Payload.record, Record.fresh, Record.mk.injEq]
  refine ⟨?_, ?_, ?_, hmarker, hconfirmed, hreason, hlog⟩
  · simp [memoryToPayload, StoreParams.memory, Payload.get_insertSome, nearestSimilarityKey,
      Object.get_cons]
  · simp [Payload.accessCount, memoryToPayload, StoreParams.memory, Payload.get_insertSome,
      nearestSimilarityKey, Object.get_cons]
  · simp [Payload.accessTimestamps, memoryToPayload, StoreParams.memory, Payload.get_insertSome,
      nearestSimilarityKey, Object.get_cons, Value.ofF64s]

/-- A re-store keeps the record that is stored. -/
theorem record_carryOver {fresh : Payload} {now : ℚ} (hfresh : fresh.record = .fresh now)
    (hshape : fresh.MetadataShape) (p : Payload) : (carryOver fresh p).record =
      { p.record with createdAt := p.record.createdAt.or (some (.ofF64 now)) } := by
  have hkept : ∀ k ∈ carriedKeys, (carryOver fresh p).get k = (p.get k).or (fresh.get k) := by
    intro k hk
    have hne : k ≠ "metadata" ∧ k ≠ "summary_embedding" := by
      constructor <;> rintro rfl <;> revert hk <;> decide
    rw [get_carryOver hne.1 hne.2, if_pos hk]
  rw [Payload.record, Record.fresh, Record.mk.injEq] at hfresh
  obtain ⟨hcreated, hcount, htimes, -, -, hreason, hlog⟩ := hfresh
  rw [Payload.record, Payload.record, Record.mk.injEq]
  refine ⟨?_, ?_, ?_, metadataGet_carryOver hshape p (.inl rfl),
    metadataGet_carryOver hshape p (.inr rfl), ?_, ?_⟩
  · rw [hkept _ (by simp [carriedKeys]), hcreated]
  · rw [Payload.accessCount, hkept _ (by simp [carriedKeys])]
    cases hp : p.get "access_count" with
    | none => simpa [Payload.accessCount, hp] using hcount
    | some v => simp [Payload.accessCount, hp]
  · rw [Payload.accessTimestamps, hkept _ (by simp [carriedKeys])]
    cases hp : p.get "access_timestamps" with
    | none => simpa [Payload.accessTimestamps, hp] using htimes
    | some v => simp [Payload.accessTimestamps, hp]
  · rw [hkept _ (by simp [carriedKeys]), hreason, Option.or_none]
  · rw [hkept _ (by simp [carriedKeys]), hlog, Option.or_none]

/-! ### Patches -/

theorem get_mergeMetadata {k : String} {incoming : Object} (h : incoming.get k = none)
    (merged : Object) : (mergeMetadata merged incoming).get k = merged.get k := by
  induction incoming generalizing merged with
  | nil => rfl
  | cons kv incoming ih =>
    obtain ⟨l, v⟩ := kv
    rw [Object.get_cons] at h
    split_ifs at h with hkl
    rw [mergeMetadata, List.foldl_cons, ← mergeMetadata, ih h]
    dsimp only
    split_ifs
    · exact Object.get_erase_of_ne hkl _
    · exact Object.get_insert_of_ne hkl _ _

theorem get_dropStaleEmbedding {k : String} (h : k ≠ "summary_embedding") (p : Payload)
    (patch : PatchMemoryRequest) : (dropStaleEmbedding p patch).get k = p.get k := by
  unfold dropStaleEmbedding
  split
  · split_ifs
    · exact Object.get_erase_of_ne h p
    · rfl
  · rfl

/-- The keys a patch may write. -/
def patchedKeys : List String :=
  ["tags", "summary", "memory_type", "summary_embedding", "metadata", "updated_at"]

theorem get_applyPatch {k : String} (h : k ∉ patchedKeys) (p : Payload)
    (patch : PatchMemoryRequest) (now : ℚ) : (applyPatch p patch now).get k = p.get k := by
  simp only [patchedKeys, List.mem_cons, List.not_mem_nil, or_false, not_or] at h
  obtain ⟨htags, hsummary, htype, hembedding, hmeta, hupdated⟩ := h
  rw [applyPatch, Object.get_insert_of_ne hupdated, Payload.get_insertSome_of_ne hmeta,
    Payload.get_insertSome_of_ne hembedding, Payload.get_insertSome_of_ne htype,
    Payload.get_insertSome_of_ne hsummary, Payload.get_insertSome_of_ne htags,
    get_dropStaleEmbedding hembedding]

theorem metadataGet_applyPatch {k : String} {patch : PatchMemoryRequest}
    (h : ∀ md, patch.metadata = some md → md.get k = none) (p : Payload) (now : ℚ) :
    (applyPatch p patch now).metadataGet k = p.metadataGet k := by
  have hmeta : (applyPatch p patch now).get "metadata" =
      (patch.metadata.map fun incoming =>
        .object (mergeMetadata (p.metadata.getD []) incoming)).or (p.get "metadata") := by
    rw [applyPatch, Object.get_insert_of_ne (by decide), Payload.get_insertSome, if_pos rfl,
      Payload.get_insertSome_of_ne (by decide), Payload.get_insertSome_of_ne (by decide),
      Payload.get_insertSome_of_ne (by decide), Payload.get_insertSome_of_ne (by decide),
      get_dropStaleEmbedding (by decide)]
  cases hpatch : patch.metadata with
  | none =>
    rw [hpatch] at hmeta
    exact Payload.metadataGet_congr hmeta k
  | some md =>
    rw [hpatch] at hmeta
    rw [Payload.metadataGet_of_object hmeta, get_mergeMetadata (h md hpatch), Payload.metadataGet]
    cases p.metadata <;> rfl

/-- A patch that carries no key of the server's leaves the record alone. -/
theorem record_applyPatch {patch : PatchMemoryRequest}
    (h : ∀ md, patch.metadata = some md →
      md.get supersededByKey = none ∧ md.get lastConfirmedAtKey = none) (p : Payload) (now : ℚ) :
    (applyPatch p patch now).record = p.record := by
  rw [Payload.record, Payload.record, Record.mk.injEq]
  refine ⟨get_applyPatch (by decide) .., ?_, ?_,
    metadataGet_applyPatch (fun md hmd => (h md hmd).1) p now,
    metadataGet_applyPatch (fun md hmd => (h md hmd).2) p now,
    get_applyPatch (by decide) .., get_applyPatch (by decide) ..⟩
  · rw [Payload.accessCount, get_applyPatch (by decide), Payload.accessCount]
  · rw [Payload.accessTimestamps, get_applyPatch (by decide), Payload.accessTimestamps]

/-! ### Reversals and merges -/

theorem record_unsupersedePayload (p : Payload) (reversal : ReversalRecord) :
    (unsupersedePayload p reversal).1.record = p.record.reverse reversal := by
  have hkept : ∀ k, k ≠ "metadata" → k ≠ supersessionReasonKey → k ≠ supersessionLogKey →
      (unsupersedePayload p reversal).1.get k = p.get k := by
    intro k hmeta hreason hlog
    rw [unsupersedePayload, Object.get_insert_of_ne hlog, Object.get_erase_of_ne hlog,
      Object.get_erase_of_ne hreason, Payload.get_removeMetadata_of_ne hmeta]
  have hmeta : ∀ key, (unsupersedePayload p reversal).1.metadataGet key =
      if key = supersededByKey then none else p.metadataGet key := by
    intro key
    rw [← Payload.metadataGet_removeMetadata]
    refine Payload.metadataGet_congr ?_ key
    rw [unsupersedePayload, Object.get_insert_of_ne (by decide),
      Object.get_erase_of_ne (by decide), Object.get_erase_of_ne (by decide)]
  rw [Payload.record, Record.reverse, Record.mk.injEq]
  refine ⟨hkept _ (by decide) (by decide) (by decide), ?_, ?_, by simp [Payload.marker, hmeta],
    by simp [hmeta, Payload.record, supersededByKey, lastConfirmedAtKey], ?_, ?_⟩
  · rw [Payload.accessCount, hkept _ (by decide) (by decide) (by decide)]
    rfl
  · rw [Payload.accessTimestamps, hkept _ (by decide) (by decide) (by decide)]
    rfl
  · rw [unsupersedePayload, Object.get_insert_of_ne (by decide),
      Object.get_erase_of_ne (by decide), Object.get_erase_self]
  · exact Object.get_insert_self ..

/-- The object a merge rewrites is the metadata of the payload, or a new one. -/
theorem get_of_storedMetadata {p : Payload} {md : Object} (h : storedMetadata p = .ok md)
    (k : String) : md.get k = p.metadataGet k := by
  unfold storedMetadata at h
  split at h
  · next hmeta =>
    obtain rfl := Except.ok.inj h
    simp [Payload.metadataGet, Payload.metadata, hmeta]
  · next hmeta =>
    obtain rfl := Except.ok.inj h
    simp [Payload.metadataGet, Payload.metadata, hmeta, Value.asObject]
  · next hmeta =>
    obtain rfl := Except.ok.inj h
    exact (Payload.metadataGet_of_object hmeta k).symm
  · cases h

theorem record_merge_supersede {p : Payload} {md : Object} (h : storedMetadata p = .ok md)
    (newHash reason : String) : Payload.record (p.merge
      (Object.insert "metadata" (.object (md.insert supersededByKey (.string newHash)))
        [(supersessionReasonKey, .string reason)])) = p.record.supersede newHash reason := by
  set write : Payload := Object.insert "metadata"
    (.object (md.insert supersededByKey (.string newHash)))
    [(supersessionReasonKey, .string reason)] with hwrite
  have hget : ∀ k, Object.get (p.merge write) k =
      if k = "metadata" then some (.object (md.insert supersededByKey (.string newHash)))
      else if k = supersessionReasonKey then some (.string reason) else p.get k := by
    intro k
    rw [Object.get_merge, hwrite, Object.get_insert, Object.get_cons, Object.get_nil]
    split_ifs <;> rfl
  have hmeta : ∀ k, Payload.metadataGet (p.merge write) k =
      if k = supersededByKey then some (.string newHash) else p.metadataGet k := by
    intro k
    rw [Payload.metadataGet_of_object ((hget _).trans (if_pos rfl)), Object.get_insert,
      get_of_storedMetadata h]
  rw [Payload.record, Record.supersede, Record.mk.injEq]
  refine ⟨(hget _).trans (by rfl), ?_, ?_, (hmeta _).trans (if_pos rfl),
    (hmeta _).trans (if_neg (by decide)), (hget _).trans (by rfl), (hget _).trans (by rfl)⟩
  · rw [Payload.accessCount, hget]
    rfl
  · rw [Payload.accessTimestamps, hget]
    rfl

theorem record_merge_confirm {p : Payload} {md : Object} (h : storedMetadata p = .ok md)
    (atTime : ℚ) : Payload.record (p.merge
      (Object.insert "metadata" (.object (md.insert lastConfirmedAtKey (.ofF64 atTime))) [])) =
        { p.record with lastConfirmedAt := some (.ofF64 atTime) } := by
  set write : Payload := Object.insert "metadata"
    (.object (md.insert lastConfirmedAtKey (.ofF64 atTime))) [] with hwrite
  have hget : ∀ k, Object.get (p.merge write) k =
      if k = "metadata" then some (.object (md.insert lastConfirmedAtKey (.ofF64 atTime)))
      else p.get k := by
    intro k
    rw [Object.get_merge, hwrite, Object.get_insert, Object.get_nil]
    split_ifs <;> rfl
  have hmeta : ∀ k, Payload.metadataGet (p.merge write) k =
      if k = lastConfirmedAtKey then some (.ofF64 atTime) else p.metadataGet k := by
    intro k
    rw [Payload.metadataGet_of_object ((hget _).trans (if_pos rfl)), Object.get_insert,
      get_of_storedMetadata h]
  rw [Payload.record, Payload.record, Record.mk.injEq]
  refine ⟨(hget _).trans (by rfl), ?_, ?_, (hmeta _).trans (if_neg (by decide)),
    (hmeta _).trans (if_pos rfl), (hget _).trans (by rfl), (hget _).trans (by rfl)⟩
  · rw [Payload.accessCount, hget]
    rfl
  · rw [Payload.accessTimestamps, hget]
    rfl

theorem record_merge_access (p : Payload) (now : ℚ) : Payload.record (p.merge
    [("access_count", .ofU64 (p.accessCount + 1)), ("access_timestamps",
      .ofF64s (capTimestamps (p.accessTimestamps ++ [now]) maxAccessTimestamps))]) =
        p.record.access now := by
  set times := capTimestamps (p.accessTimestamps ++ [now]) maxAccessTimestamps with htimes
  set write : Payload := [("access_count", .ofU64 (p.accessCount + 1)),
    ("access_timestamps", .ofF64s times)] with hwrite
  have hget : ∀ k, Object.get (p.merge write) k =
      if k = "access_count" then some (.ofU64 (p.accessCount + 1))
      else if k = "access_timestamps" then some (.ofF64s times) else p.get k := by
    intro k
    rw [Object.get_merge, hwrite, Object.get_cons, Object.get_cons, Object.get_nil]
    split_ifs <;> rfl
  have hmeta : ∀ k, Payload.metadataGet (p.merge write) k = p.metadataGet k :=
    Payload.metadataGet_congr ((hget _).trans (by rfl))
  rw [Payload.record, Record.access, Record.mk.injEq]
  refine ⟨(hget _).trans (by rfl), ?_, ?_, hmeta _, hmeta _, (hget _).trans (by rfl),
    (hget _).trans (by rfl)⟩
  · rw [Payload.accessCount, hget]
    rfl
  · rw [Payload.accessTimestamps, hget]
    exact Value.filterMap_asF64_ofF64s times

theorem Merged.record {op : Op} {p write : Payload} (h : Merged op p write) :
    Payload.record (p.merge write) = op.revise p.record := by
  cases h with
  | marked hmd => exact record_merge_supersede hmd _ _
  | superseded hmd _ => exact record_merge_supersede hmd _ _
  | confirmed hmd _ => exact record_merge_confirm hmd _
  | accessed htime =>
    rw [record_merge_access]
    cases op with
    | incrementAccess | incrementAccessBatch =>
      obtain rfl := Option.some.inj htime
      rfl
    | _ => cases htime

/-! ### The payloads follow the record -/

/-- **A write does to the payload what its operation does to the record.** -/
theorem record_of_landing {op : Op} {mine : String} {p p' : Payload} (h : Landing op mine p p') :
    p'.record = op.revise p.record := by
  cases h with
  | @store params ctx _ _ hvalid =>
    rw [record_stamp, record_carryOver (record_memoryToPayload hvalid ctx)
      (metadataShape_memoryToPayload _)]
    rfl
  | @patch _ request now _ _ hvalid =>
    rw [record_stamp, record_applyPatch]
    · rfl
    · intro md hmd
      have hrej := PatchMemoryRequest.rejectReserved_of_validate hvalid hmd
      exact ⟨get_eq_none_of_rejectReserved hrej (.head _),
        get_eq_none_of_rejectReserved hrej (.tail _ (.tail _ (.head _)))⟩
  | generatedSummary _ _ =>
    rw [record_stamp, record_applyPatch]
    · rfl
    · intro md hmd
      cases hmd
  | reverse _ =>
    rw [record_stamp, record_unsupersedePayload]
    rfl
  | merge hmerged =>
    rw [record_merge_stamp, hmerged.record]

/-- A point starts with a fresh record. -/
theorem record_of_created {op : Op} {mine : String} {p : Payload} (h : Created op mine p) :
    ∃ params ctx mode, op = .store params ctx mode ∧ p.record = .fresh ctx.now := by
  cases h with
  | @store params ctx mode _ hvalid =>
    exact ⟨params, ctx, mode, rfl, by rw [record_stamp, record_memoryToPayload hvalid ctx]⟩

/-! ### The record over the history of a point -/

/-- The record of a point after one event. -/
def CellEvent.replay : Option Record → CellEvent → Option Record
  | none, .write (.store _ ctx _) _ => some (.fresh ctx.now)
  | none, .write _ _ => none
  | some r, .write op _ => some (op.revise r)
  | _, .erase => none

theorem record_cellStep {cell cell' : Option Payload} {ev : CellEvent}
    (h : CellStep cell ev cell') :
    cell'.map Payload.record = CellEvent.replay (cell.map Payload.record) ev := by
  cases h with
  | @write op mine _ p hland =>
    cases cell with
    | none =>
      obtain ⟨params, ctx, mode, rfl, hrecord⟩ := record_of_created (created_of_land hland)
      exact congrArg some hrecord
    | some q => exact congrArg some (record_of_landing (landing_of_land hland))
  | erase => rfl

/-- **The record of a point is its history replayed.** -/
theorem record_run {c cell : Option Payload} {evs : List CellEvent} (h : Run CellStep c evs cell) :
    cell.map Payload.record = evs.foldl CellEvent.replay (c.map Payload.record) :=
  h.invariant (fun evs cell => cell.map Payload.record =
    evs.foldl CellEvent.replay (c.map Payload.record)) rfl fun evs cell ev cell' _ ih hstep => by
      rw [List.foldl_concat, ← ih, record_cellStep hstep]

end Alaya
