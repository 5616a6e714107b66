import Alaya.Backends.Payload
import Alaya.Types.Float

/-!
# What is written is what is read

`memoryToPayload` and `parsePayload` are kept apart and name their keys twice; a patch is a third function
that names them.  A memory read back is the one written, but for what a store never writes, and a patch that
changes nothing changes no key but `updated_at`.

The maps of a memory are objects in key order, so equal maps are equal.
-/

namespace Alaya

open Json

/-- `parse_payload`: the summary embedding is narrowed to singles.  A double that becomes an infinity is no
single of the model. -/
def parseMemory (p : Payload) : Option Memory :=
  (parsePayload p).map fun m =>
    { m with summaryEmbedding := m.summaryEmbedding.map fun xs => xs.filterMap toSingle }

/-- What a store writes of a memory. -/
def Memory.stored (m : Memory) : Memory :=
  { m with
    embedding := none
    supersessionLog := none
    supersessionReason := none
    nearestSimilarity := none }

/-- The numbers of the summary embedding are singles. -/
def Memory.Singles (m : Memory) : Prop := ∀ xs, m.summaryEmbedding = some xs → ∀ x ∈ xs, IsSingle x

/-- A map's members, in key order. -/
def Ordered (o : Object) : Prop := o.Pairwise fun kv lw => kv.1 < lw.1

/-- A map without a null. -/
structure PlainMetadata (m : Memory) (md : Object) : Prop where
  metadata : m.metadata = some md
  ordered : Ordered md
  plain : ∀ kv ∈ md, kv.2 ≠ .null

/-- A patch that changes nothing: each of its fields is what the memory has, and each of its metadata keys
too; a null deletes a key, and changes nothing where there is none. -/
structure PatchMemoryRequest.Redundant (patch : PatchMemoryRequest) (m : Memory) (md : Object) : Prop where
  tags : ∀ tags, patch.tags = some tags → m.tags = tags
  summary : ∀ summary, patch.summary = some summary → m.summary = some summary
  memoryType : ∀ mt, patch.memoryType = some mt → m.memoryType = mt
  summaryEmbedding : ∀ xs, patch.summaryEmbedding = some xs → m.summaryEmbedding = some xs
  metadata : ∀ incoming, patch.metadata = some incoming → ∀ kv ∈ incoming,
    md.get kv.1 = some kv.2 ∨ kv.2 = .null ∧ md.get kv.1 = none

/-! ### Reading what was written -/

theorem filterMap_toSingle {xs : List ℚ} (h : ∀ x ∈ xs, IsSingle x) : xs.filterMap toSingle = xs := by
  induction xs with
  | nil => rfl
  | cons x xs ih =>
    obtain ⟨hx, hxs⟩ := List.forall_mem_cons.mp h
    rw [List.filterMap_cons_some (toSingle_of_isSingle hx), ih hxs]

/-- Each key of a fresh payload. -/
theorem get_memoryToPayload (m : Memory) :
    (memoryToPayload m).get "content" = some (.string m.content) ∧
      (memoryToPayload m).get "content_hash" = some (.string m.contentHash) ∧
      (memoryToPayload m).get "tags" = some (.ofStrings m.tags) ∧
      (memoryToPayload m).get "memory_type" = some (.string m.memoryType) ∧
      (memoryToPayload m).get "created_at" = some (.ofF64 m.createdAt) ∧
      (memoryToPayload m).get "updated_at" = some (.ofF64 m.updatedAt) ∧
      (memoryToPayload m).get "salience_score" = some (.ofF64 m.salienceScore) ∧
      (memoryToPayload m).get "access_count" = some (.ofU64 m.accessCount) ∧
      (memoryToPayload m).get "access_timestamps" = some (.ofF64s m.accessTimestamps) ∧
      (memoryToPayload m).get "metadata" = m.metadata.map .object ∧
      (memoryToPayload m).get "summary" = m.summary.map .string ∧
      (memoryToPayload m).get "emotional_valence" = m.emotionalValence.map .object ∧
      (memoryToPayload m).get "encoding_context" = m.encodingContext.map .object ∧
      (memoryToPayload m).get "provenance" = m.provenance.map .object ∧
      (memoryToPayload m).get "summary_embedding" = m.summaryEmbedding.map .ofF64s := by
  simp [memoryToPayload, Payload.get_insertSome, Object.get_cons, nearestSimilarityKey]

theorem parsePayload_memoryToPayload (m : Memory) : parsePayload (memoryToPayload m) = some m.stored := by
  obtain ⟨hcontent, hhash, htags, htype, hcreated, hupdated, hsalience, hcount, htimestamps, hmetadata, hsummary,
    hvalence, hcontext, hprovenance, hembedding⟩ := get_memoryToPayload m
  obtain ⟨hreason, hlog⟩ := get_memoryToPayload_supersession m
  unfold parsePayload Payload.strings Payload.metadata Payload.accessCount Payload.accessTimestamps Memory.stored
  simp only [hcontent, hhash, htags, htype, hcreated, hupdated, hsalience, hcount, htimestamps, hmetadata,
    hsummary, hvalence, hcontext, hprovenance, hembedding, hreason, hlog]
  simp [Value.ofStrings, Value.ofF64s, Option.bind_map, Function.comp_def]

/-- **A memory read back is the one written.** -/
theorem parseMemory_memoryToPayload {m : Memory} (h : m.Singles) :
    parseMemory (memoryToPayload m) = some m.stored := by
  rw [parseMemory, parsePayload_memoryToPayload, Option.map_some]
  refine congrArg some ?_
  have hxs : m.summaryEmbedding.map (fun xs => xs.filterMap toSingle) = m.summaryEmbedding := by
    cases hm : m.summaryEmbedding with
    | none => rfl
    | some xs => rw [Option.map_some, filterMap_toSingle (h xs hm)]
  show { m.stored with summaryEmbedding := m.summaryEmbedding.map fun xs => xs.filterMap toSingle } = m.stored
  rw [hxs]
  rfl

/-! ### A patch that changes nothing -/

theorem mem_of_get {o : Object} {k : String} {v : Value} (h : o.get k = some v) : (k, v) ∈ o := by
  obtain ⟨before, after, rfl, -⟩ := List.lookup_eq_some_iff.mp h
  exact List.mem_append_right _ List.mem_cons_self

/-- To set a key to the value it has changes nothing. -/
theorem insert_of_get {o : Object} (h : Ordered o) {k : String} {v : Value} (hk : o.get k = some v) :
    o.insert k v = o := by
  induction o with
  | nil => cases hk
  | cons m o ih =>
    obtain ⟨l, w⟩ := m
    obtain ⟨hl, ho⟩ := List.pairwise_cons.mp h
    rw [Object.get_cons] at hk
    unfold Object.insert
    by_cases heq : k = l
    · rw [if_pos heq] at hk
      rw [if_pos heq, Option.some.inj hk, heq]
    · rw [if_neg heq] at hk
      have hlt : ¬k < l := by
        intro hlt
        exact String.lt_irrefl k (String.lt_trans hlt (hl (k, v) (mem_of_get hk)))
      rw [if_neg heq, if_neg hlt, ih ho hk]

/-- To remove a key that is not there changes nothing. -/
theorem erase_of_get {o : Object} {k : String} (hk : o.get k = none) : o.erase k = o := by
  refine List.filter_eq_self.mpr fun m hm => decide_eq_true ?_
  have hne := List.lookup_eq_none_iff.mp hk m hm
  rintro rfl
  simp at hne

theorem mergeMetadata_redundant {md incoming : Object} (hmd : Ordered md) (hplain : ∀ kv ∈ md, kv.2 ≠ .null)
    (h : ∀ kv ∈ incoming, md.get kv.1 = some kv.2 ∨ kv.2 = .null ∧ md.get kv.1 = none) :
    mergeMetadata md incoming = md := by
  unfold mergeMetadata
  induction incoming with
  | nil => rfl
  | cons kv incoming ih =>
    obtain ⟨hkv, hrest⟩ := List.forall_mem_cons.mp h
    have hstep : (if kv.2.isNull then md.erase kv.1 else md.insert kv.1 kv.2) = md := by
      rcases hkv with hsame | ⟨hnull, hnone⟩
      · have hvalue : kv.2.isNull = false := by
          have hne := hplain _ (mem_of_get hsame)
          cases hv : kv.2 <;> simp_all [Value.isNull]
        rw [hvalue]
        exact insert_of_get hmd hsame
      · rw [hnull]
        exact erase_of_get hnone
    rw [List.foldl_cons, hstep]
    exact ih hrest

/-- Setting a key to what it holds leaves every key. -/
theorem get_insertSome_same {p q : Payload} (hpq : ∀ k, q.get k = p.get k) {key : String} {v : Option Value}
    (h : ∀ x, v = some x → p.get key = some x) (k : String) : (q.insertSome key v).get k = p.get k := by
  rw [Payload.get_insertSome]
  by_cases hk : k = key
  · rw [if_pos hk, hpq, hk]
    cases v with
    | none => rfl
    | some x => rw [h x rfl]; rfl
  · rw [if_neg hk, hpq]

variable {m : Memory} {md : Object} {patch : PatchMemoryRequest}

/-- **A patch that changes nothing leaves every key but `updated_at`.** -/
theorem get_applyPatch_redundant (hm : PlainMetadata m md) (h : patch.Redundant m md) (now : ℚ) {k : String}
    (hk : k ≠ "updated_at") : (applyPatch (memoryToPayload m) patch now).get k = (memoryToPayload m).get k := by
  obtain ⟨-, -, htags, htype, -, -, -, -, -, hmetadata, hsummary, -, -, -, hembedding⟩ := get_memoryToPayload m
  have hdrop : dropStaleEmbedding (memoryToPayload m) patch = memoryToPayload m := by
    unfold dropStaleEmbedding
    cases hpatch : patch.summary with
    | none => rfl
    | some summary =>
      have hstored : ((memoryToPayload m).get "summary").bind Value.asStr = some summary := by
        rw [hsummary, h.summary summary hpatch]
        rfl
      exact if_neg fun hstale => hstale.2 hstored
  have hmerge : ((memoryToPayload m).metadata.getD []) = md := by
    rw [Payload.metadata, hmetadata, hm.metadata]
    rfl
  unfold applyPatch
  rw [hdrop, hmerge, Object.get_insert_of_ne hk]
  refine get_insertSome_same (get_insertSome_same (get_insertSome_same (get_insertSome_same
    (get_insertSome_same (fun _ => rfl) ?_) ?_) ?_) ?_) ?_ k
  · intro x hx
    obtain ⟨tags, hpatch, rfl⟩ := Option.map_eq_some_iff.mp hx
    rw [htags, h.tags tags hpatch]
  · intro x hx
    obtain ⟨summary, hpatch, rfl⟩ := Option.map_eq_some_iff.mp hx
    rw [hsummary, h.summary summary hpatch]
    rfl
  · intro x hx
    obtain ⟨mt, hpatch, rfl⟩ := Option.map_eq_some_iff.mp hx
    rw [htype, h.memoryType mt hpatch]
  · intro x hx
    obtain ⟨xs, hpatch, rfl⟩ := Option.map_eq_some_iff.mp hx
    rw [hembedding, h.summaryEmbedding xs hpatch]
    rfl
  · intro x hx
    obtain ⟨incoming, hpatch, rfl⟩ := Option.map_eq_some_iff.mp hx
    rw [hmetadata, hm.metadata, mergeMetadata_redundant hm.ordered hm.plain (h.metadata incoming hpatch)]
    rfl

/-- Payloads with the same keys but `updated_at` parse to the same memory but for it. -/
theorem parseMemory_congr {p q : Payload} (h : ∀ k, k ≠ "updated_at" → q.get k = p.get k) :
    parseMemory q = (parseMemory p).map fun m =>
      { m with updatedAt := ((q.get "updated_at").bind Value.asF64).getD 0 } := by
  unfold parseMemory parsePayload Payload.strings Payload.metadata Payload.accessCount Payload.accessTimestamps
  rw [h "content" (by decide), h "content_hash" (by decide), h "tags" (by decide), h "memory_type" (by decide),
    h "metadata" (by decide), h "created_at" (by decide), h "summary" (by decide), h "salience_score" (by decide),
    h "access_count" (by decide), h "access_timestamps" (by decide), h "emotional_valence" (by decide),
    h "encoding_context" (by decide), h "provenance" (by decide), h "summary_embedding" (by decide),
    h supersessionLogKey (by decide), h supersessionReasonKey (by decide)]
  cases hcontent : (p.get "content").bind Value.asStr with
  | none => simp [Option.bind_eq_bind, ← Option.bind_assoc, hcontent]
  | some content =>
    cases hhash : (p.get "content_hash").bind Value.asStr with
    | none => simp [Option.bind_eq_bind, ← Option.bind_assoc, hhash]
    | some contentHash => simp [Option.bind_eq_bind, ← Option.bind_assoc, hhash]

/-- **The payload codec round-trips.**  A memory of the source's types, its metadata a map without a null, is
read back as it was written, in every field a store writes; and a patch that changes nothing leaves a payload
that is read as the same memory but for `updated_at`. -/
theorem payload_round_trips (hsingles : m.Singles) (hm : PlainMetadata m md) :
    parseMemory (memoryToPayload m) = some m.stored ∧
      ∀ patch now, patch.Redundant m md →
        parseMemory (applyPatch (memoryToPayload m) patch now) = some { m.stored with updatedAt := now } := by
  refine ⟨parseMemory_memoryToPayload hsingles, fun patch now h => ?_⟩
  rw [parseMemory_congr fun k hk => get_applyPatch_redundant hm h now hk, parseMemory_memoryToPayload hsingles]
  have hnow : (applyPatch (memoryToPayload m) patch now).get "updated_at" = some (.ofF64 now) := by
    rw [applyPatch, Object.get_insert_self]
  rw [hnow]
  rfl

/-- A memory with every field a store writes. -/
def fullMemory : Memory where
  content := "kept"
  contentHash := "00"
  tags := ["a", "b"]
  memoryType := "decision"
  metadata := some [("lang", .string "en"), ("source", .object [("line", .null)])]
  createdAt := 1
  updatedAt := 2
  embedding := some [1]
  summary := some "short"
  salienceScore := 1 / 2
  accessCount := 3
  accessTimestamps := [1, 2]
  emotionalValence := some [("mood", .bool true)]
  encodingContext := some []
  provenance := some [("trust_score", .ofF64 1)]
  summaryEmbedding := some [-1 / 2]
  supersessionLog := some []
  supersessionReason := some .null
  nearestSimilarity := some 1

theorem payload_round_trips_full : parseMemory (memoryToPayload fullMemory) = some fullMemory.stored ∧
    parseMemory (applyPatch (memoryToPayload fullMemory)
      { tags := some ["a", "b"], metadata := some [("lang", .string "en"), ("gone", .null)] } 5) =
        some { fullMemory.stored with updatedAt := 5 } := by
  have hsingles : fullMemory.Singles := by
    intro xs hxs x hx
    obtain rfl := Option.some.inj hxs
    obtain rfl := List.mem_singleton.mp hx
    exact ⟨-1, -1, by decide +kernel, by decide, by decide, by decide⟩
  have hm : PlainMetadata fullMemory [("lang", .string "en"), ("source", .object [("line", .null)])] :=
    ⟨rfl, by unfold Ordered; decide, by decide⟩
  obtain ⟨hwritten, hpatched⟩ := payload_round_trips hsingles hm
  refine ⟨hwritten, hpatched _ 5 ⟨?_, ?_, ?_, ?_, ?_⟩⟩
  · exact fun tags htags => Option.some.inj htags
  · exact fun summary h => nomatch h
  · exact fun mt h => nomatch h
  · exact fun xs h => nomatch h
  · intro incoming h
    obtain rfl := Option.some.inj h
    decide

end Alaya
