import Alaya.Cluster.Op

/-!
# What each operation leaves

`Landing op mine p p'` lists, once, every way an operation changes a point that is there, and
`Created op mine p'` the one way a point comes to be.  They are the inversions of `Op.land`: what an
operation keeps and what it writes is read off them, never by unfolding a writer.
-/

namespace Alaya

open Json

/-- When an access increment was made; `none` for every other operation. -/
def Op.accessTime : Op → Option ℚ
  | incrementAccess _ now | incrementAccessBatch _ now => some now
  | _ => none

/-- A store creates a point with its own fresh payload. -/
inductive Created : Op → String → Payload → Prop
  | store {params : StoreParams} {ctx : StoreContext} {mode : StoreMode} {mine : String} :
      params.validate = .ok () →
      Created (.store params ctx mode) mine (stamp mine (memoryToPayload (params.memory ctx)) none)

/-- The keys a merging operation writes on a payload `p`. -/
inductive Merged : Op → Payload → Payload → Prop
  | marked {oldHashes : List String} {newHash reason : String} {p : Payload} {md : Object} :
      storedMetadata p = .ok md →
      Merged (.markSuperseded oldHashes newHash reason) p
        (Object.insert "metadata" (.object (md.insert supersededByKey (.string newHash)))
          [(supersessionReasonKey, .string reason)])
  | superseded {contentHash newHash reason : String} {p : Payload} {md : Object} :
      storedMetadata p = .ok md → md.get supersededByKey = none →
      Merged (.supersedeIfLive contentHash newHash reason) p
        (Object.insert "metadata" (.object (md.insert supersededByKey (.string newHash)))
          [(supersessionReasonKey, .string reason)])
  | confirmed {contentHash : String} {atTime : ℚ} {p : Payload} {md : Object} :
      storedMetadata p = .ok md → md.get supersededByKey = none →
      Merged (.confirm contentHash atTime) p
        (Object.insert "metadata" (.object (md.insert lastConfirmedAtKey (.ofF64 atTime))) [])
  | accessed {op : Op} {now : ℚ} {p : Payload} :
      op.accessTime = some now →
      Merged op p [("access_count", .ofU64 (p.accessCount + 1)),
        ("access_timestamps",
          .ofF64s (capTimestamps (p.accessTimestamps ++ [now]) maxAccessTimestamps))]

/-- What a write of an operation leaves of a payload `p`. -/
inductive Landing : Op → String → Payload → Payload → Prop
  | store {params : StoreParams} {ctx : StoreContext} {mine : String} {p : Payload} :
      params.validate = .ok () →
      Landing (.store params ctx .upsert) mine p
        (stamp mine (carryOver (memoryToPayload (params.memory ctx)) p) (some p))
  | patch {contentHash : String} {request : PatchMemoryRequest} {now : ℚ} {mine : String}
      {p : Payload} :
      request.validate = .ok () →
      Landing (.patch contentHash request now) mine p
        (stamp mine (applyPatch p request now) (some p))
  | generatedSummary {contentHash summary : String} {embedding : Option (List ℚ)} {now : ℚ}
      {mine : String} {p : Payload} {existing : Memory} :
      parsePayload p = some existing → existing.summary = none →
      Landing (.generatedSummary contentHash summary embedding now) mine p
        (stamp mine (applyPatch p { summary := some summary, summaryEmbedding := embedding } now)
          (some p))
  | reverse {contentHash : String} {expected : Value} {reversal : ReversalRecord} {mine : String}
      {p : Payload} :
      p.marker = some expected →
      Landing (.reverse contentHash expected reversal) mine p
        (stamp mine (unsupersedePayload p reversal).1 (some p))
  /-- A merge of the keys in `write`; `copy` is the part of `p` the operation read. -/
  | merge {op : Op} {mine : String} {p copy write : Payload} :
      Merged op p write → Landing op mine p (p.merge (stamp mine write (some copy)))

/-! ### The calls the operations become -/

theorem checked_eq_ok {check : Except String Unit} {u : Unit} :
    checked check = .ok u ↔ check = .ok () := by
  cases check <;> simp [checked, Except.mapError]

theorem store_eq_ok {memory : Memory} {mode : StoreMode} {call : UpdateCall}
    (h : store memory mode = .ok call) : ∃ pointId, hashToUuid memory.contentHash = .ok pointId ∧
      call = {
        ids := [pointId]
        keys := none
        commit := .upsert (memoryToPayload memory)
        modify := fun prev => .ok (if mode = .insertOnly then none
          else some (carryOver (memoryToPayload memory) prev)) } := by
  obtain ⟨pointId, hid, h⟩ := bind_eq_ok.mp h
  split at h
  · cases h
  · cases h
    exact ⟨pointId, hid, rfl⟩

theorem call_store_eq_ok {params : StoreParams} {ctx : StoreContext} {mode : StoreMode}
    {call : UpdateCall} (h : (Op.store params ctx mode).call = .ok call) :
    params.validate = .ok () ∧ store (params.memory ctx) mode = .ok call := by
  simp only [Op.call] at h
  split_ifs at h
  · cases h
  · obtain ⟨_, hcheck, h⟩ := bind_eq_ok.mp h
    exact ⟨checked_eq_ok.mp hcheck, h⟩

theorem patchMemory_eq_ok {contentHash : String} {request : PatchMemoryRequest} {now : ℚ}
    {call : UpdateCall} (h : patchMemory contentHash request now = .ok call) :
    ∃ pointId, hashToUuid contentHash = .ok pointId ∧ call = {
      ids := [pointId]
      keys := none
      commit := .payload .replace .strict
      modify := fun prev =>
        match parsePayload prev with
        | none => .error (notFound contentHash)
        | some _ => .ok (some (applyPatch prev request now)) } := by
  unfold patchMemory at h
  split_ifs at h
  obtain ⟨pointId, hid, h⟩ := bind_eq_ok.mp h
  exact ⟨pointId, hid, (Except.ok.inj h).symm⟩

theorem call_patch_eq_ok {contentHash : String} {request : PatchMemoryRequest} {now : ℚ}
    {call : UpdateCall} (h : (Op.patch contentHash request now).call = .ok call) :
    request.validate = .ok () ∧ patchMemory contentHash request now = .ok call := by
  simp only [Op.call] at h
  split_ifs at h
  · cases h
  · obtain ⟨_, hcheck, h⟩ := bind_eq_ok.mp h
    exact ⟨checked_eq_ok.mp hcheck, h⟩

theorem setGeneratedSummary_eq_ok {contentHash summary : String} {embedding : Option (List ℚ)}
    {now : ℚ} {call : UpdateCall}
    (h : setGeneratedSummary contentHash summary embedding now = .ok call) :
    ∃ pointId, hashToUuid contentHash = .ok pointId ∧ call = {
      ids := [pointId]
      keys := none
      commit := .payload .replace .strict
      modify := fun prev =>
        match parsePayload prev with
        | none => .error (notFound contentHash)
        | some existing =>
          .ok (if existing.summary.isSome then none
            else some (applyPatch prev { summary := some summary, summaryEmbedding := embedding }
              now)) } := by
  obtain ⟨pointId, hid, h⟩ := bind_eq_ok.mp h
  exact ⟨pointId, hid, (Except.ok.inj h).symm⟩

theorem reverseSupersession_eq_ok {contentHash : String} {expected : Value}
    {reversal : ReversalRecord} {call : UpdateCall}
    (h : reverseSupersession contentHash expected reversal = .ok call) :
    ∃ pointId, hashToUuid contentHash = .ok pointId ∧ call = {
      ids := [pointId]
      keys := none
      commit := .payload .replace .strict
      modify := fun prev => .ok (if prev.marker = some expected
        then some (unsupersedePayload prev reversal).1 else none) } := by
  obtain ⟨pointId, hid, h⟩ := bind_eq_ok.mp h
  exact ⟨pointId, hid, (Except.ok.inj h).symm⟩

theorem mergeWhileLive_eq_ok {contentHash : String} {readKeys : List String}
    {build : Object → Object × Payload} {call : UpdateCall}
    (h : mergeWhileLive contentHash readKeys build = .ok call) :
    ∃ pointId, hashToUuid contentHash = .ok pointId ∧ call.ids = [pointId] ∧
      call.readKeys = some ("metadata" :: readKeys ++ [revKey, revLogKey]) ∧
      call.commit = .payload .merge .strict ∧
      ∀ prev write, call.modify prev = .ok (some write) → ∃ md, storedMetadata prev = .ok md ∧
        md.get supersededByKey = none ∧
        write = (build md).2.insert "metadata" (.object (build md).1) := by
  obtain ⟨pointId, hid, h⟩ := bind_eq_ok.mp h
  obtain rfl := Except.ok.inj h
  refine ⟨pointId, hid, rfl, rfl, rfl, fun prev write hmod => ?_⟩
  obtain ⟨md, hmd, hmod⟩ := bind_eq_ok.mp hmod
  split_ifs at hmod with hmarker
  · cases hmod
  · refine ⟨md, hmd, by simpa using hmarker, ?_⟩
    exact (Option.some.inj (Except.ok.inj hmod)).symm

theorem updateMetadataBatch_eq_ok {contentHashes : List String} {newHash reason : String}
    {call : UpdateCall}
    (h : updateMetadataBatch contentHashes (supersededUpdate newHash reason) = .ok call) :
    contentHashes.mapM hashToUuid = .ok call.ids ∧
      call.readKeys = some ["metadata", revKey, revLogKey] ∧
      call.commit = .payload .merge .strict ∧
      ∀ prev write, call.modify prev = .ok (some write) → ∃ md, storedMetadata prev = .ok md ∧
        write = Object.insert "metadata" (.object (md.insert supersededByKey (.string newHash)))
          [(supersessionReasonKey, .string reason)] := by
  obtain ⟨pointIds, hids, h⟩ := bind_eq_ok.mp h
  obtain rfl := Except.ok.inj h
  refine ⟨hids, rfl, rfl, fun prev write hmod => ?_⟩
  obtain ⟨md, hmd, hmod⟩ := bind_eq_ok.mp hmod
  exact ⟨md, hmd, (Option.some.inj (Except.ok.inj hmod)).symm⟩

/-- An increment is one access bump on the points it names. -/
theorem call_accessTime {op : Op} {now : ℚ} {call : UpdateCall} (htime : op.accessTime = some now)
    (h : op.call = .ok call) : ∃ pointIds, call = bumpAccess pointIds now := by
  cases op with
  | incrementAccess contentHash now' =>
    obtain rfl := Option.some.inj htime
    obtain ⟨pointId, -, h⟩ := bind_eq_ok.mp (show (_ >>= _) = _ from h)
    exact ⟨[pointId], (Except.ok.inj h).symm⟩
  | incrementAccessBatch contentHashes now' =>
    obtain rfl := Option.some.inj htime
    exact ⟨_, (Except.ok.inj h).symm⟩
  | _ => cases htime

/-! ### Inversion of a write -/

theorem UpdateCall.land_some {call : UpdateCall} {mine : String} {p p' : Payload}
    (h : call.land mine (some p) = some p') : ∃ write,
      call.modify (restrict call.readKeys p) = .ok (some write) ∧
      p' = call.commitOver p (stamp mine write (some (restrict call.readKeys p))) := by
  simp only [land] at h
  split at h
  · next write hmod => exact ⟨write, hmod, (Option.some.inj h).symm⟩
  · cases h
  · cases h

theorem UpdateCall.land_none {call : UpdateCall} {mine : String} {p' : Payload}
    (h : call.land mine none = some p') :
    ∃ insert, call.commit = .upsert insert ∧ p' = stamp mine insert none := by
  simp only [land] at h
  split at h
  · next insert hcommit => exact ⟨insert, hcommit, (Option.some.inj h).symm⟩
  · cases h

theorem Op.land_eq_some {op : Op} {mine : String} {cell : Option Payload} {p : Payload} :
    op.land mine cell = some p ↔ ∃ call, op.call = .ok call ∧ call.land mine cell = some p := by
  unfold Op.land
  cases hcall : op.call <;> simp

theorem UpdateCall.land_merge {call : UpdateCall} {mine : String} {p p' : Payload} {batch : Batch}
    (h : call.land mine (some p) = some p') (hcommit : call.commit = .payload .merge batch) :
    ∃ write, call.modify (restrict call.readKeys p) = .ok (some write) ∧
      p' = p.merge (stamp mine write (some (restrict call.readKeys p))) := by
  obtain ⟨write, hmod, rfl⟩ := land_some h
  refine ⟨write, hmod, ?_⟩
  rw [commitOver, hcommit]

/-- The metadata object is the same on a copy that has the metadata. -/
theorem storedMetadata_only {keys : List String} (h : "metadata" ∈ keys) (p : Payload) :
    storedMetadata (restrict (some keys) p) = storedMetadata p := by
  simp only [restrict, storedMetadata, Object.get_only_of_mem h]

/-- An increment reads the whole access history of a point. -/
theorem accesses_restrict (pointIds : List PointId) (now : ℚ) (p : Payload) :
    (restrict (bumpAccess pointIds now).readKeys p).accessCount = p.accessCount ∧
      (restrict (bumpAccess pointIds now).readKeys p).accessTimestamps = p.accessTimestamps := by
  have hcopy : ∀ k ∈ ["access_count", "access_timestamps"],
      (restrict (bumpAccess pointIds now).readKeys p).get k = p.get k :=
    fun k hk => Object.get_only_of_mem (List.mem_append_left _ hk) p
  constructor
  · rw [Payload.accessCount, hcopy _ (by simp), Payload.accessCount]
  · rw [Payload.accessTimestamps, hcopy _ (by simp), Payload.accessTimestamps]

/-- **Inversion of a write over a payload.** -/
theorem landing_of_land {op : Op} {mine : String} {p p' : Payload}
    (hland : op.land mine (some p) = some p') : Landing op mine p p' := by
  obtain ⟨call, hcall, h⟩ := Op.land_eq_some.mp hland
  clear hland
  cases op with
  | store params ctx mode =>
    obtain ⟨hvalid, hstore⟩ := call_store_eq_ok hcall
    obtain ⟨_, -, rfl⟩ := store_eq_ok hstore
    obtain ⟨write, hmod, rfl⟩ := UpdateCall.land_some h
    cases mode with
    | insertOnly => cases hmod
    | upsert =>
      obtain rfl := Option.some.inj (Except.ok.inj hmod)
      exact .store hvalid
  | patch contentHash request now =>
    obtain ⟨hvalid, hpatch⟩ := call_patch_eq_ok hcall
    obtain ⟨_, -, rfl⟩ := patchMemory_eq_ok hpatch
    obtain ⟨write, hmod, rfl⟩ := UpdateCall.land_some h
    simp only at hmod
    split at hmod
    · cases hmod
    · obtain rfl := Option.some.inj (Except.ok.inj hmod)
      exact .patch hvalid
  | generatedSummary contentHash summary embedding now =>
    obtain ⟨_, -, rfl⟩ := setGeneratedSummary_eq_ok hcall
    obtain ⟨write, hmod, rfl⟩ := UpdateCall.land_some h
    simp only at hmod
    split at hmod
    · cases hmod
    · next existing hparse =>
      split_ifs at hmod with hsummary
      · cases hmod
      · obtain rfl := Option.some.inj (Except.ok.inj hmod)
        exact .generatedSummary hparse (by simpa using hsummary)
  | markSuperseded oldHashes newHash reason =>
    obtain ⟨-, hkeys, hcommit, hwrite⟩ := updateMetadataBatch_eq_ok hcall
    obtain ⟨write, hmod, rfl⟩ := UpdateCall.land_merge h hcommit
    obtain ⟨md, hmd, rfl⟩ := hwrite _ _ hmod
    rw [hkeys, storedMetadata_only (by simp)] at hmd
    exact .merge (.marked hmd)
  | supersedeIfLive contentHash newHash reason =>
    obtain ⟨_, -, -, hkeys, hcommit, hwrite⟩ := mergeWhileLive_eq_ok
      (show Alaya.supersedeIfLive contentHash newHash reason = .ok call from hcall)
    obtain ⟨write, hmod, rfl⟩ := UpdateCall.land_merge h hcommit
    obtain ⟨md, hmd, hlive, rfl⟩ := hwrite _ _ hmod
    rw [hkeys, storedMetadata_only (by simp)] at hmd
    exact .merge (.superseded hmd hlive)
  | reverse contentHash expected reversal =>
    obtain ⟨_, -, rfl⟩ := reverseSupersession_eq_ok hcall
    obtain ⟨write, hmod, rfl⟩ := UpdateCall.land_some h
    simp only [Except.ok.injEq] at hmod
    split_ifs at hmod with hmarker
    obtain rfl := Option.some.inj hmod
    exact .reverse hmarker
  | confirm contentHash atTime =>
    obtain ⟨_, -, -, hkeys, hcommit, hwrite⟩ := mergeWhileLive_eq_ok
      (show confirmMemory contentHash atTime = .ok call from hcall)
    obtain ⟨write, hmod, rfl⟩ := UpdateCall.land_merge h hcommit
    obtain ⟨md, hmd, hlive, rfl⟩ := hwrite _ _ hmod
    rw [hkeys, storedMetadata_only (by simp)] at hmd
    exact .merge (.confirmed hmd hlive)
  | incrementAccess | incrementAccessBatch =>
    obtain ⟨pointIds, rfl⟩ := call_accessTime rfl hcall
    obtain ⟨write, hmod, rfl⟩ := UpdateCall.land_merge h rfl
    obtain rfl := Option.some.inj (Except.ok.inj hmod)
    refine .merge ?_
    obtain ⟨hcount, htimes⟩ := accesses_restrict pointIds _ p
    rw [hcount, htimes]
    exact .accessed rfl

/-- **Inversion of a write that creates its point.** -/
theorem created_of_land {op : Op} {mine : String} {p' : Payload}
    (h : op.land mine none = some p') : Created op mine p' := by
  obtain ⟨call, hcall, h⟩ := Op.land_eq_some.mp h
  obtain ⟨insert, hcommit, rfl⟩ := UpdateCall.land_none h
  cases op with
  | store params ctx mode =>
    obtain ⟨hvalid, hstore⟩ := call_store_eq_ok hcall
    obtain ⟨_, -, rfl⟩ := store_eq_ok hstore
    cases hcommit
    exact .store hvalid
  | patch contentHash request now =>
    obtain ⟨-, hpatch⟩ := call_patch_eq_ok hcall
    obtain ⟨_, -, rfl⟩ := patchMemory_eq_ok hpatch
    cases hcommit
  | generatedSummary contentHash summary embedding now =>
    obtain ⟨_, -, rfl⟩ := setGeneratedSummary_eq_ok hcall
    cases hcommit
  | markSuperseded oldHashes newHash reason =>
    obtain ⟨-, -, hmerge, -⟩ := updateMetadataBatch_eq_ok hcall
    cases hmerge.symm.trans hcommit
  | supersedeIfLive contentHash newHash reason =>
    obtain ⟨_, -, -, -, hmerge, -⟩ := mergeWhileLive_eq_ok
      (show Alaya.supersedeIfLive contentHash newHash reason = .ok call from hcall)
    cases hmerge.symm.trans hcommit
  | reverse contentHash expected reversal =>
    obtain ⟨_, -, rfl⟩ := reverseSupersession_eq_ok hcall
    cases hcommit
  | confirm contentHash atTime =>
    obtain ⟨_, -, -, -, hmerge, -⟩ := mergeWhileLive_eq_ok
      (show confirmMemory contentHash atTime = .ok call from hcall)
    cases hmerge.symm.trans hcommit
  | incrementAccess | incrementAccessBatch =>
    obtain ⟨pointIds, rfl⟩ := call_accessTime rfl hcall
    cases hcommit

end Alaya
