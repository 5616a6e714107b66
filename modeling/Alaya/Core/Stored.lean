import Alaya.Cluster.Supersession
import Alaya.Core.Supersede

/-!
# What the calls do to the stored memories

`Service.Effect` lists, once, what a call may do to the state, and `Updated.Of` what an update
answers.  A memory is the parse of its point's payload: its marker, reason and hash are read off the
payload, and no write but a store's changes its text or its hash.
-/

namespace Alaya

open Json Interleave

/-! ### The memory of a payload -/

section

variable {p q : Payload} {m : Memory}

theorem parsePayload_eq_some (h : parsePayload p = some m) :
    p.get "content" = some (.string m.content) ∧
      p.get "content_hash" = some (.string m.contentHash) ∧ m.metadata = p.metadata ∧
      m.createdAt = ((p.get "created_at").bind Value.asF64).getD 0 ∧
      m.supersessionReason = p.get supersessionReasonKey := by
  unfold parsePayload at h
  simp only [Option.bind_eq_bind, Option.bind_eq_some_iff, Value.asStr_eq_some] at h
  obtain ⟨_, hcontent, content, rfl, _, hhash, contentHash, rfl, h⟩ := h
  obtain rfl := Option.some.inj h
  exact ⟨hcontent, hhash, rfl, rfl, rfl⟩

theorem supersessionMarker_of_parse (h : parsePayload p = some m) :
    m.supersessionMarker = p.marker := by
  rw [Memory.supersessionMarker, (parsePayload_eq_some h).2.2.1]
  rfl

/-- The text of a memory and the hash it is stored under are the same, value for value. -/
structure SameText (p q : Payload) : Prop where
  content : q.get "content" = p.get "content"
  contentHash : q.get "content_hash" = p.get "content_hash"

/-- What is stored where a memory was parsed still parses, under the same hash. -/
theorem SameText.parse (h : SameText p q) (hm : parsePayload q = some m) :
    ∃ m', parsePayload p = some m' ∧ m'.contentHash = m.contentHash := by
  obtain ⟨hcontent, hhash, -⟩ := parsePayload_eq_some hm
  rw [h.content] at hcontent
  rw [h.contentHash] at hhash
  cases hparse : parsePayload p with
  | none => simp [parsePayload, hcontent, hhash] at hparse
  | some m' =>
    have hhash' := (parsePayload_eq_some hparse).2.1
    rw [hhash] at hhash'
    exact ⟨m', rfl, (Value.string.inj (Option.some.inj hhash')).symm⟩

end

theorem Merged.sameText {op : Op} {p write : Payload} (h : Merged op p write) (mine : String)
    (copy : Option Payload) : SameText p (p.merge (stamp mine write copy)) := by
  have hkept : ∀ k, k = "content" ∨ k = "content_hash" → write.get k = none := by
    rintro k (rfl | rfl) <;> cases h <;>
      simp [Object.get_insert, Object.get_cons, supersessionReasonKey]
  constructor <;>
  rw [Object.get_merge, get_stamp_of_ne (by decide) (by decide), hkept _ (by simp), Option.none_or]

/-- No write but a store's changes the text or the hash. -/
theorem sameText_of_landing {op : Op} {mine : String} {p q : Payload} (h : Landing op mine p q)
    (hop : ∀ params ctx mode, op ≠ .store params ctx mode) : SameText p q := by
  cases h with
  | store _ => exact (hop _ _ _ rfl).elim
  | patch _ | generatedSummary _ _ =>
    constructor <;> rw [get_stamp_of_ne (by decide) (by decide), get_applyPatch (by decide)]
  | reverse _ =>
    constructor <;>
    rw [get_stamp_of_ne (by decide) (by decide), unsupersedePayload,
      Object.get_insert_of_ne (by decide), Object.get_erase_of_ne (by decide),
      Object.get_erase_of_ne (by decide), Payload.get_removeMetadata_of_ne (by decide)]
  | merge hmerged => exact hmerged.sameText mine _

/-! ### What a call does -/

/-- What a call may do to the state. -/
inductive Service.Effect (s : Service) : Call → Service → Prop
  | quiet {c : Call} : Effect s c s
  | landed {op : Op} {id : PointId} {p : Payload} :
      op.land s.mine (s.points id) = some p →
      Effect s (.vectors (.update op id)) (s.write op id p)
  | deleted {contentHash : String} {id : PointId} :
      hashToUuid contentHash = .ok id → Effect s (.vectors (.delete contentHash)) (s.erase id)
  | graph {c : GraphCall} : Effect s (.graph c) { s with graph := (c.exec s.graph).2 }
  | queued {pairs : List CoAccessPair} :
      Effect s (.enqueueStrengthen pairs) { s with coAccess := s.coAccess ++ pairs }

theorem Service.effect_of_serve (c : Call) (s : Service) : s.Effect c (Service.serve c s).2 := by
  cases c with
  | graph c => exact .graph
  | query q => exact .quiet
  | enqueueStrengthen pairs => exact .queued
  | vectors c =>
    cases c with
    | update op id =>
      have hland : ∀ call, op.call = .ok call →
          op.land s.mine (s.points id) = call.land s.mine (s.points id) := by
        intro call hcall
        rw [Op.land, hcall]
      show s.Effect _ (s.update op id).2
      unfold Service.update
      cases hcall : op.call with
      | error e => exact .quiet
      | ok call =>
        dsimp only
        cases hcell : call.land s.mine (s.points id) with
        | none => exact .quiet
        | some p => exact .landed ((hland call hcall).trans hcell)
    | delete contentHash =>
      show s.Effect _ (s.delete contentHash).2
      unfold Service.delete Alaya.delete
      cases hid : hashToUuid contentHash with
      | error e => exact .quiet
      | ok id => exact .deleted hid
    | getByHash | getBatch | existingHashes | retrieve => exact .quiet

/-- A write leaves what it answers it landed. -/
theorem UpdateCall.land_eq_answer (call : UpdateCall) (mine : String) (cell : Option Payload) :
    call.land mine cell = match call.answer mine cell with
      | .ok ⟨_, .landed p _⟩ => some p
      | _ => none := by
  unfold land answer
  cases cell with
  | none => cases call.commit <;> rfl
  | some p =>
    simp only
    rcases call.modify (restrict call.readKeys p) with e | _ | write <;> rfl

/-- An update that landed says so. -/
theorem Service.answer_of_land {op : Op} {id : PointId} {s : Service} {p : Payload}
    (h : op.land s.mine (s.points id) = some p) :
    ∃ u created, (s.update op id).1 = .ok u ∧ u.update = .landed p created := by
  unfold Op.land at h
  cases hcall : op.call with
  | error e =>
    rw [hcall] at h
    cases h
  | ok call =>
    rw [hcall] at h
    replace h : call.land s.mine (s.points id) = some p := h
    rw [UpdateCall.land_eq_answer] at h
    split at h
    · next found p' created hanswer =>
      obtain rfl := Option.some.inj h
      refine ⟨⟨found, .landed p' created⟩, created, ?_, rfl⟩
      rw [Service.update, hcall]
      exact hanswer
    · cases h

/-- What an update answers, and whether it landed. -/
theorem Service.update_answer {op : Op} {id : PointId} {s : Service} {r : Updated}
    (h : (s.update op id).1 = .ok r) : ∃ call, op.call = .ok call ∧
      call.answer s.mine (s.points id) = .ok r ∧
      op.land s.mine (s.points id) = match r.update with
        | .landed p _ => some p
        | _ => none := by
  unfold Service.update at h
  cases hcall : op.call with
  | error e =>
    rw [hcall] at h
    cases h
  | ok call =>
    rw [hcall] at h
    have hanswer : call.answer s.mine (s.points id) = .ok r := h
    refine ⟨call, rfl, hanswer, ?_⟩
    rw [Op.land, hcall]
    show call.land s.mine (s.points id) = _
    rw [UpdateCall.land_eq_answer, hanswer]
    rcases r with ⟨found, update⟩
    cases update <;> rfl

/-- A write where there is no point creates it, or finds nothing to write to. -/
theorem UpdateCall.answer_none {call : UpdateCall} {mine : String} {r : Updated}
    (h : call.answer mine none = .ok r) : (∃ p, r.update = .landed p true) ∨ r.update = .absent := by
  unfold UpdateCall.answer at h
  dsimp only at h
  split at h
  · obtain rfl := Except.ok.inj h
    exact .inl ⟨_, rfl⟩
  · obtain rfl := Except.ok.inj h
    exact .inr rfl

/-- A write of a point that is there answers with the copy it read: it landed, or the copy stopped
it. -/
theorem UpdateCall.answer_some {call : UpdateCall} {mine : String} {p : Payload} {r : Updated}
    (h : call.answer mine (some p) = .ok r) : r.found = some (restrict call.readKeys p) ∧
      (r.update = .skipped ∨ ∃ p', r.update = .landed p' false) := by
  unfold UpdateCall.answer at h
  dsimp only at h
  split at h
  · cases h
  · obtain rfl := Except.ok.inj h
    exact ⟨rfl, .inl rfl⟩
  · obtain rfl := Except.ok.inj h
    exact ⟨rfl, .inr ⟨_, rfl⟩⟩

/-- The state an update that landed leaves. -/
theorem Service.update_state {op : Op} {id : PointId} {s : Service} {p : Payload}
    (h : op.land s.mine (s.points id) = some p) : (s.update op id).2 = s.write op id p := by
  obtain ⟨call, hcall, hland⟩ := Op.land_eq_some.mp h
  unfold Service.update
  rw [hcall]
  dsimp only
  rw [hland]

/-- The state an update that did not land leaves. -/
theorem Service.update_kept {op : Op} {id : PointId} {s : Service}
    (h : op.land s.mine (s.points id) = none) : (s.update op id).2 = s := by
  unfold Service.update
  unfold Op.land at h
  cases hcall : op.call with
  | error e => rfl
  | ok call =>
    rw [hcall] at h
    replace h : call.land s.mine (s.points id) = none := h
    dsimp only
    rw [h]

end Alaya
