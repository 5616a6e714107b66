import Alaya.Backends.Readers
import Alaya.Cluster.Story

/-!
# Operations are framed by hash

An operation reaches the points its hashes name and no other: every read, write and read-back of a
call is of one of its own points, and so is everything it returns.  A hash names its point by its
first half, so the frame is as fine as that: a memory is safe from every operation addressed to
hashes whose first half is another one, and not from the others.
-/

namespace Alaya

open Json Labelled

/-- The hashes an operation is addressed to. -/
def Op.hashes : Op → List String
  | store _ ctx _ => [ctx.contentHash]
  | patch contentHash .. | generatedSummary contentHash .. | supersedeIfLive contentHash ..
  | reverse contentHash .. | confirm contentHash _ | incrementAccess contentHash _ => [contentHash]
  | markSuperseded oldHashes .. => oldHashes
  | incrementAccessBatch contentHashes _ => contentHashes

/-- The hashes addressed by the operation an action belongs to. -/
def World.addressed (w : World) : Action → List String
  | .spawn _ _ op => op.hashes
  | .read task | .send task | .sendFails task .. | .readBack task | .readFails task _
  | .drop task _ => ((w.tasks task).map fun t => t.op.hashes).getD []
  | .arrive i => (w.inFlight[i]?.map fun s => s.op.hashes).getD []
  | .delete contentHash => [contentHash]

/-- The point an event is about. -/
def Event.point : Event → Option PointId
  | read _ _ id _ | erased id => some id
  | wrote _ _ write .. | rejected _ _ write | readBack _ _ write _ => some write.id
  | quiet => none

/-! ### The points of a call -/

/-- Every point of a call is named by a hash of its operation. -/
theorem Op.addresses {op : Op} {call : UpdateCall} (h : op.call = .ok call) {id : PointId}
    (hid : id ∈ call.ids) : ∃ g ∈ op.hashes, hashToUuid g = .ok id := by
  have hone : ∀ {contentHash : String} {pointId : PointId}, hashToUuid contentHash = .ok pointId →
      id ∈ [pointId] → ∃ g ∈ [contentHash], hashToUuid g = .ok id := by
    intro contentHash pointId hpoint hmem
    rw [List.mem_singleton.mp hmem]
    exact ⟨contentHash, List.mem_singleton_self _, hpoint⟩
  cases op with
  | store params ctx mode =>
    obtain ⟨_, hpoint, rfl⟩ := store_eq_ok (call_store_eq_ok h).2
    exact hone hpoint hid
  | patch contentHash request now =>
    obtain ⟨_, hpoint, rfl⟩ := patchMemory_eq_ok (call_patch_eq_ok h).2
    exact hone hpoint hid
  | generatedSummary contentHash summary embedding now =>
    obtain ⟨_, hpoint, rfl⟩ := setGeneratedSummary_eq_ok h
    exact hone hpoint hid
  | markSuperseded oldHashes newHash reason =>
    exact mem_of_mapM_hashToUuid (updateMetadataBatch_eq_ok h).1 hid
  | supersedeIfLive contentHash newHash reason =>
    obtain ⟨_, hpoint, hids, -⟩ := mergeWhileLive_eq_ok
      (show Alaya.supersedeIfLive contentHash newHash reason = .ok call from h)
    exact hone hpoint (hids ▸ hid)
  | reverse contentHash expected reversal =>
    obtain ⟨_, hpoint, rfl⟩ := reverseSupersession_eq_ok h
    exact hone hpoint hid
  | confirm contentHash atTime =>
    obtain ⟨_, hpoint, hids, -⟩ := mergeWhileLive_eq_ok
      (show confirmMemory contentHash atTime = .ok call from h)
    exact hone hpoint (hids ▸ hid)
  | incrementAccess contentHash now =>
    obtain ⟨_, hpoint, h⟩ := bind_eq_ok.mp (show (_ >>= _) = _ from h)
    obtain rfl := Except.ok.inj h
    exact hone hpoint hid
  | incrementAccessBatch contentHashes now =>
    obtain rfl := Except.ok.inj h
    obtain ⟨g, hg, hpoint⟩ := List.mem_filterMap.mp hid
    refine ⟨g, hg, ?_⟩
    cases hg' : hashToUuid g with
    | error e => simp [hg', Except.toOption] at hpoint
    | ok pointId => simpa [hg', Except.toOption] using hpoint

/-- The point of a call, when it is the one another hash names, is named by a hash of the call with
the same first half. -/
theorem Caller.pointDigits_of_mem (caller : Caller) {h' : String} {id' : PointId}
    (hid' : hashToUuid h' = .ok id') (hmem : id' ∈ caller.call.pending) :
    ∃ g ∈ caller.op.hashes, pointDigits g = pointDigits h' := by
  obtain ⟨g, hg, hpoint⟩ := Op.addresses caller.wf (List.mem_eraseDups.mp hmem)
  exact ⟨g, hg, (hashToUuid_inj hpoint hid').mp rfl⟩

/-! ### The point of a step -/

/-- A step is about a point of the call it belongs to, or about the point a delete removes. -/
theorem addressed_of_step {tr : List Event} {w w' : World} {a : Action} {e : Event}
    (h : Stories tr w) (hstep : w.step a = some (e, w')) {id : PointId} (hid : e.point = some id) :
    (∃ caller : Caller, w.addressed a = caller.op.hashes ∧ id ∈ caller.call.pending) ∨
      ∃ g, a = .delete g ∧ hashToUuid g = .ok id := by
  have hcall : ∀ (st : Stage) {task : TaskId} {t : Task}, w.tasks task = some t →
      (id, st) ∈ t.stages → ∃ caller : Caller,
        ((w.tasks task).map fun t => t.op.hashes).getD [] = caller.op.hashes ∧
          id ∈ caller.call.pending := by
    intro st task t ht hst
    exact ⟨t.toCaller, by rw [ht]; rfl, (h.tasks task t ht).mem_pending hst⟩
  cases a with
  | read task =>
    simp only [World.step, World.stepRead, Option.bind_eq_bind, Option.bind_eq_some_iff] at hstep
    obtain ⟨t, ht, hstep⟩ := hstep
    split at hstep
    · next got id' left hphase =>
      have hpoint : id' = id := by
        split at hstep <;> cases hstep <;> exact Option.some.inj hid
      subst hpoint
      exact .inl (hcall .waiting ht (by simp [Task.stages, hphase, waitingStages]))
    · cases hstep
  | send task =>
    simp only [World.step, World.stepSend, Option.bind_eq_bind, Option.bind_eq_some_iff] at hstep
    obtain ⟨t, ht, ⟨write, written, left⟩, hcur, hstep⟩ := hstep
    have hphase := Task.current_eq_some hcur
    have hpoint : write.id = id := by
      unfold World.evaluate at hstep
      split at hstep <;> cases hstep <;> exact Option.some.inj hid
    subst hpoint
    exact .inl (hcall .unsent ht (by simp [Task.stages, hphase, unsentStages]))
  | readBack task =>
    simp only [World.step, World.stepReadBack, Option.bind_eq_bind, Option.bind_eq_some_iff] at hstep
    obtain ⟨t, ht, hstep⟩ := hstep
    split at hstep
    · next write left lost hphase =>
      have hpoint : write.id = id := by
        cases hstep
        exact Option.some.inj hid
      subst hpoint
      exact .inl (hcall (.answered write) ht (by simp [Task.stages, hphase, answeredStages]))
    · cases hstep
  | arrive i =>
    simp only [World.step, World.stepArrive, Option.bind_eq_bind, Option.bind_eq_some_iff] at hstep
    obtain ⟨s, hs, hstep⟩ := hstep
    have hpoint : s.write.id = id := by
      unfold World.evaluate at hstep
      split at hstep <;> cases hstep <;> exact Option.some.inj hid
    subst hpoint
    exact .inl ⟨s.toCaller, by simp [World.addressed, hs], h.ids s (List.mem_of_getElem? hs)⟩
  | delete g =>
    simp only [World.step, World.stepDelete] at hstep
    split at hstep
    · cases hstep
    · next hpoint =>
      split at hstep <;> cases hstep
      · obtain rfl := Option.some.inj hid
        exact .inr ⟨g, rfl, hpoint⟩
      · cases hid
  | spawn task client op =>
    simp only [World.step, World.stepSpawn] at hstep
    split at hstep
    · cases hstep
    · split at hstep <;> cases hstep
      cases hid
  | sendFails task reached err =>
    simp only [World.step, World.stepSendFails, Option.bind_eq_bind, Option.bind_eq_some_iff] at hstep
    obtain ⟨t, -, x, -, hstep⟩ := hstep
    cases hstep
    cases hid
  | readFails task err =>
    simp only [World.step, World.stepReadFails, Option.bind_eq_bind, Option.bind_eq_some_iff] at hstep
    obtain ⟨t, -, hstep⟩ := hstep
    split at hstep <;> cases hstep <;> cases hid
  | drop task sent =>
    simp only [World.step, World.stepDrop, Option.bind_eq_bind, Option.bind_eq_some_iff] at hstep
    obtain ⟨t, -, hstep⟩ := hstep
    split at hstep <;> cases hstep <;> cases hid

/-- A step that is not about a point leaves it as it was. -/
theorem points_of_point {w w' : World} {e : Event} (h : w.Inv) (hc : Change w e w') {id : PointId}
    (hne : e.point ≠ some id) : w'.points id = w.points id := by
  refine points_of_change h hc ?_
  cases e with
  | wrote | erased => simpa [Event.cell, Event.point] using hne
  | _ => rfl

/-! ### The frame -/

/-- **Operations are framed by the first half of a hash.**  In every state of every run, with `id'`
the point of `h'`: another hash names that point exactly when the first half of its digits is the
same, up to case.  A step of an operation addressed to hashes with another first half neither looks
at the point nor changes it, what such an operation returns is not about it, and what a get or a
batch of such hashes returns does not depend on it. -/
theorem framed_by_hash {s : Start} {tr : List Event} {w : World} (hrun : Runs s.world tr w)
    {h' : String} {id' : PointId} (hid' : hashToUuid h' = .ok id') :
    (∀ g id, hashToUuid g = .ok id → (id = id' ↔ pointDigits g = pointDigits h')) ∧
    (∀ a e w', w.step a = some (e, w') → (∀ g ∈ w.addressed a, pointDigits g ≠ pointDigits h') →
      e.point ≠ some id' ∧ w'.points id' = w.points id') ∧
    (∀ task t outcome, w.tasks task = some t →
      (∀ g ∈ t.op.hashes, pointDigits g ≠ pointDigits h') →
      t.progress.phase = .returned (.ok outcome) → id' ∉ outcome.map Prod.fst) ∧
    ∀ cell, (∀ g, pointDigits g ≠ pointDigits h' →
        getByHash (Function.update w.points id' cell) g = getByHash w.points g) ∧
      ∀ hashes, (∀ g ∈ hashes, pointDigits g ≠ pointDigits h') →
        getBatch (Function.update w.points id' cell) hashes = getBatch w.points hashes := by
  have hstories := story_run s hrun
  have hother : ∀ g, pointDigits g ≠ pointDigits h' → hashToUuid g ≠ .ok id' :=
    fun g hdiff hg => hdiff ((hashToUuid_inj hg hid').mp rfl)
  refine ⟨fun g id hg => hashToUuid_inj hg hid', ?_, ?_, fun cell => ⟨?_, ?_⟩⟩
  · intro a e w' hstep hdiff
    have hpoint : e.point ≠ some id' := by
      intro hpoint
      rcases addressed_of_step hstories hstep hpoint with ⟨caller, haddr, hmem⟩ | ⟨g, rfl, hg⟩
      · obtain ⟨g, hg, hsame⟩ := caller.pointDigits_of_mem hid' hmem
        exact hdiff g (haddr ▸ hg) hsame
      · exact hother g (hdiff g List.mem_cons_self) hg
    exact ⟨hpoint, points_of_point (s.inv.run hrun) (change_of_step ⟨a, hstep⟩) hpoint⟩
  · intro task t outcome ht hdiff hret hmem
    obtain ⟨⟨id, update⟩, hx, rfl⟩ := List.mem_map.mp hmem
    have hstage : (id, Stage.settled update) ∈ t.stages := by
      simp only [Task.stages, hret]
      exact List.mem_map.mpr ⟨_, hx, rfl⟩
    obtain ⟨g, hg, hsame⟩ :=
      t.toCaller.pointDigits_of_mem hid' ((hstories.tasks task t ht).mem_pending hstage)
    exact hdiff g hg hsame
  · exact fun g hdiff => getByHash_update (hother g hdiff) cell
  · exact fun hashes hdiff => getBatch_update (fun g hg => hother g (hdiff g hg)) cell

/-- The SHA-256 of "a". -/
def storedHash : String := "ca978112ca1bbdcafac231b39a23dc4da786eff8147c4e72b9807785afee48bb"

/-- A hash that shares the first half of `storedHash`. -/
def halfHash : String := "ca978112ca1bbdcafac231b39a23dc4d00000000000000000000000000000000"

def storedPoint : PointId := "ca978112-ca1b-bdca-fac2-31b39a23dc4d"

def storeStored : Op := .store aParams { aContext with contentHash := storedHash } .upsert

theorem framed_by_hash_stored : ∃ tr w, Runs emptyStart.world tr w ∧
    (w.points storedPoint).isSome ∧
    ∀ e w', w.step (.delete aHash) = some (e, w') → w'.points storedPoint = w.points storedPoint := by
  have hstored : (exec World.step emptyStart.world [.spawn 0 1 storeStored, .read 0, .send 0]).map
      (fun x => (x.2.points storedPoint).isSome) = some true := by
    decide +kernel
  obtain ⟨⟨tr, w⟩, hexec, hthere⟩ := Option.map_eq_some_iff.mp hstored
  have hrun : Runs emptyStart.world tr w := run_of_exec hexec
  have hid : hashToUuid storedHash = .ok storedPoint := by decide +kernel
  obtain ⟨-, hstep, -, -⟩ := framed_by_hash hrun hid
  refine ⟨tr, w, hrun, hthere, fun e w' h => (hstep _ e w' h fun g hg => ?_).2⟩
  rw [List.mem_singleton.mp hg]
  decide

/-- **A hash that shares the first half of a stored one reaches its memory.**  Both are well-formed
hashes; a get for the second returns the memory stored under the first, and a delete removes it. -/
theorem half_hash_reaches_stored : storedHash ≠ halfHash ∧ validateContentHash storedHash ∧
    validateContentHash halfHash ∧ ∃ tr w m e w', Runs emptyStart.world tr w ∧
      getByHash w.points halfHash = .ok (some m) ∧ m.contentHash = storedHash ∧
      w.step (.delete halfHash) = some (e, w') ∧ w'.points storedPoint = none := by
  refine ⟨by decide, by decide +kernel, by decide +kernel, ?_⟩
  have hstored : (exec World.step emptyStart.world [.spawn 0 1 storeStored, .read 0, .send 0]).bind
      (fun x => do
        let m ← (getByHash x.2.points halfHash).toOption.join
        let y ← x.2.step (.delete halfHash)
        return (m.contentHash, (y.2.points storedPoint).isSome)) = some (storedHash, false) := by
    decide +kernel
  obtain ⟨⟨tr, w⟩, hexec, hx⟩ := Option.bind_eq_some_iff.mp hstored
  obtain ⟨m, hm, hx⟩ := Option.bind_eq_some_iff.mp hx
  obtain ⟨⟨e, w'⟩, hstep, hx⟩ := Option.bind_eq_some_iff.mp hx
  obtain ⟨hhash, hgone⟩ := Prod.mk.inj (Option.some.inj hx)
  refine ⟨tr, w, m, e, w', run_of_exec hexec, ?_, hhash, hstep, by simpa using hgone⟩
  cases hget : getByHash w.points halfHash with
  | error err => simp [hget, Except.toOption] at hm
  | ok found => simpa [hget, Except.toOption] using hm

end Alaya
