import Alaya.Cluster.World

/-!
# What a step can do

`Change w e w'` lists, once, every way the world moves: one constructor for each answer of the
collection and each event outside it, with what it found and what it leaves.  `change_of_step` is the
inversion of `World.step`; the invariants are proved by cases on `Change`, never by unfolding a step.
-/

namespace Alaya

open Json Labelled

/-- What a call sees of a point when it reads it, or reads it back, with its keys. -/
def World.view (w : World) (keys : Option (List String)) (id : PointId) : Option Payload :=
  (w.points id).map (restrict keys)

inductive Change (w : World) : Event → World → Prop
  | spawned {task : TaskId} {caller : Caller} :
      w.tasks task = none → Change w .quiet (w.setTask task (.start caller))
  /-- A point was read and others are left. -/
  | read {task : TaskId} {t : Task} {got : List (PointId × Option Payload)} {id next : PointId}
      {left : List PointId} :
      w.tasks task = some t → t.progress.phase = .reading got (id :: next :: left) →
      Change w (.read task t.progress.round id (w.view t.call.readKeys id))
        (w.setTask task (t.withPhase
          (.reading (got ++ [(id, w.view t.call.readKeys id)]) (next :: left))))
  /-- The last point of a round was read: its writes are built. -/
  | planned {task : TaskId} {t : Task} {got : List (PointId × Option Payload)} {id : PointId}
      {n : ℕ} {progress : Progress} :
      w.tasks task = some t → t.progress.phase = .reading got [id] →
      t.call.afterReads t.client (w.writes t.client) t.progress.round t.progress.outcome
        (got ++ [(id, w.view t.call.readKeys id)]) = (n, progress) →
      Change w (.read task t.progress.round id (w.view t.call.readKeys id))
        { w.setTask task (t.withProgress progress) with
          writes := Function.update w.writes t.client n }
  /-- A write was evaluated and applied. -/
  | applied {task : TaskId} {t : Task} {written left : List Write} {write : Write} {p : Payload} :
      w.tasks task = some t → t.progress.phase = .writing written (write :: left) →
      (t.call.request write).evaluate (w.points write.id) = some p →
      Change w (.wrote task t.op write (w.points write.id) p)
        ((w.setPoint write.id (some p)).setTask task (t.withProgress (UpdateCall.afterSend
          t.progress.round t.progress.outcome (written ++ [write]) left)))
  /-- A write was evaluated and did not apply. -/
  | rejected {task : TaskId} {t : Task} {written left : List Write} {write : Write} :
      w.tasks task = some t → t.progress.phase = .writing written (write :: left) →
      (t.call.request write).evaluate (w.points write.id) = none →
      Change w (.rejected task t.op write) (w.setTask task (t.withProgress (UpdateCall.afterSend
        t.progress.round t.progress.outcome (written ++ [write]) left)))
  /-- A write failed and will not arrive. -/
  | failed {task : TaskId} {t : Task} {written left : List Write} {write : Write} {e : AlayaError} :
      w.tasks task = some t → t.progress.phase = .writing written (write :: left) →
      Change w .quiet (w.setTask task (t.withProgress (UpdateCall.afterSend t.progress.round
        (t.progress.outcome ++ [(write.id, .unconfirmed (.sendFailed e))]) written left)))
  /-- A write failed and may still arrive. -/
  | detached {task : TaskId} {t : Task} {written left : List Write} {write : Write}
      {e : AlayaError} :
      w.tasks task = some t → t.progress.phase = .writing written (write :: left) →
      Change w .quiet { w.setTask task (t.withProgress (UpdateCall.afterSend t.progress.round
          (t.progress.outcome ++ [(write.id, .unconfirmed (.sendFailed e))]) written left)) with
        inFlight := .of task t write :: w.inFlight }
  | readBack {task : TaskId} {t : Task} {left : List Write} {write : Write}
      {lost : List PointId} :
      w.tasks task = some t → t.progress.phase = .readingBack (write :: left) lost →
      Change w (.readBack task t.op write (w.view t.call.backKeys write.id))
        (w.setTask task (t.withProgress (UpdateCall.afterReadBack t.progress.round
          t.progress.outcome write left lost (w.view t.call.backKeys write.id))))
  /-- The call ends without a further write: a read failed or the caller dropped it. -/
  | ended {task : TaskId} {t : Task} {phase : Phase} :
      w.tasks task = some t → (∀ result, t.progress.phase ≠ .returned result) →
      (phase = .dropped ∨ ∃ e, phase = .returned (.error e)) →
      Change w .quiet (w.setTask task (t.withPhase phase))
  /-- The caller dropped the call and its current write may still arrive. -/
  | abandoned {task : TaskId} {t : Task} {written left : List Write} {write : Write} :
      w.tasks task = some t → t.progress.phase = .writing written (write :: left) →
      Change w .quiet { w.setTask task (t.withPhase .dropped) with
        inFlight := .of task t write :: w.inFlight }
  /-- A write in flight arrived and applied. -/
  | arrived {i : ℕ} {s : InFlight} {p : Payload} :
      w.inFlight[i]? = some s →
      (s.call.request s.write).evaluate (w.points s.write.id) = some p →
      Change w (.wrote s.task s.op s.write (w.points s.write.id) p)
        { w.setPoint s.write.id (some p) with inFlight := w.inFlight.eraseIdx i }
  /-- A write in flight arrived and did not apply. -/
  | ignored {i : ℕ} {s : InFlight} :
      w.inFlight[i]? = some s →
      (s.call.request s.write).evaluate (w.points s.write.id) = none →
      Change w (.rejected s.task s.op s.write) { w with inFlight := w.inFlight.eraseIdx i }
  | erased {id : PointId} {p : Payload} :
      w.points id = some p → Change w (.erased id) (w.setPoint id none)
  /-- A delete found no point. -/
  | untouched : Change w .quiet w

theorem Task.current_eq_some {t : Task} {write : Write} {written left : List Write}
    (h : t.current = some (write, written, left)) :
    t.progress.phase = .writing written (write :: left) := by
  unfold current at h
  split at h
  · next hphase =>
    obtain ⟨rfl, rfl, rfl⟩ : _ = write ∧ _ = written ∧ _ = left := by simpa using h
    exact hphase
  · cases h

theorem change_of_stepRead {w w' : World} {task : TaskId} {e : Event}
    (h : w.stepRead task = some (e, w')) : Change w e w' := by
  simp only [World.stepRead, Option.bind_eq_bind, Option.bind_eq_some_iff] at h
  obtain ⟨t, ht, h⟩ := h
  split at h
  · next got id left hphase =>
    split at h
    · obtain ⟨rfl, rfl⟩ : _ = e ∧ _ = w' := by simpa using h
      exact .read ht hphase
    · obtain ⟨rfl, rfl⟩ : _ = e ∧ _ = w' := by simpa using h
      exact .planned ht hphase rfl
  · cases h

theorem change_of_stepSend {w w' : World} {task : TaskId} {e : Event}
    (h : w.stepSend task = some (e, w')) : Change w e w' := by
  simp only [World.stepSend, Option.bind_eq_bind, Option.bind_eq_some_iff] at h
  obtain ⟨t, ht, ⟨write, written, left⟩, hcur, h⟩ := h
  have hphase := Task.current_eq_some hcur
  cases heval : (t.call.request write).evaluate (w.points write.id) with
  | some p =>
    obtain ⟨rfl, rfl⟩ : _ = e ∧ _ = w' := by simpa [World.evaluate, heval] using h
    exact .applied ht hphase heval
  | none =>
    obtain ⟨rfl, rfl⟩ : _ = e ∧ _ = w' := by simpa [World.evaluate, heval] using h
    exact .rejected ht hphase heval

theorem change_of_stepSendFails {w w' : World} {task : TaskId} {reached : Bool} {err : AlayaError}
    {e : Event} (h : w.stepSendFails task reached err = some (e, w')) : Change w e w' := by
  simp only [World.stepSendFails, Option.bind_eq_bind, Option.bind_eq_some_iff] at h
  obtain ⟨t, ht, ⟨write, written, left⟩, hcur, h⟩ := h
  have hphase := Task.current_eq_some hcur
  cases reached with
  | true =>
    obtain ⟨rfl, rfl⟩ : _ = e ∧ _ = w' := by simpa using h
    exact .detached ht hphase
  | false =>
    obtain ⟨rfl, rfl⟩ : _ = e ∧ _ = w' := by simpa using h
    exact .failed ht hphase

theorem change_of_stepReadBack {w w' : World} {task : TaskId} {e : Event}
    (h : w.stepReadBack task = some (e, w')) : Change w e w' := by
  simp only [World.stepReadBack, Option.bind_eq_bind, Option.bind_eq_some_iff] at h
  obtain ⟨t, ht, h⟩ := h
  split at h
  · next write left lost hphase =>
    obtain ⟨rfl, rfl⟩ : _ = e ∧ _ = w' := by simpa using h
    exact .readBack ht hphase
  · cases h

theorem change_of_stepReadFails {w w' : World} {task : TaskId} {err : AlayaError} {e : Event}
    (h : w.stepReadFails task err = some (e, w')) : Change w e w' := by
  simp only [World.stepReadFails, Option.bind_eq_bind, Option.bind_eq_some_iff] at h
  obtain ⟨t, ht, h⟩ := h
  split at h
  all_goals first | cases h; done | skip
  all_goals
    next hphase =>
    obtain ⟨rfl, rfl⟩ : _ = e ∧ _ = w' := by simpa using h
    exact .ended ht (by simp [hphase]) (.inr ⟨_, rfl⟩)

theorem change_of_stepDrop {w w' : World} {task : TaskId} {sent : Bool} {e : Event}
    (h : w.stepDrop task sent = some (e, w')) : Change w e w' := by
  simp only [World.stepDrop, Option.bind_eq_bind, Option.bind_eq_some_iff] at h
  obtain ⟨t, ht, h⟩ := h
  split at h
  · cases h
  · cases h
  · next hphase =>
    obtain ⟨rfl, rfl⟩ : _ = e ∧ _ = w' := by simpa using h
    exact .abandoned ht hphase
  · next hret _ _ =>
    obtain ⟨rfl, rfl⟩ : _ = e ∧ _ = w' := by simpa using h
    exact .ended ht hret (.inl rfl)

theorem change_of_stepArrive {w w' : World} {i : ℕ} {e : Event}
    (h : w.stepArrive i = some (e, w')) : Change w e w' := by
  simp only [World.stepArrive, Option.bind_eq_bind, Option.bind_eq_some_iff] at h
  obtain ⟨s, hs, h⟩ := h
  cases heval : (s.call.request s.write).evaluate (w.points s.write.id) with
  | some p =>
    obtain ⟨rfl, rfl⟩ : _ = e ∧ _ = w' := by simpa [World.evaluate, heval] using h
    exact .arrived hs heval
  | none =>
    obtain ⟨rfl, rfl⟩ : _ = e ∧ _ = w' := by simpa [World.evaluate, heval] using h
    exact .ignored hs heval

theorem change_of_stepDelete {w w' : World} {contentHash : String} {e : Event}
    (h : w.stepDelete contentHash = some (e, w')) : Change w e w' := by
  unfold World.stepDelete at h
  split at h
  · cases h
  · split at h
    · next hp =>
      obtain ⟨rfl, rfl⟩ : _ = e ∧ _ = w' := by simpa using h
      exact .erased hp
    · obtain ⟨rfl, rfl⟩ : _ = e ∧ _ = w' := by simpa using h
      exact .untouched

theorem change_of_stepSpawn {w w' : World} {task : TaskId} {client : Client} {op : Op} {e : Event}
    (h : w.stepSpawn task client op = some (e, w')) : Change w e w' := by
  unfold World.stepSpawn at h
  split at h
  · cases h
  · next hnone =>
    split at h
    · cases h
    · obtain ⟨rfl, rfl⟩ : _ = e ∧ _ = w' := by simpa using h
      exact .spawned hnone

/-- **Inversion of a step.** -/
theorem change_of_step {w w' : World} {e : Event} (h : Steps World.step w e w') :
    Change w e w' := by
  obtain ⟨a, h⟩ := h
  cases a with
  | spawn task client op => exact change_of_stepSpawn h
  | read task => exact change_of_stepRead h
  | send task => exact change_of_stepSend h
  | sendFails task reached err => exact change_of_stepSendFails h
  | readBack task => exact change_of_stepReadBack h
  | readFails task err => exact change_of_stepReadFails h
  | drop task sent => exact change_of_stepDrop h
  | arrive i => exact change_of_stepArrive h
  | delete contentHash => exact change_of_stepDelete h

/-! ### What a step does to one call -/

/-- One answer takes a call from `t` to `progress`. -/
inductive Move (t : Task) : Progress → Prop
  | read {got : List (PointId × Option Payload)} {id next : PointId} {left : List PointId}
      (found : Option Payload) :
      t.progress.phase = .reading got (id :: next :: left) →
      Move t ⟨t.progress.round, t.progress.outcome, .reading (got ++ [(id, found)]) (next :: left)⟩
  | planned {got : List (PointId × Option Payload)} {id : PointId} {n n' : ℕ}
      {progress : Progress} (found : Option Payload) :
      t.progress.phase = .reading got [id] →
      t.call.afterReads t.client n t.progress.round t.progress.outcome (got ++ [(id, found)]) =
        (n', progress) → Move t progress
  | answered {written left : List Write} {write : Write} :
      t.progress.phase = .writing written (write :: left) →
      Move t (UpdateCall.afterSend t.progress.round t.progress.outcome (written ++ [write]) left)
  | failed {written left : List Write} {write : Write} (err : AlayaError) :
      t.progress.phase = .writing written (write :: left) →
      Move t (UpdateCall.afterSend t.progress.round
        (t.progress.outcome ++ [(write.id, .unconfirmed (.sendFailed err))]) written left)
  | readBack {left : List Write} {write : Write} {lost : List PointId} (found : Option Payload) :
      t.progress.phase = .readingBack (write :: left) lost →
      Move t (UpdateCall.afterReadBack t.progress.round t.progress.outcome write left lost found)
  | ended {phase : Phase} :
      (∀ result, t.progress.phase ≠ .returned result) →
      (phase = .dropped ∨ ∃ err, phase = .returned (.error err)) →
      Move t ⟨t.progress.round, t.progress.outcome, phase⟩

/-- A call after a step: it did not move, it has just begun, or it made one move. -/
theorem Change.call {w w' : World} {e : Event} (hc : Change w e w') {task : TaskId} {t' : Task}
    (ht' : w'.tasks task = some t') :
    w.tasks task = some t' ∨ (w.tasks task = none ∧ ∃ caller, t' = .start caller) ∨
      ∃ t progress, w.tasks task = some t ∧ Move t progress ∧ t' = t.withProgress progress := by
  have hset : ∀ {task' : TaskId} {t : Task} {progress : Progress}, w.tasks task' = some t →
      Move t progress → (w.setTask task' (t.withProgress progress)).tasks task = some t' →
      w.tasks task = some t' ∨ (w.tasks task = none ∧ ∃ caller, t' = .start caller) ∨
        ∃ t progress, w.tasks task = some t ∧ Move t progress ∧ t' = t.withProgress progress := by
    intro task' t progress ht hmove hu
    by_cases htask : task = task'
    · subst htask
      obtain rfl := Option.some.inj ((World.tasks_setTask_self ..).symm.trans hu)
      exact .inr (.inr ⟨t, progress, ht, hmove, rfl⟩)
    · exact .inl (by rwa [World.tasks_setTask_of_ne htask] at hu)
  cases hc with
  | @spawned task' caller hnone =>
    by_cases htask : task = task'
    · subst htask
      obtain rfl := Option.some.inj ((World.tasks_setTask_self ..).symm.trans ht')
      exact .inr (.inl ⟨hnone, caller, rfl⟩)
    · exact .inl (by rwa [World.tasks_setTask_of_ne htask] at ht')
  | read ht hphase => exact hset ht (.read _ hphase) ht'
  | planned ht hphase hafter => exact hset ht (.planned _ hphase hafter) ht'
  | applied ht hphase _ => exact hset ht (.answered hphase) ht'
  | rejected ht hphase _ => exact hset ht (.answered hphase) ht'
  | failed ht hphase => exact hset ht (.failed _ hphase) ht'
  | detached ht hphase => exact hset ht (.failed _ hphase) ht'
  | readBack ht hphase => exact hset ht (.readBack _ hphase) ht'
  | ended ht hret hend => exact hset ht (.ended hret hend) ht'
  | abandoned ht hphase =>
    exact hset ht (.ended (fun _ => by simp [hphase]) (.inl rfl)) ht'
  | arrived _ _ => exact .inl ht'
  | ignored _ _ => exact .inl ht'
  | erased _ => exact .inl ht'
  | untouched => exact .inl ht'

end Alaya
