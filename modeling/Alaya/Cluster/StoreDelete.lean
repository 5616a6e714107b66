import Alaya.Cluster.Story
import Alaya.Cluster.Landing

/-!
# A store and a delete at the same time

A store reports `DeletedWhileStoring`, or another error, when its point is deleted while it runs, so
long as it does not start over after the delete.  The store is a call on one point, and `Solo` lists
the five states such a call can be in.  From the delete on it is `Doomed`: nothing of it stands, no
write of it can apply to a point that is there, and the only results left to it are errors.  It
escapes by a `Restart` alone: a round that reads the point again, or an insert into the gap.
-/

namespace Alaya

open Json Labelled

/-! ### A call on one point -/

/-- The states of a call on the point `id`. -/
inductive Solo (id : PointId) : Progress → Prop
  | reading (round : ℕ) : Solo id ⟨round, [], .reading [] [id]⟩
  | writing (round : ℕ) {write : Write} :
      write.id = id → Solo id ⟨round, [], .writing [] [write]⟩
  | readingBack (round : ℕ) {write : Write} :
      write.id = id → Solo id ⟨round, [], .readingBack [write] []⟩
  | settled (round : ℕ) (outcome : Outcome) (update : Update) :
      Solo id ⟨round, outcome, .returned (.ok [(id, update)])⟩
  | ended (round : ℕ) (outcome : Outcome) {phase : Phase} :
      (phase = .dropped ∨ ∃ err, phase = .returned (.error err)) → Solo id ⟨round, outcome, phase⟩

namespace Solo

variable {id : PointId} {t : Task}

theorem afterReads {call : UpdateCall} {client : Client} {n n' round : ℕ} {found : Option Payload}
    {progress : Progress}
    (h : call.afterReads client n round [] [(id, found)] = (n', progress)) :
    Solo id progress ∧ ∀ got left, progress.phase ≠ .reading got left := by
  rcases UpdateCall.afterReads_cases h with ⟨-, rfl⟩ | ⟨err, -, rfl⟩ | ⟨settled, hb, rfl⟩ |
    ⟨write, ws, settled, hb, rfl⟩
  · exact ⟨.settled _ _ _, nofun⟩
  · exact ⟨.ended _ _ (.inr ⟨err, rfl⟩), nofun⟩
  · have hids := UpdateCall.build_ids hb
    simp only [List.map_nil, List.append_nil, List.map_cons] at hids
    obtain ⟨⟨i, update⟩, rfl⟩ : ∃ x, settled = [x] := by
      rw [← List.length_eq_one_iff, ← List.length_map Prod.fst, hids.length_eq]
      rfl
    obtain rfl : i = id := by simpa using hids
    exact ⟨.settled _ _ _, nofun⟩
  · have hids := UpdateCall.build_ids hb
    have hlen := hids.length_eq
    simp only [List.length_append, List.length_map, List.length_cons, List.length_nil] at hlen
    obtain rfl : ws = [] := List.length_eq_zero_iff.mp (by omega)
    obtain rfl : settled = [] := List.length_eq_zero_iff.mp (by omega)
    exact ⟨.writing _ (by simpa using hids), nofun⟩

theorem afterSend {round : ℕ} {write : Write} (hid : write.id = id) :
    Solo id (UpdateCall.afterSend round [] [write] []) :=
  .readingBack round hid

theorem afterFailure {round : ℕ} {write : Write} (hid : write.id = id) (why : Unconfirmed) :
    Solo id (UpdateCall.afterSend round [(write.id, .unconfirmed why)] [] []) := by
  rw [hid]
  exact .settled round _ _

/-- A read-back settles the point, or the next round begins. -/
theorem afterReadBack {round : ℕ} {write : Write} (hid : write.id = id) (found : Option Payload) :
    UpdateCall.afterReadBack round [] write [] [] found =
        ⟨round + 1, [], .reading [] [id]⟩ ∧ landed write.readRev found write.mine = .no ∨
      ∃ outcome update, UpdateCall.afterReadBack round [] write [] [] found =
          ⟨round + 1, outcome, .returned (.ok [(id, update)])⟩ ∧
        ((∃ payload created, update = .landed payload created) ∧
            landed write.readRev found write.mine = .yes ∨
          update = .deleted ∨ ∃ why, update = .unconfirmed why) := by
  subst hid
  unfold UpdateCall.afterReadBack UpdateCall.startRound
  cases hverdict : landed write.readRev found write.mine with
  | yes => exact .inr ⟨_, _, rfl, .inl ⟨⟨_, _, rfl⟩, rfl⟩⟩
  | no =>
    simp only [List.nil_append, List.map_cons, List.map_nil, List.cons_ne_self, reduceCtorEq,
      false_or]
    split_ifs
    · exact .inr ⟨_, _, rfl, .inr (.inr ⟨_, rfl⟩)⟩
    · exact .inl ⟨rfl, trivial⟩
  | gone => exact .inr ⟨_, _, rfl, .inr (.inl rfl)⟩
  | unknown => exact .inr ⟨_, _, rfl, .inr (.inr ⟨_, rfl⟩)⟩

end Solo

namespace Solo

variable {id : PointId} {progress : Progress}

theorem of_reading (h : Solo id progress) {got : List (PointId × Option Payload)}
    {left : List PointId} (hphase : progress.phase = .reading got left) :
    got = [] ∧ left = [id] ∧ progress.outcome = [] := by
  cases h with
  | reading round =>
    cases hphase
    exact ⟨rfl, rfl, rfl⟩
  | ended round outcome hend => rcases hend with rfl | ⟨err, rfl⟩ <;> cases hphase
  | _ => cases hphase

theorem of_writing (h : Solo id progress) {written left : List Write}
    (hphase : progress.phase = .writing written left) :
    ∃ write, write.id = id ∧ written = [] ∧ left = [write] ∧ progress.outcome = [] := by
  cases h with
  | writing round hid =>
    cases hphase
    exact ⟨_, hid, rfl, rfl, rfl⟩
  | ended round outcome hend => rcases hend with rfl | ⟨err, rfl⟩ <;> cases hphase
  | _ => cases hphase

theorem of_readingBack (h : Solo id progress) {left : List Write} {lost : List PointId}
    (hphase : progress.phase = .readingBack left lost) :
    ∃ write, write.id = id ∧ left = [write] ∧ lost = [] ∧ progress.outcome = [] := by
  cases h with
  | readingBack round hid =>
    cases hphase
    exact ⟨_, hid, rfl, rfl, rfl⟩
  | ended round outcome hend => rcases hend with rfl | ⟨err, rfl⟩ <;> cases hphase
  | _ => cases hphase

theorem of_returned (h : Solo id progress) {outcome : Outcome}
    (hphase : progress.phase = .returned (.ok outcome)) : ∃ update, outcome = [(id, update)] := by
  cases h with
  | settled round outcome' update =>
    cases hphase
    exact ⟨update, rfl⟩
  | ended round outcome' hend => rcases hend with rfl | ⟨err, rfl⟩ <;> cases hphase
  | _ => cases hphase

/-- Each answer takes a call on one point from one of its states to another. -/
theorem move {t : Task} (h : Solo id t.progress) (hmove : Move t progress) : Solo id progress := by
  cases hmove with
  | read found hphase =>
    obtain ⟨-, hleft, -⟩ := h.of_reading hphase
    cases hleft
  | planned found hphase hafter =>
    obtain ⟨rfl, hleft, houtcome⟩ := h.of_reading hphase
    obtain rfl := List.singleton_inj.mp hleft
    rw [houtcome] at hafter
    exact (afterReads hafter).1
  | answered hphase =>
    obtain ⟨write, hid, rfl, hleft, houtcome⟩ := h.of_writing hphase
    obtain ⟨rfl, rfl⟩ := List.cons.inj hleft
    rw [houtcome]
    exact afterSend hid
  | failed err hphase =>
    obtain ⟨write, hid, rfl, hleft, houtcome⟩ := h.of_writing hphase
    obtain ⟨rfl, rfl⟩ := List.cons.inj hleft
    rw [houtcome]
    exact afterFailure hid _
  | readBack found hphase =>
    obtain ⟨write, hid, hleft, rfl, houtcome⟩ := h.of_readingBack hphase
    obtain ⟨rfl, rfl⟩ := List.cons.inj hleft
    rw [houtcome]
    rcases @afterReadBack id t.progress.round _ hid found with
      ⟨hnew, -⟩ | ⟨outcome, update, hnew, -⟩
    · rw [hnew]
      exact .reading _
    · rw [hnew]
      exact .settled _ _ _
  | ended _ hend => exact .ended _ _ hend

end Solo

/-- **Every call on one point is in one of its five states**, in every run. -/
theorem solo_run (s : Start) {tr : List Event} {w : World} (hrun : Runs s.world tr w)
    {id : PointId} : ∀ task t, w.tasks task = some t → t.call.pending = [id] →
      Solo id t.progress := by
  refine hrun.preserves (fun w => ∀ task t, w.tasks task = some t → t.call.pending = [id] →
    Solo id t.progress) (fun _ _ ht => by cases ht) fun w e w' ih hstep task t' ht' hone => ?_
  rcases (change_of_step hstep).call ht' with ht | ⟨-, caller, rfl⟩ |
    ⟨t, progress, ht, hmove, rfl⟩
  · exact ih task t' ht hone
  · have hone : caller.call.pending = [id] := hone
    simp only [Task.start, UpdateCall.startRound, hone, maxWriteAttempts]
    exact .reading 0
  · exact (ih task t ht hone).move hmove

/-! ### Writes that come too late -/

/-- A write that changes nothing on a point that is there. -/
def World.Dead (w : World) (call : UpdateCall) (write : Write) : Prop :=
  ∀ p, w.points write.id = some p → (call.request write).evaluate (some p) = none

theorem World.Dead.mono {w w' : World} {call : UpdateCall} {write : Write}
    (h : w.Dead call write) (hbuilt : w.Built call write) (hm : World.Moves w w') :
    w'.Dead call write := by
  intro p hp
  rcases hm.points write.id p hp with hold | ⟨r, s, hrev, hr⟩
  · exact h p hold
  · cases hbuilt with
    | insert hcommit hplan =>
      have hcreated : write.created = true := by rw [hplan]; rfl
      simp [UpdateCall.request, hcommit, hcreated, Request.evaluate]
    | @update prev payload hmod hplan hintact =>
      -- the point shows a newer revision than the one the write is conditional on
      have hcreated : write.created = false := by rw [hplan]; rfl
      have hread : write.readRev = revOf prev := by rw [hplan]; rfl
      have hlate := World.not_holds_of_moved hintact.1 hrev hr
      rw [← hread] at hlate
      unfold UpdateCall.request
      rw [hcreated]
      cases call.commit with
      | payload how batch => cases how <;> simp [Request.evaluate, hlate]
      | upsert insert => simp [Request.evaluate, hlate]

/-- What a store reports as an error. -/
def Update.Failed : Update → Prop
  | .deleted | .unconfirmed _ => True
  | _ => False

/-- The call has read its point for the first time. -/
def Progress.Started (progress : Progress) : Prop :=
  ∀ got left, progress.phase = .reading got left → 0 < progress.round

/-- **A call whose point was deleted while it ran.** -/
structure Doomed (id : PointId) (tr : List Event) (w : World) (task : TaskId) (t : Task) :
    Prop where
  solo : Solo id t.progress
  started : t.progress.Started
  failed : ∀ update, t.progress.phase = .returned (.ok [(id, update)]) → update.Failed
  standing : standing task id tr = []
  unsent : ∀ write ∈ t.unsent, w.Dead t.call write
  inFlight : ∀ s ∈ w.inFlight, s.task = task → w.Dead s.call s.write

/-- The events of a call. -/
def Event.actor : Event → Option TaskId
  | .read task .. | .wrote task .. | .rejected task .. | .readBack task .. => some task
  | .erased _ | .quiet => none

/-- The call starts over: it reads the point in a later round, or creates it. -/
def Event.Restarts (task : TaskId) (id : PointId) : Event → Prop
  | .read task' round id' _ => task' = task ∧ id' = id ∧ 0 < round
  | .wrote task' _ write before _ => task' = task ∧ write.id = id ∧ before = none
  | _ => False

theorem started_move {t : Task} {progress : Progress} (h : t.progress.Started)
    (hmove : Move t progress) : progress.Started := by
  intro got left hreading
  cases hmove with
  | read found hphase => exact h _ _ hphase
  | planned found hphase hafter =>
    rcases UpdateCall.afterReads_cases hafter with ⟨-, rfl⟩ | ⟨_, -, rfl⟩ | ⟨_, -, rfl⟩ |
      ⟨_, _, _, -, rfl⟩ <;> cases hreading
  | @answered written left write hphase =>
    unfold UpdateCall.afterSend at hreading
    cases left <;> cases written <;> cases hreading
  | @failed written left write err hphase =>
    unfold UpdateCall.afterSend at hreading
    cases left <;> cases written <;> cases hreading
  | @readBack left write lost found hphase =>
    unfold UpdateCall.afterReadBack at hreading ⊢
    cases left with
    | nil => exact Nat.succ_pos _
    | cons _ _ => cases hreading
  | ended hret hend => rcases hend with rfl | ⟨err, rfl⟩ <;> cases hreading

section

variable {id : PointId} {tr : List Event} {w w' : World} {task : TaskId} {t t' : Task} {e : Event}

/-- What has to be seen to when a doomed call, or another one, takes a step. -/
theorem Doomed.next (h : Doomed id tr w task t) (hinv : w.Inv) (ht : w.tasks task = some t)
    (hm : World.Moves w w') (hcall : t'.call = t.call) (hsolo : Solo id t'.progress)
    (hstarted : t'.progress.Started)
    (hfailed : ∀ update, t'.progress.phase = .returned (.ok [(id, update)]) → update.Failed)
    (hunsent : ∀ write ∈ t'.unsent, write ∈ t.unsent)
    (hflight : ∀ s ∈ w'.inFlight, s.task = task →
      s ∈ w.inFlight ∨ s.call = t.call ∧ s.write ∈ t.unsent)
    (hstand : e.stand task id [] = []) : Doomed id (tr ++ [e]) w' task t' := by
  have hdead : ∀ write ∈ t.unsent, w'.Dead t.call write := fun write hw =>
    (h.unsent write hw).mono ((hinv.tasks task t ht).2 write hw) hm
  refine ⟨hsolo, hstarted, hfailed, ?_, fun write hw => ?_, fun s hs htask => ?_⟩
  · rw [standing_concat, h.standing, hstand]
  · rw [hcall]
    exact hdead write (hunsent write hw)
  · rcases hflight s hs htask with hold | ⟨hsame, hw⟩
    · exact (h.inFlight s hold htask).mono (hinv.inFlight s hold) hm
    · rw [hsame]
      exact hdead s.write hw

/-- The call does not move. -/
theorem Doomed.rest (h : Doomed id tr w task t) (hinv : w.Inv) (hc : Change w e w')
    (ht : w.tasks task = some t)
    (hflight : ∀ s ∈ w'.inFlight, s.task = task → s ∈ w.inFlight)
    (hstand : e.stand task id [] = []) : Doomed id (tr ++ [e]) w' task t :=
  h.next hinv ht (hinv.next_step hc).2 rfl h.solo h.started h.failed (fun _ hw => hw)
    (fun s hs htask => .inl (hflight s hs htask)) hstand

/-- A write that was dead applied: its point was gone. -/
theorem absent_of_dead {call : UpdateCall} {write : Write} {p : Payload}
    (h : w.Dead call write) (heval : (call.request write).evaluate (w.points write.id) = some p) :
    w.points write.id = none := by
  cases hp : w.points write.id with
  | none => rfl
  | some q =>
    rw [hp, h q hp] at heval
    cases heval

/-- A send that fails settles the call as failed. -/
theorem failed_of_failure {progress : Progress} (hsolo : Solo id progress)
    {written left : List Write} {write : Write} {err : AlayaError} {round : ℕ}
    (hphase : progress.phase = .writing written (write :: left)) :
    ∀ update, (UpdateCall.afterSend round (progress.outcome ++
        [(write.id, .unconfirmed (.sendFailed err))]) written left).phase =
      .returned (.ok [(id, update)]) → update.Failed := by
  intro update hret
  obtain ⟨_, -, rfl, hleft, houtcome⟩ := hsolo.of_writing hphase
  obtain ⟨rfl, rfl⟩ := List.cons.inj hleft
  rw [houtcome] at hret
  cases hret
  trivial

/-- **A doomed call stays doomed** until it starts over. -/
theorem Doomed.step {s : Start} (h : Doomed id tr w task t) (hrun : Runs s.world tr w)
    (ht : w.tasks task = some t) (hone : t.call.pending = [id])
    (hstep : Steps World.step w e w') (hno : ¬e.Restarts task id) :
    ∃ t', w'.tasks task = some t' ∧ t'.call = t.call ∧ Doomed id (tr ++ [e]) w' task t' := by
  have hinv := s.inv.run hrun
  have hstories := story_run s hrun
  have hchange := change_of_step hstep
  have hm := (hinv.next_step hchange).2
  -- the call itself is in flight nowhere else, so another call's move leaves it alone
  have hother : (∀ x ∈ w'.inFlight, x.task = task → x ∈ w.inFlight) →
      e.stand task id [] = [] → w'.tasks task = some t →
      ∃ t', w'.tasks task = some t' ∧ t'.call = t.call ∧ Doomed id (tr ++ [e]) w' task t' :=
    fun hflight hstand ht' => ⟨t, ht', rfl, h.rest hinv hchange ht hflight hstand⟩
  have hown : ∀ {progress : Progress}, Move t progress →
      w'.tasks task = some (t.withProgress progress) →
      (∀ update, progress.phase = .returned (.ok [(id, update)]) → update.Failed) →
      (∀ write ∈ (t.withProgress progress).unsent, write ∈ t.unsent) →
      (∀ x ∈ w'.inFlight, x.task = task → x ∈ w.inFlight ∨ x.call = t.call ∧ x.write ∈ t.unsent) →
      e.stand task id [] = [] →
      ∃ t', w'.tasks task = some t' ∧ t'.call = t.call ∧ Doomed id (tr ++ [e]) w' task t' :=
    fun hmove ht' hfailed hunsent hflight hstand => ⟨_, ht', rfl, h.next hinv ht hm rfl
      (h.solo.move hmove) (started_move h.started hmove) hfailed hunsent hflight hstand⟩
  cases hchange with
  | @spawned task' caller hnone =>
    have htask : task ≠ task' := by
      rintro rfl
      rw [hnone] at ht
      cases ht
    exact hother (fun x hx _ => hx) rfl (by rwa [World.tasks_setTask_of_ne htask])
  | @read task' u got id' next left hu hphase =>
    by_cases htask : task = task'
    · subst htask
      obtain rfl := Option.some.inj (ht.symm.trans hu)
      obtain ⟨-, hleft, -⟩ := h.solo.of_reading hphase
      cases hleft
    · exact hother (fun x hx _ => hx) rfl (by rwa [World.tasks_setTask_of_ne htask])
  | @planned task' u got id' n progress hu hphase hafter =>
    by_cases htask : task = task'
    · subst htask
      obtain rfl := Option.some.inj (ht.symm.trans hu)
      obtain ⟨-, hleft, -⟩ := h.solo.of_reading hphase
      exact absurd ⟨rfl, List.singleton_inj.mp hleft, h.started _ _ hphase⟩ hno
    · exact hother (fun x hx _ => hx) rfl
        ((World.tasks_setTask_of_ne htask w _).trans ht)
  | @applied task' u written left write p hu hphase heval =>
    by_cases htask : task = task'
    · subst htask
      obtain rfl := Option.some.inj (ht.symm.trans hu)
      obtain ⟨_, hid, -, hleft, -⟩ := h.solo.of_writing hphase
      obtain ⟨rfl, -⟩ := List.cons.inj hleft
      have hdead := h.unsent write (by simp [Task.unsent_of_writing hphase])
      exact absurd ⟨rfl, hid, absent_of_dead hdead heval⟩ hno
    · refine hother (fun x hx _ => hx) ?_ ((World.tasks_setTask_of_ne htask _ _).trans ht)
      simp [Event.stand, Ne.symm htask]
  | @rejected task' u written left write hu hphase heval =>
    by_cases htask : task = task'
    · subst htask
      obtain rfl := Option.some.inj (ht.symm.trans hu)
      refine hown (.answered hphase) (World.tasks_setTask_self ..) ?_ ?_
        (fun x hx _ => .inl hx) rfl
      · intro update hret
        obtain ⟨_, -, rfl, hleft, -⟩ := h.solo.of_writing hphase
        obtain ⟨-, rfl⟩ := List.cons.inj hleft
        cases hret
      · intro w₁ hw
        rw [Task.unsent_afterSend] at hw
        simp [Task.unsent_of_writing hphase, hw]
    · exact hother (fun x hx _ => hx) rfl ((World.tasks_setTask_of_ne htask _ _).trans ht)
  | @failed task' u written left write err hu hphase =>
    by_cases htask : task = task'
    · subst htask
      obtain rfl := Option.some.inj (ht.symm.trans hu)
      refine hown (.failed err hphase) (World.tasks_setTask_self ..) ?_ ?_
        (fun x hx _ => .inl hx) rfl
      · exact failed_of_failure h.solo hphase
      · intro w₁ hw
        rw [Task.unsent_afterSend] at hw
        simp [Task.unsent_of_writing hphase, hw]
    · exact hother (fun x hx _ => hx) rfl ((World.tasks_setTask_of_ne htask _ _).trans ht)
  | @detached task' u written left write err hu hphase =>
    by_cases htask : task = task'
    · subst htask
      obtain rfl := Option.some.inj (ht.symm.trans hu)
      refine hown (.failed err hphase) (World.tasks_setTask_self ..) ?_ ?_ ?_ rfl
      · exact failed_of_failure h.solo hphase
      · intro w₁ hw
        rw [Task.unsent_afterSend] at hw
        simp [Task.unsent_of_writing hphase, hw]
      · intro x hx _
        rcases List.mem_cons.mp hx with rfl | hx
        · exact .inr ⟨rfl, by simp [InFlight.of, Task.unsent_of_writing hphase]⟩
        · exact .inl hx
    · refine hother (fun x hx hx' => ?_) rfl ((World.tasks_setTask_of_ne htask _ _).trans ht)
      rcases List.mem_cons.mp hx with rfl | hx
      · exact absurd hx'.symm htask
      · exact hx
  | @readBack task' u left write lost hu hphase =>
    by_cases htask : task = task'
    · subst htask
      obtain rfl := Option.some.inj (ht.symm.trans hu)
      refine hown (.readBack _ hphase) (World.tasks_setTask_self ..) ?_ (by simp)
        (fun x hx _ => .inl hx) rfl
      obtain ⟨_, hid, hleft, rfl, houtcome⟩ := h.solo.of_readingBack hphase
      obtain ⟨rfl, rfl⟩ := List.cons.inj hleft
      -- nothing of the call stands, so it is not told that its write landed
      have hnot : landed write.readRev (w.view t.call.backKeys write.id) write.mine ≠ .yes := by
        intro hyes
        have hmem := (standing_of_landed (hrun.step hstep)).1 hyes
        rw [hid, h.standing] at hmem
        cases hmem
      intro update hret
      rw [houtcome] at hret
      rcases @Solo.afterReadBack id t.progress.round _ hid (w.view t.call.backKeys write.id) with
        ⟨hnew, -⟩ | ⟨outcome, update', hnew, hwhy⟩
      · rw [hnew] at hret
        cases hret
      · rw [hnew] at hret
        cases hret
        rcases hwhy with ⟨-, hyes⟩ | rfl | ⟨why, rfl⟩
        · exact absurd hyes hnot
        · trivial
        · trivial
    · exact hother (fun x hx _ => hx) rfl ((World.tasks_setTask_of_ne htask _ _).trans ht)
  | @ended task' u phase hu hret hend =>
    by_cases htask : task = task'
    · subst htask
      obtain rfl := Option.some.inj (ht.symm.trans hu)
      refine hown (.ended hret hend) (World.tasks_setTask_self ..) ?_ ?_
        (fun x hx _ => .inl hx) rfl
      · intro update hret'
        rcases hend with rfl | ⟨err, rfl⟩ <;> cases hret'
      · intro w₁ hw
        rcases hend with rfl | ⟨err, rfl⟩ <;> cases hw
    · exact hother (fun x hx _ => hx) rfl ((World.tasks_setTask_of_ne htask _ _).trans ht)
  | @abandoned task' u written left write hu hphase =>
    by_cases htask : task = task'
    · subst htask
      obtain rfl := Option.some.inj (ht.symm.trans hu)
      refine hown (.ended (fun _ => by simp [hphase]) (.inl rfl)) (World.tasks_setTask_self ..)
        (fun _ hret => by cases hret) (fun _ hw => by cases hw) (fun x hx _ => ?_) rfl
      rcases List.mem_cons.mp hx with rfl | hx
      · exact .inr ⟨rfl, by simp [InFlight.of, Task.unsent_of_writing hphase]⟩
      · exact .inl hx
    · refine hother (fun x hx hx' => ?_) rfl ((World.tasks_setTask_of_ne htask _ _).trans ht)
      rcases List.mem_cons.mp hx with rfl | hx
      · exact absurd hx'.symm htask
      · exact hx
  | @arrived i x p hx heval =>
    have hmem := List.mem_of_getElem? hx
    by_cases htask : x.task = task
    · obtain ⟨u, hu, hcaller⟩ := (answered_run s hrun).inFlight x hmem
      obtain rfl := Option.some.inj (ht.symm.trans (htask ▸ hu))
      have hid : x.write.id = id := by
        have hpending := hstories.ids x hmem
        rw [← hcaller, hone] at hpending
        exact List.mem_singleton.mp hpending
      exact absurd ⟨htask, hid, absent_of_dead (h.inFlight x hmem htask) heval⟩ hno
    · refine hother (fun y hy _ => List.mem_of_mem_eraseIdx hy) ?_ ht
      simp [Event.stand, htask]
  | ignored hx heval => exact hother (fun y hy _ => List.mem_of_mem_eraseIdx hy) rfl ht
  | erased hp => exact hother (fun y hy _ => hy) (by simp [Event.stand]) ht
  | untouched => exact hother (fun y hy _ => hy) rfl ht

/-- A call that returned and has nothing in flight does nothing more. -/
theorem returned_step (hc : Change w e w') {result : Except AlayaError Outcome}
    (ht : w.tasks task = some t) (hret : t.progress.phase = .returned result)
    (hflight : ∀ s ∈ w.inFlight, s.task ≠ task) :
    w'.tasks task = some t ∧ (∀ s ∈ w'.inFlight, s.task ≠ task) ∧ e.actor ≠ some task := by
  have hother : ∀ {task' : TaskId} {u : Task}, w.tasks task' = some u →
      (∀ r, u.progress.phase ≠ .returned r) → task ≠ task' := by
    rintro task' u hu hnot rfl
    obtain rfl := Option.some.inj (ht.symm.trans hu)
    exact hnot _ hret
  have hset : ∀ {task' : TaskId} {u' : Task}, task ≠ task' →
      (w.setTask task' u').tasks task = some t := by
    intro task' u' htask
    rwa [World.tasks_setTask_of_ne htask]
  cases hc with
  | @spawned task' caller hnone =>
    have htask : task ≠ task' := by
      rintro rfl
      rw [hnone] at ht
      cases ht
    exact ⟨hset htask, hflight, nofun⟩
  | read hu hphase =>
    have htask := hother hu (by simp [hphase])
    exact ⟨hset htask, hflight, by simpa [Event.actor] using Ne.symm htask⟩
  | planned hu hphase _ =>
    have htask := hother hu (by simp [hphase])
    exact ⟨hset htask, hflight, by simpa [Event.actor] using Ne.symm htask⟩
  | applied hu hphase _ =>
    have htask := hother hu (by simp [hphase])
    exact ⟨hset htask, hflight, by simpa [Event.actor] using Ne.symm htask⟩
  | rejected hu hphase _ =>
    have htask := hother hu (by simp [hphase])
    exact ⟨hset htask, hflight, by simpa [Event.actor] using Ne.symm htask⟩
  | failed hu hphase => exact ⟨hset (hother hu (by simp [hphase])), hflight, nofun⟩
  | detached hu hphase =>
    have htask := hother hu (by simp [hphase])
    refine ⟨hset htask, fun x hx => ?_, nofun⟩
    rcases List.mem_cons.mp hx with rfl | hx
    · exact Ne.symm htask
    · exact hflight x hx
  | readBack hu hphase =>
    have htask := hother hu (by simp [hphase])
    exact ⟨hset htask, hflight, by simpa [Event.actor] using Ne.symm htask⟩
  | ended hu hnot _ => exact ⟨hset (hother hu hnot), hflight, nofun⟩
  | abandoned hu hphase =>
    have htask := hother hu (by simp [hphase])
    refine ⟨hset htask, fun x hx => ?_, nofun⟩
    rcases List.mem_cons.mp hx with rfl | hx
    · exact Ne.symm htask
    · exact hflight x hx
  | arrived hx _ =>
    refine ⟨ht, fun y hy => hflight y (List.mem_of_mem_eraseIdx hy), ?_⟩
    simpa [Event.actor] using hflight _ (List.mem_of_getElem? hx)
  | ignored hx _ =>
    refine ⟨ht, fun y hy => hflight y (List.mem_of_mem_eraseIdx hy), ?_⟩
    simpa [Event.actor] using hflight _ (List.mem_of_getElem? hx)
  | erased _ => exact ⟨ht, hflight, nofun⟩
  | untouched => exact ⟨ht, hflight, nofun⟩

end

/-! ### The store and the delete -/

/-- What has become of a call at the moment its point is deleted. -/
theorem doomed_or_returned {s : Start} {id : PointId} {tr : List Event} {w : World} {task : TaskId}
    {t : Task} (hrun : Runs s.world (tr ++ [.erased id]) w) (ht : w.tasks task = some t)
    (hone : t.call.pending = [id]) (hstarted : t.progress.Started) :
    Doomed id (tr ++ [.erased id]) w task t ∨
      (∃ result, t.progress.phase = .returned result) ∧ ∀ x ∈ w.inFlight, x.task ≠ task := by
  have hstories := story_run s hrun
  have hsolo := solo_run s hrun task t ht hone
  obtain ⟨m, hpre, hstep⟩ := hrun.last
  have hgone : w.points id = none := by
    cases change_of_step hstep with
    | erased _ => exact World.points_setPoint_self ..
  have hstand : standing task id (tr ++ [.erased id]) = [] := by
    simp [standing_concat, Event.stand]
  have hdead : ∀ (call : UpdateCall) (write : Write), write.id = id → w.Dead call write := by
    rintro call write rfl p hp
    rw [hgone] at hp
    cases hp
  have hunsent : ∀ write ∈ t.unsent, w.Dead t.call write := by
    intro write hw
    refine hdead _ _ ?_
    unfold Task.unsent at hw
    split at hw
    · next hphase =>
      obtain ⟨write', hid, -, rfl, -⟩ := hsolo.of_writing hphase
      rwa [List.mem_singleton.mp hw]
    · cases hw
  have hids : ∀ x ∈ w.inFlight, x.task = task → x.write.id = id := by
    rintro x hx rfl
    obtain ⟨u, hu, hcaller⟩ := (answered_run s hrun).inFlight x hx
    obtain rfl := Option.some.inj (ht.symm.trans hu)
    have hpending := hstories.ids x hx
    rw [← hcaller, hone] at hpending
    exact List.mem_singleton.mp hpending
  by_cases hflight : ∃ x ∈ w.inFlight, x.task = task
  · -- its write is still out, so it was told that the send failed
    left
    obtain ⟨x, hx, rfl⟩ := hflight
    refine ⟨hsolo, hstarted, fun update hret => ?_, hstand, hunsent,
      fun y hy hy' => hdead _ _ (hids y hy hy')⟩
    have hmem : (x.write.id, Stage.settled update) ∈ t.stages := by
      rw [hids x hx rfl]
      simp [Task.stages, hret, settledStages]
    obtain ⟨err, herr⟩ := hstories.inFlight x hx t ht _ hmem
    cases herr
    trivial
  · by_cases hret : ∃ result, t.progress.phase = .returned result
    · exact .inr ⟨hret, fun x hx htask => hflight ⟨x, hx, htask⟩⟩
    · refine .inl ⟨hsolo, hstarted, fun update hphase => absurd ⟨_, hphase⟩ hret, hstand, hunsent,
        fun x hx htask => absurd ⟨x, hx, htask⟩ hflight⟩

/-- The result of a doomed store is an error. -/
theorem Doomed.report {id : PointId} {tr : List Event} {w : World} {task : TaskId} {t : Task}
    (h : Doomed id tr w task t) {result : Except AlayaError Outcome}
    (hret : t.progress.phase = .returned result) (hash : String) :
    ∃ err, storeReport hash id result = .error err := by
  cases result with
  | error err => exact ⟨err, rfl⟩
  | ok outcome =>
    obtain ⟨update, rfl⟩ := h.solo.of_returned hret
    have hfailed := h.failed update hret
    have hreport : storeReport hash id (.ok [(id, update)]) = storeResult hash (some update) := by
      show storeResult hash ([(id, update)].lookup id) = _
      simp
    rw [hreport]
    cases update with
    | deleted | unconfirmed => exact ⟨_, rfl⟩
    | _ => cases hfailed

/-- A store has one point. -/
theorem pending_of_store {params : StoreParams} {ctx : StoreContext} {mode : StoreMode}
    {call : UpdateCall} {id : PointId} (h : (Op.store params ctx mode).call = .ok call)
    (hid : hashToUuid ctx.contentHash = .ok id) : call.pending = [id] := by
  obtain ⟨-, hstore⟩ := call_store_eq_ok h
  obtain ⟨pointId, hpoint, rfl⟩ := store_eq_ok hstore
  obtain rfl := Except.ok.inj (hid.symm.trans hpoint)
  rfl

theorem tasks_run {w w' : World} {tr : List Event} {task : TaskId} {t : Task}
    (hrun : Runs w tr w') (ht : w.tasks task = some t) :
    ∃ t', w'.tasks task = some t' ∧ t'.toCaller = t.toCaller := by
  refine hrun.preserves (fun w' => ∃ t', w'.tasks task = some t' ∧ t'.toCaller = t.toCaller)
    ⟨t, ht, rfl⟩ ?_
  rintro m e m' ⟨t', ht', hcaller⟩ hstep
  obtain ⟨t'', ht'', hcaller'⟩ := (change_of_step hstep).tasks ht'
  exact ⟨t'', ht'', hcaller'.trans hcaller⟩

/-- Once it has read its point, a call has started, and stays so. -/
theorem started_run {w w' : World} {tr : List Event} {task : TaskId} {t : Task}
    (hrun : Runs w tr w') (ht : w.tasks task = some t) (hstarted : t.progress.Started) :
    ∃ t', w'.tasks task = some t' ∧ t'.progress.Started := by
  refine hrun.preserves (fun w' => ∃ t', w'.tasks task = some t' ∧ t'.progress.Started)
    ⟨t, ht, hstarted⟩ ?_
  rintro m e m' ⟨u, hu, hstarted⟩ hstep
  have hc := change_of_step hstep
  obtain ⟨u', hu', -⟩ := hc.tasks hu
  refine ⟨u', hu', ?_⟩
  rcases hc.call hu' with hsame | ⟨hnone, -⟩ | ⟨t, progress, ht, hmove, rfl⟩
  · rwa [Option.some.inj (hsame.symm.trans hu)]
  · rw [hnone] at hu
    cases hu
  · obtain rfl := Option.some.inj (hu.symm.trans ht)
    exact started_move hstarted hmove

/-- Its first read leaves a call on one point past the reads of that round. -/
theorem started_of_read {s : Start} {tr : List Event} {w w' : World} {task : TaskId} {round : ℕ}
    {id : PointId} {found : Option Payload} (hrun : Runs s.world tr w)
    (hstep : Steps World.step w (.read task round id found) w')
    (hone : ∀ u, w.tasks task = some u → u.call.pending = [id]) :
    ∃ t, w'.tasks task = some t ∧ t.progress.Started := by
  cases change_of_step hstep with
  | @read _ u got _ next left hu hphase =>
    obtain ⟨-, hleft, -⟩ := (solo_run s hrun task u hu (hone u hu)).of_reading hphase
    cases hleft
  | @planned _ u got _ n progress hu hphase hafter =>
    obtain ⟨rfl, hleft, houtcome⟩ := (solo_run s hrun task u hu (hone u hu)).of_reading hphase
    rw [houtcome] at hafter
    exact ⟨_, World.tasks_setTask_self .., fun got left hreading =>
      absurd hreading ((Solo.afterReads hafter).2 got left)⟩

/-- From a delete on, a call on the point is doomed, or it had returned and does nothing more. -/
theorem doomed_run {s : Start} {id : PointId} {pre tr : List Event} {w w' : World} {task : TaskId}
    {t : Task} (hpre : Runs s.world (pre ++ [.erased id]) w) (ht : w.tasks task = some t)
    (hone : t.call.pending = [id]) (hstarted : t.progress.Started) (hrun : Runs w tr w')
    (hno : ∀ e ∈ tr, ¬e.Restarts task id) :
    (∃ t', w'.tasks task = some t' ∧ t'.call.pending = [id] ∧
      Doomed id (pre ++ [.erased id] ++ tr) w' task t') ∨ ∀ e ∈ tr, e.actor ≠ some task := by
  rcases doomed_or_returned hpre ht hone hstarted with hdoomed | ⟨⟨result, hret⟩, hflight⟩
  · left
    refine hrun.invariant (fun tr w' => (∀ e ∈ tr, ¬e.Restarts task id) →
      ∃ t', w'.tasks task = some t' ∧ t'.call.pending = [id] ∧
        Doomed id (pre ++ [.erased id] ++ tr) w' task t') ?_ ?_ hno
    · exact fun _ => ⟨t, ht, hone, by rwa [List.append_nil]⟩
    · intro tr m e m' hmid ih hstep hno
      obtain ⟨t', ht', hone', hdoomed'⟩ := ih fun e he => hno e (List.mem_append_left _ he)
      obtain ⟨t'', ht'', hcall, hdoomed''⟩ :=
        hdoomed'.step (hpre.append hmid) ht' hone' hstep (hno e (by simp))
      exact ⟨t'', ht'', by rw [hcall, hone'], by rwa [← List.append_assoc]⟩
  · right
    refine (hrun.invariant (fun tr w' => (w'.tasks task = some t ∧
      ∀ x ∈ w'.inFlight, x.task ≠ task) ∧ ∀ e ∈ tr, e.actor ≠ some task)
      ⟨⟨ht, hflight⟩, fun _ he => by cases he⟩ ?_).2
    rintro tr m e m' - ⟨⟨ht', hflight'⟩, hquiet⟩ hstep
    obtain ⟨ht'', hflight'', hactor⟩ := returned_step (change_of_step hstep) ht' hret hflight'
    refine ⟨⟨ht'', hflight''⟩, fun e' he' => ?_⟩
    rcases List.mem_append.mp he' with he' | he'
    · exact hquiet e' he'
    · rwa [List.mem_singleton.mp he']

/-- **A store whose point was deleted while it ran.**  When a delete takes effect after the store's
first read and the store acts again, and does not start over, it reports an error and nothing it
wrote remains. -/
theorem deleted_while_storing {s : Start} {a b c : List Event} {w : World} {task : TaskId}
    {id : PointId} {found : Option Payload} {t : Task} {params : StoreParams} {ctx : StoreContext}
    {mode : StoreMode}
    (hrun : Runs s.world (a ++ .read task 0 id found :: (b ++ .erased id :: c)) w)
    (ht : w.tasks task = some t) (hop : t.op = .store params ctx mode)
    (hid : hashToUuid ctx.contentHash = .ok id)
    (hacts : ∃ e ∈ c, e.actor = some task) (hno : ∀ e ∈ c, ¬e.Restarts task id) :
    (∀ result, t.progress.phase = .returned result →
      ∃ err, storeReport ctx.contentHash id result = .error err) ∧
      standing task id (a ++ .read task 0 id found :: (b ++ .erased id :: c)) = [] := by
  obtain ⟨m₀, m₁, ha, hread, hrest⟩ := hrun.split_at
  obtain ⟨m₂, m₃, hb, herased, hc⟩ := hrest.split_at
  have hone : ∀ {m tr}, Runs m tr w → ∀ u, m.tasks task = some u → u.call.pending = [id] := by
    intro m tr hm u hu
    obtain ⟨t', ht', hcaller⟩ := tasks_run hm hu
    obtain rfl := Option.some.inj (ht.symm.trans ht')
    have hwf := u.wf
    rw [show u.op = .store params ctx mode by rw [← hcaller, hop]] at hwf
    exact pending_of_store hwf hid
  obtain ⟨t₁, ht₁, hstarted₁⟩ := started_of_read ha hread (hone ((Run.single hread).append hrest))
  obtain ⟨t₂, ht₂, hstarted₂⟩ := started_run (hb.step herased) ht₁ hstarted₁
  have hpre : Runs s.world ((a ++ .read task 0 id found :: b) ++ [.erased id]) m₃ := by
    have hmid := ha.append (((Run.single hread).append hb).step herased)
    rw [List.singleton_append, ← List.append_assoc] at hmid
    exact hmid
  rcases doomed_run hpre ht₂ (hone hc t₂ ht₂) hstarted₂ hc hno with
    ⟨t', ht', -, hdoomed⟩ | hquiet
  · obtain rfl := Option.some.inj (ht.symm.trans ht')
    refine ⟨fun result hret => hdoomed.report hret _, ?_⟩
    have hstand := hdoomed.standing
    simpa only [List.append_assoc, List.cons_append, List.singleton_append, List.nil_append]
      using hstand
  · obtain ⟨e, he, hactor⟩ := hacts
    exact absurd hactor (hquiet e he)

/-! ### Two stores and a delete -/

/-- The outcome a call returned. -/
def Task.outcome (t : Task) : Option Outcome :=
  match t.progress.phase with
  | .returned (.ok outcome) => some outcome
  | _ => none

theorem Task.returned_of_outcome {t : Task} {outcome : Outcome} (h : t.outcome = some outcome) :
    t.progress.phase = .returned (.ok outcome) := by
  unfold Task.outcome at h
  split at h
  · next hphase =>
    obtain rfl := Option.some.inj h
    exact hphase
  · cases h

/-- A run by its schedule, with what the first call returned. -/
theorem run_of_schedule {tr : List Event} {op : Op} {outcome : Outcome} (as : List Action)
    (htrace : (exec World.step emptyStart.world as).map Prod.fst = some tr)
    (htask : ((exec World.step emptyStart.world as).bind (·.2.tasks 0)).map
      (fun t => (t.op, t.outcome)) = some (op, some outcome)) :
    ∃ w t, Runs emptyStart.world tr w ∧ w.tasks 0 = some t ∧ t.op = op ∧
      t.progress.phase = .returned (.ok outcome) := by
  obtain ⟨⟨_, w⟩, hexec, rfl⟩ := Option.map_eq_some_iff.mp htrace
  rw [hexec] at htask
  obtain ⟨t, ht, hop⟩ := Option.map_eq_some_iff.mp htask
  obtain ⟨rfl, hout⟩ := Prod.mk.inj hop
  exact ⟨w, t, run_of_exec hexec, ht, rfl, Task.returned_of_outcome hout⟩

/-- The second insert of the first client. -/
def insertAgain : Write :=
  UpdateCall.plan aPoint none (token 1 1) (memoryToPayload (aParams.memory aContext))

/-- A store loses the race for its insert, the point is deleted, and its second round inserts it
again: the store reports that it created the memory, and what it wrote stays. -/
theorem store_survives_delete : ∃ a b c w t found outcome,
    Runs emptyStart.world (a ++ .read 0 0 aPoint found :: (b ++ .erased aPoint :: c)) w ∧
      w.tasks 0 = some t ∧ t.op = .store aParams aContext .upsert ∧
      hashToUuid aContext.contentHash = .ok aPoint ∧
      (∃ e ∈ c, e.actor = some 0) ∧ t.progress.phase = .returned (.ok outcome) ∧
      storeReport aContext.contentHash aPoint (.ok outcome) = .ok (true, aContext.contentHash) ∧
      standing 0 aPoint (a ++ .read 0 0 aPoint found :: (b ++ .erased aPoint :: c)) =
        [insertAgain.mine] := by
  obtain ⟨w, t, hrun, ht, hop, hret⟩ := @run_of_schedule
    ([.quiet, .quiet] ++ .read 0 0 aPoint none :: ([.read 1 0 aPoint none,
      .wrote 1 aStore (insertOf 2) none (insertOf 2).payload, .rejected 0 aStore (insertOf 1),
      .readBack 0 aStore (insertOf 1) (some ((insertOf 2).payload.only [revKey, revLogKey]))] ++
      .erased aPoint :: [.read 0 1 aPoint none,
        .wrote 0 aStore insertAgain none insertAgain.payload,
        .readBack 0 aStore insertAgain (some (insertAgain.payload.only [revKey, revLogKey]))]))
    aStore [(aPoint, .landed (insertAgain.payload.only [revKey, revLogKey]) true)]
    [.spawn 0 1 aStore, .spawn 1 2 aStore, .read 0, .read 1, .send 1, .send 0, .readBack 0,
      .delete aHash, .read 0, .send 0, .readBack 0] (by decide +kernel)
    (by decide +kernel)
  exact ⟨_, _, _, w, t, none, _, hrun, ht, hop, by decide, ⟨_, List.mem_cons_self, rfl⟩, hret,
    rfl, rfl⟩

/-- A store whose point is deleted between its write and its read-back reports an error. -/
theorem deleted_while_storing_once : ∃ tr w t outcome err, Runs emptyStart.world tr w ∧
    w.tasks 0 = some t ∧ t.progress.phase = .returned (.ok outcome) ∧
    storeReport aHash aPoint (.ok outcome) = .error err ∧ standing 0 aPoint tr = [] := by
  obtain ⟨w, t, hrun, ht, hop, hret⟩ := @run_of_schedule
    ([.quiet] ++ .read 0 0 aPoint none :: ([.wrote 0 aStore (insertOf 1) none (insertOf 1).payload]
      ++ .erased aPoint :: [.readBack 0 aStore (insertOf 1) none]))
    aStore [(aPoint, .deleted)]
    [.spawn 0 1 aStore, .read 0, .send 0, .delete aHash, .readBack 0] (by decide +kernel)
    (by decide +kernel)
  obtain ⟨hreport, hstand⟩ := deleted_while_storing hrun ht hop (by decide)
    ⟨_, List.mem_cons_self, rfl⟩ (by simp [Event.Restarts])
  obtain ⟨err, herr⟩ := hreport _ hret
  exact ⟨_, w, t, _, err, hrun, ht, hret, herr, hstand⟩

end Alaya
