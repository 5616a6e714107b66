import Alaya.Cluster.Change
import Alaya.Lib.Ledger

/-!
# Conditional writes are atomic

A write built from a copy of a point applies only to that copy: between the read and the commit of an
applied write nothing happened to the point.  The argument is about revision tokens.  Every token is
held by at most one unsent or in-flight write (`Inv.unique`), and a token some copy was read with is
`Past`: no write still to come carries it.  So once a point moved on from a copy, its revision can
never be the one the copy was read with (`Intact`).

`wrote_lands` is the result of one step, and `cell_run` that of a run: a point is a `CellStep` run,
in which every write is applied to what the point holds at that moment.
-/

namespace Alaya

open Json Labelled

namespace Task

/-- The writes a call has built and not sent. -/
def unsent (t : Task) : List Write :=
  match t.progress.phase with
  | .writing _ left => left
  | _ => []

/-- What a call has read in its current round. -/
def got (t : Task) : List (PointId × Option Payload) :=
  match t.progress.phase with
  | .reading got _ => got
  | _ => []

theorem got_of_reading {t : Task} {got : List (PointId × Option Payload)} {left : List PointId}
    (h : t.progress.phase = .reading got left) : t.got = got := by
  simp [Task.got, h]

theorem unsent_of_writing {t : Task} {written left : List Write}
    (h : t.progress.phase = .writing written left) : t.unsent = left := by
  simp [unsent, h]

@[simp] theorem unsent_start (caller : Caller) : (start caller).unsent = [] := by
  unfold unsent start UpdateCall.startRound
  split_ifs <;> rfl

@[simp] theorem unsent_afterSend (t : Task) (round : ℕ) (outcome : Outcome)
    (written left : List Write) :
    (t.withProgress (UpdateCall.afterSend round outcome written left)).unsent = left := by
  unfold unsent withProgress UpdateCall.afterSend
  cases left <;> cases written <;> rfl

@[simp] theorem unsent_afterReadBack (t : Task) (round : ℕ) (outcome : Outcome) (write : Write)
    (left : List Write) (lost : List PointId) (back : Option Payload) :
    (t.withProgress (UpdateCall.afterReadBack round outcome write left lost back)).unsent = [] := by
  unfold unsent withProgress UpdateCall.afterReadBack
  cases left with
  | nil =>
    simp only [UpdateCall.startRound]
    split_ifs <;> rfl
  | cons _ _ => rfl

@[simp] theorem got_start (caller : Caller) : (start caller).got = [] := by
  unfold got start UpdateCall.startRound
  split_ifs <;> rfl

@[simp] theorem got_afterSend (t : Task) (round : ℕ) (outcome : Outcome)
    (written left : List Write) :
    (t.withProgress (UpdateCall.afterSend round outcome written left)).got = [] := by
  unfold got withProgress UpdateCall.afterSend
  cases left <;> cases written <;> rfl

@[simp] theorem got_afterReadBack (t : Task) (round : ℕ) (outcome : Outcome) (write : Write)
    (left : List Write) (lost : List PointId) (back : Option Payload) :
    (t.withProgress (UpdateCall.afterReadBack round outcome write left lost back)).got = [] := by
  unfold got withProgress UpdateCall.afterReadBack
  cases left with
  | nil =>
    simp only [UpdateCall.startRound]
    split_ifs <;> rfl
  | cons _ _ => rfl

end Task

namespace World

variable {w w' : World}

/-! ### Tokens in play -/

/-- The tokens of the writes each call has not sent, and of those in flight. -/
def slot (w : World) : Option TaskId → List String
  | some task => (((w.tasks task).map Task.unsent).getD []).map Write.mine
  | none => w.inFlight.map fun s => s.write.mine

@[simp] theorem slot_setTask (w : World) (task : TaskId) (t : Task) :
    (w.setTask task t).slot = Function.update w.slot (some task) (t.unsent.map Write.mine) := by
  funext s
  cases s with
  | none => rfl
  | some task' =>
    by_cases h : task' = task
    · subst h
      simp [slot, setTask]
    · simp [slot, setTask, h]

@[simp] theorem slot_setPoint (w : World) (id : PointId) (p : Option Payload) :
    (w.setPoint id p).slot = w.slot := rfl

theorem slot_inFlight (w : World) (l : List InFlight) :
    ({ w with inFlight := l } : World).slot =
      Function.update w.slot none (l.map fun s => s.write.mine) := by
  funext s
  cases s <;> rfl

theorem slot_of_task {task : TaskId} {t : Task} (ht : w.tasks task = some t) :
    w.slot (some task) = t.unsent.map Write.mine := by
  simp [slot, ht]

/-- No write still to come carries the token. -/
def Past (w : World) (r : String) : Prop :=
  (∀ s, r ∉ w.slot s) ∧ ∀ c n, w.writes c ≤ n → r ≠ token c n

/-- A copy read of a point: where the condition of a write built from it holds, the point still is
that copy. -/
def Intact (w : World) (call : UpdateCall) (id : PointId) (prev : Payload) : Prop :=
  (∀ r, revOf prev = some r → w.Past r) ∧
    ∀ p, w.points id = some p → (revCondition (revOf prev)).holds p = true →
      restrict call.readKeys p = prev

/-- A write a call built, from nothing or from a copy that is intact. -/
inductive Built (w : World) (call : UpdateCall) (write : Write) : Prop
  | insert {payload : Payload} :
      call.commit = .upsert payload →
      write = UpdateCall.plan write.id none write.mine payload → Built w call write
  | update {prev payload : Payload} :
      call.modify prev = .ok (some payload) →
      write = UpdateCall.plan write.id (some prev) write.mine payload →
      w.Intact call write.id prev → Built w call write

/-- What a call has read is intact, and what it has built was built from what it read. -/
def TaskOk (w : World) (t : Task) : Prop :=
  (∀ id prev, (id, some prev) ∈ t.got → w.Intact t.call id prev) ∧
  ∀ write ∈ t.unsent, w.Built t.call write

/-- **The invariant of the conditional writes.** -/
structure Inv (w : World) : Prop where
  unique : Ledger.Unique w.slot
  used : ∀ s t, t ∈ w.slot s → ∃ c n, n < w.writes c ∧ t = token c n
  shown : ∀ id p, w.points id = some p → ∀ r ∈ (revOf p).toList ++ p.revTokens, w.Past r
  tasks : ∀ task t, w.tasks task = some t → w.TaskOk t
  inFlight : ∀ s ∈ w.inFlight, w.Built s.call s.write

/-! ### Past stays past -/

/-- How one step may move tokens and points: a new token is fresh from its client's counter, and a
point that changes shows a token that was still in play. -/
structure Moves (w w' : World) : Prop where
  writes : ∀ c, w.writes c ≤ w'.writes c
  slots : ∀ s t, t ∈ w'.slot s →
    (∃ s', t ∈ w.slot s') ∨ ∃ c n, w.writes c ≤ n ∧ n < w'.writes c ∧ t = token c n
  points : ∀ id p, w'.points id = some p →
    w.points id = some p ∨ ∃ t s, p.get revKey = some (.string t) ∧ t ∈ w.slot s

theorem Past.mono {r : String} (h : w.Past r) (hm : Moves w w') : w'.Past r := by
  refine ⟨fun s hr => ?_, fun c n hn => h.2 c n ((hm.writes c).trans hn)⟩
  rcases hm.slots s r hr with ⟨s', hr⟩ | ⟨c, n, hn, -, rfl⟩
  · exact h.1 s' hr
  · exact h.2 c n hn rfl

/-- A revision some copy was read with never matches a point that moved on since. -/
theorem not_holds_of_moved {rev : Option String} (hpast : ∀ r, rev = some r → w.Past r)
    {p : Payload} {t : String} {s : Option TaskId} (hrev : p.get revKey = some (.string t))
    (ht : t ∈ w.slot s) : (revCondition rev).holds p = false := by
  cases rev with
  | none => exact Condition.not_isEmpty_of_string hrev
  | some r =>
    rw [← Bool.not_eq_true, revCondition, Condition.holds_matchValue_of_string hrev]
    rintro rfl
    exact (hpast t rfl).1 s ht

theorem Intact.mono {call : UpdateCall} {id : PointId} {prev : Payload}
    (h : w.Intact call id prev) (hm : Moves w w') : w'.Intact call id prev := by
  refine ⟨fun r hr => (h.1 r hr).mono hm, fun p hp hcond => ?_⟩
  rcases hm.points id p hp with hp | ⟨t, s, hrev, ht⟩
  · exact h.2 p hp hcond
  · rw [not_holds_of_moved h.1 hrev ht] at hcond
    cases hcond

theorem Built.mono {call : UpdateCall} {write : Write} (h : w.Built call write)
    (hm : Moves w w') : w'.Built call write := by
  cases h with
  | insert hcommit hplan => exact .insert hcommit hplan
  | update hmod hplan hintact => exact .update hmod hplan (hintact.mono hm)

theorem TaskOk.mono {t : Task} (h : w.TaskOk t) (hm : Moves w w') : w'.TaskOk t :=
  ⟨fun id prev hmem => (h.1 id prev hmem).mono hm,
    fun write hw => (h.2 write hw).mono hm⟩

/-! ### A built write lands on what it was built from -/

/-- **Atomicity of one write.**  What a built write leaves is what the call makes of the point as it
is when the write applies. -/
theorem land_of_built {call : UpdateCall} {write : Write} {p : Payload}
    (h : w.Built call write) (heval : (call.request write).evaluate (w.points write.id) = some p) :
    call.land write.mine (w.points write.id) = some p := by
  cases h with
  | @insert payload hcommit hplan =>
    have hpay : write.payload = stamp write.mine payload none := by rw [hplan]; rfl
    have hcreated : write.created = true := by rw [hplan]; rfl
    cases hpt : w.points write.id with
    | none =>
      simp only [UpdateCall.request, hcommit, hcreated, if_true, hpt, Request.evaluate] at heval
      simpa [UpdateCall.land, hcommit, ← hpay] using heval
    | some q =>
      simp [UpdateCall.request, hcommit, hcreated, hpt, Request.evaluate] at heval
  | @update prev payload hmod hplan hintact =>
    have hpay : write.payload = stamp write.mine payload (some prev) := by rw [hplan]; rfl
    have hrev : write.readRev = revOf prev := by rw [hplan]; rfl
    have hcreated : write.created = false := by rw [hplan]; rfl
    cases hpt : w.points write.id with
    | none =>
      simp only [UpdateCall.request, hcreated, Bool.false_eq_true, if_false, hpt] at heval
      split at heval <;> simp [Request.evaluate] at heval
    | some q =>
      have hcond : (revCondition (revOf prev)).holds q = true ∧
          call.commitOver q write.payload = p := by
        simp only [UpdateCall.request, hcreated, Bool.false_eq_true, if_false, hpt, hrev] at heval
        split at heval
        all_goals
          next hcommit =>
          simp only [Request.evaluate, Option.ite_none_right_eq_some, Option.some.injEq] at heval
          simpa only [UpdateCall.commitOver, hcommit] using heval
      obtain ⟨hcond, rfl⟩ := hcond
      simp only [UpdateCall.land, hintact.2 q hpt hcond, hmod, hpay]

/-! ### The invariant is kept -/

/-- What is new after a step is all there is to check. -/
theorem Inv.next (h : w.Inv) (hm : Moves w w') (hunique : Ledger.Unique w'.slot)
    (hshown : ∀ id p, w'.points id = some p →
      w.points id = some p ∨ ∀ r ∈ (revOf p).toList ++ p.revTokens, w'.Past r)
    (htasks : ∀ task t, w'.tasks task = some t → w.tasks task = some t ∨ w'.TaskOk t)
    (hflight : ∀ s ∈ w'.inFlight, s ∈ w.inFlight ∨ w'.Built s.call s.write) :
    w'.Inv ∧ Moves w w' := by
  refine ⟨⟨hunique, fun s t ht => ?_, fun id p hp => ?_, fun task t ht => ?_, fun s hs => ?_⟩, hm⟩
  · rcases hm.slots s t ht with ⟨s', ht⟩ | ⟨c, n, -, hn, rfl⟩
    · obtain ⟨c, n, hn, rfl⟩ := h.used s' t ht
      exact ⟨c, n, hn.trans_le (hm.writes c), rfl⟩
    · exact ⟨c, n, hn, rfl⟩
  · rcases hshown id p hp with hp | hnew
    · exact fun r hr => (h.shown id p hp r hr).mono hm
    · exact hnew
  · exact (htasks task t ht).elim (fun ht => (h.tasks task t ht).mono hm) id
  · exact (hflight s hs).elim (fun hs => (h.inFlight s hs).mono hm) id

/-- A call that builds nothing and sends nothing new. -/
theorem Inv.setTask (h : w.Inv) {task : TaskId} {t : Task}
    (hsub : (t.unsent.map Write.mine).Sublist (w.slot (some task))) (ht : w.TaskOk t) :
    (w.setTask task t).Inv ∧ Moves w (w.setTask task t) := by
  have hm : Moves w (w.setTask task t) := by
    refine ⟨fun c => le_rfl, fun s r hr => .inl ?_, fun id p hp => .inl hp⟩
    rw [slot_setTask] at hr
    by_cases hs : s = some task
    · subst hs
      rw [Function.update_self] at hr
      exact ⟨_, hsub.subset hr⟩
    · rw [Function.update_of_ne hs] at hr
      exact ⟨s, hr⟩
  refine h.next hm ?_ (fun id p hp => .inl hp) (fun task' t' ht' => ?_) (fun s hs => .inl hs)
  · rw [slot_setTask]
    exact h.unique.update_shrink hsub
  · by_cases htask : task' = task
    · subst htask
      obtain rfl := Option.some.inj ((tasks_setTask_self ..).symm.trans ht')
      exact .inr (ht.mono hm)
    · exact .inl (by rwa [tasks_setTask_of_ne htask] at ht')

/-- What a call sees of a point now is intact. -/
theorem Inv.intact_view (h : w.Inv) {call : UpdateCall} {id : PointId} {prev : Payload}
    (hview : w.view call.readKeys id = some prev) : w.Intact call id prev := by
  obtain ⟨p, hp, rfl⟩ := Option.map_eq_some_iff.mp hview
  refine ⟨fun r hr => ?_, fun q hq _ => ?_⟩
  · rw [revOf_restrict] at hr
    exact h.shown id p hp r (by simp [hr])
  · obtain rfl := Option.some.inj (hp.symm.trans hq)
    rfl

theorem taskOk_of_idle {t : Task} (hgot : t.got = []) (hunsent : t.unsent = []) : w.TaskOk t := by
  refine ⟨fun id prev hmem => ?_, fun write hw => ?_⟩
  · rw [hgot] at hmem
    cases hmem
  · rw [hunsent] at hw
    cases hw

/-- The writes a round builds were built from what it read. -/
theorem built_of_build {call : UpdateCall} {client : Client} {round n n' : ℕ}
    {got : List (PointId × Option Payload)} {ws : List Write} {settled : Outcome}
    (hgot : ∀ id prev, (id, some prev) ∈ got → w.Intact call id prev)
    (hbuild : call.build client round n got = (n', .ok (ws, settled))) :
    ∀ write ∈ ws, w.Built call write := by
  intro write hw
  obtain ⟨prev, payload, hmem, hdec, hplan⟩ := UpdateCall.build_plan hbuild write hw
  cases prev with
  | none => exact .insert (UpdateCall.decide_none_eq_write hdec) hplan
  | some prev => exact .update (UpdateCall.decide_some_eq_write hdec) hplan (hgot _ _ hmem)

/-- A call takes fresh tokens for the writes it built. -/
theorem Inv.issue (h : w.Inv) {task : TaskId} {t : Task} {client : Client} {n : ℕ}
    (ht : w.TaskOk t) (hn : w.writes client ≤ n) (hnodup : (t.unsent.map Write.mine).Nodup)
    (htok : ∀ write ∈ t.unsent, ∃ m, w.writes client ≤ m ∧ m < n ∧ write.mine = token client m) :
    ({ w.setTask task t with writes := Function.update w.writes client n } : World).Inv ∧
      Moves w { w.setTask task t with writes := Function.update w.writes client n } := by
  set w' : World := { w.setTask task t with writes := Function.update w.writes client n } with hw'
  have hslot : w'.slot = Function.update w.slot (some task) (t.unsent.map Write.mine) := by
    rw [hw']
    exact slot_setTask w task t
  have hwrites : w'.writes client = n := by simp [hw']
  have hfresh : ∀ r ∈ t.unsent.map Write.mine,
      ∃ m, w.writes client ≤ m ∧ m < n ∧ r = token client m := by
    intro r hr
    obtain ⟨write, hmem, rfl⟩ := List.mem_map.mp hr
    exact htok write hmem
  have hm : Moves w w' := by
    refine ⟨fun c => ?_, fun s r hr => ?_, fun id p hp => .inl hp⟩
    · by_cases hc : c = client
      · subst hc
        rwa [hwrites]
      · simp [hw', hc]
    · rw [hslot] at hr
      by_cases hs : s = some task
      · subst hs
        rw [Function.update_self] at hr
        obtain ⟨m, hle, hlt, rfl⟩ := hfresh r hr
        exact .inr ⟨client, m, hle, by rwa [hwrites], rfl⟩
      · rw [Function.update_of_ne hs] at hr
        exact .inl ⟨s, hr⟩
  refine h.next hm ?_ (fun id p hp => .inl hp) (fun task' t' ht' => ?_) (fun s hs => .inl hs)
  · rw [hslot]
    refine h.unique.issue hnodup fun r hr s hs => ?_
    -- a held token is below its client's counter, a new one is not
    obtain ⟨m, hle, -, rfl⟩ := hfresh r hr
    obtain ⟨c, k, hk, heq⟩ := h.used s _ hs
    obtain ⟨rfl, rfl⟩ := token_inj heq
    omega
  · by_cases htask : task' = task
    · subst htask
      obtain rfl : t = t' := by simpa [hw', World.setTask] using ht'
      exact .inr (ht.mono hm)
    · exact .inl (by simpa [hw', World.setTask, htask] using ht')

/-- A token that left its slot is past: it is held nowhere, and no counter will reach it again. -/
theorem Inv.past_spent (h : w.Inv) {s : Option TaskId} {a b l : List String} {r : String}
    (hs : w.slot s = a ++ r :: b) (hsub : l.Sublist (a ++ b))
    (hslot : w'.slot = Function.update w.slot s l) (hwrites : w'.writes = w.writes) :
    w'.Past r := by
  refine ⟨fun s' => ?_, fun c n hn heq => ?_⟩
  · rw [hslot]
    exact h.unique.spent hs hsub s'
  · obtain ⟨c', k, hk, rfl⟩ := h.used s r (by simp [hs])
    obtain ⟨rfl, rfl⟩ := token_inj heq
    rw [hwrites] at hn
    omega

/-- What a landed write shows: its own token, and tokens that were shown before it. -/
theorem seen_of_land {call : UpdateCall} {mine r : String} {cell : Option Payload} {p : Payload}
    (hland : call.land mine cell = some p) (hr : r ∈ (revOf p).toList ++ p.revTokens) :
    r = mine ∨ ∃ q, cell = some q ∧ r ∈ q.revTokens := by
  rcases List.mem_append.mp hr with hr | hr
  · rw [revOf_eq_some.mpr (UpdateCall.rev_land hland)] at hr
    exact .inl (by simpa using hr)
  · obtain ⟨v, hv, hstr⟩ := List.mem_filterMap.mp hr
    rw [UpdateCall.revLog_land hland] at hv
    rcases List.mem_append.mp (Recent.mem_of_mem_keepLast hv) with hv | hv
    · cases cell with
      | none => simp at hv
      | some q => exact .inr ⟨q, rfl, List.mem_filterMap.mpr ⟨v, by simpa using hv, hstr⟩⟩
    · obtain rfl := List.mem_singleton.mp hv
      exact .inl (Option.some.inj hstr).symm

/-- A write leaves its slot and applies. -/
theorem Inv.spend (h : w.Inv) {call : UpdateCall} {write : Write} {p : Payload}
    {s : Option TaskId} {a b l : List String} (hbuilt : w.Built call write)
    (heval : (call.request write).evaluate (w.points write.id) = some p)
    (hs : w.slot s = a ++ write.mine :: b) (hsub : l.Sublist (a ++ b))
    (hslot : w'.slot = Function.update w.slot s l) (hwrites : w'.writes = w.writes)
    (hpoints : w'.points = Function.update w.points write.id (some p))
    (htasks : ∀ task t, w'.tasks task = some t → w.tasks task = some t ∨ w.TaskOk t)
    (hflight : ∀ s ∈ w'.inFlight, s ∈ w.inFlight) : w'.Inv ∧ Moves w w' := by
  have hland := land_of_built hbuilt heval
  have hmine : write.mine ∈ w.slot s := by simp [hs]
  have hm : Moves w w' := by
    refine ⟨fun c => by rw [hwrites], fun s' r hr => .inl ?_, fun id q hq => ?_⟩
    · rw [hslot] at hr
      by_cases hs' : s' = s
      · subst hs'
        rw [Function.update_self] at hr
        rcases List.mem_append.mp (hsub.subset hr) with hr | hr
        · exact ⟨s', by simp [hs, hr]⟩
        · exact ⟨s', by simp [hs, hr]⟩
      · rw [Function.update_of_ne hs'] at hr
        exact ⟨s', hr⟩
    · rw [hpoints] at hq
      by_cases hid : id = write.id
      · subst hid
        obtain rfl : p = q := by simpa using hq
        exact .inr ⟨write.mine, s, UpdateCall.rev_land hland, hmine⟩
      · exact .inl (by simpa [hid] using hq)
  refine h.next hm ?_ (fun id q hq => ?_)
    (fun task t ht => (htasks task t ht).imp (fun ht => ht) (fun ht => ht.mono hm))
    (fun s hs => .inl (hflight s hs))
  · rw [hslot]
    exact h.unique.spend hs hsub
  · rw [hpoints] at hq
    by_cases hid : id = write.id
    · subst hid
      obtain rfl : p = q := by simpa using hq
      refine .inr fun r hr => ?_
      rcases seen_of_land hland hr with rfl | ⟨q, hq, hr⟩
      · exact h.past_spent hs hsub hslot hwrites
      · exact (h.shown _ q hq r (by simp [hr])).mono hm
    · exact .inl (by simpa [hid] using hq)

/-- A write leaves its call unanswered, and may arrive later. -/
theorem Inv.detach (h : w.Inv) {task : TaskId} {t t' : Task} {write : Write} {left : List Write}
    (ht : w.tasks task = some t) (hunsent : t.unsent = write :: left)
    (hsub : t'.unsent.Sublist left) (hok : w.TaskOk t') :
    ({ w.setTask task t' with inFlight := .of task t write :: w.inFlight } : World).Inv ∧
      Moves w { w.setTask task t' with inFlight := .of task t write :: w.inFlight } := by
  set w' : World := { w.setTask task t' with inFlight := .of task t write :: w.inFlight } with hw'
  have hs : w.slot (some task) = [] ++ write.mine :: left.map Write.mine := by
    rw [slot_of_task ht, hunsent]
    rfl
  have hsub' : (t'.unsent.map Write.mine).Sublist ([] ++ left.map Write.mine) := hsub.map _
  have hslot : w'.slot = Function.update
      (Function.update w.slot (some task) (t'.unsent.map Write.mine)) none
      (write.mine :: w.slot none) := by
    rw [hw', slot_inFlight, slot_setTask]
    rfl
  have hmine : write.mine ∈ w.slot (some task) := by simp [hs]
  have hm : Moves w w' := by
    refine ⟨fun c => le_rfl, fun s r hr => .inl ?_, fun id p hp => .inl hp⟩
    rw [hslot] at hr
    rcases s with _ | task'
    · rw [Function.update_self] at hr
      rcases List.mem_cons.mp hr with rfl | hr
      · exact ⟨_, hmine⟩
      · exact ⟨_, hr⟩
    · rw [Function.update_of_ne (by simp)] at hr
      by_cases htask : task' = task
      · subst htask
        rw [Function.update_self] at hr
        have hleft := hsub'.subset hr
        exact ⟨some task', by rw [hs]; simpa using .inr (by simpa using hleft)⟩
      · rw [Function.update_of_ne (by simpa using htask)] at hr
        exact ⟨_, hr⟩
  refine h.next hm ?_ (fun id p hp => .inl hp) (fun task' u hu => ?_) (fun s hmem => ?_)
  · rw [hslot]
    exact h.unique.move hs hsub' (by simp)
  · by_cases htask : task' = task
    · subst htask
      obtain rfl : t' = u := by simpa [hw', World.setTask] using hu
      exact .inr (hok.mono hm)
    · exact .inl (by simpa [hw', World.setTask, htask] using hu)
  · rcases List.mem_cons.mp hmem with rfl | hmem
    · exact .inr (((h.tasks task t ht).2 write (by simp [hunsent])).mono hm)
    · exact .inl hmem

/-! ### Every step keeps the invariant -/

theorem slot_eraseIdx {i : ℕ} {s : InFlight} (hs : w.inFlight[i]? = some s) :
    ∃ a b, w.slot none = a ++ s.write.mine :: b ∧
      (w.inFlight.eraseIdx i).map (fun s => s.write.mine) = a ++ b := by
  obtain ⟨hi, hget⟩ := List.getElem?_eq_some_iff.mp hs
  refine ⟨(w.inFlight.take i).map fun s => s.write.mine,
    (w.inFlight.drop (i + 1)).map fun s => s.write.mine, ?_, ?_⟩
  · have hsplit : w.inFlight = w.inFlight.take i ++ s :: w.inFlight.drop (i + 1) := by
      rw [← hget, List.getElem_cons_drop hi, List.take_append_drop]
    show w.inFlight.map _ = _
    conv_lhs => rw [hsplit]
    simp
  · rw [List.eraseIdx_eq_take_drop_succ, List.map_append]

theorem Inv.next_step {e : Event} (h : w.Inv) (hc : Change w e w') : w'.Inv ∧ Moves w w' := by
  cases hc with
  | spawned hnone => exact h.setTask (by simp) (taskOk_of_idle (by simp) (by simp))
  | @read task t got id next left ht hphase =>
    refine h.setTask (by simp [Task.unsent, Task.withPhase]) ⟨fun id' prev hmem => ?_, by
      simp [Task.unsent, Task.withPhase]⟩
    have hmem : (id', some prev) ∈ got ++ [(id, w.view t.call.readKeys id)] := hmem
    rcases List.mem_append.mp hmem with hmem | hmem
    · exact (h.tasks task t ht).1 id' prev (by rwa [Task.got_of_reading hphase])
    · obtain ⟨rfl, hview⟩ := Prod.mk.inj (List.mem_singleton.mp hmem)
      exact h.intact_view hview.symm
  | @planned task t got id n progress ht hphase hafter =>
    have hgot : ∀ id' prev, (id', some prev) ∈ got ++ [(id, w.view t.call.readKeys id)] →
        w.Intact t.call id' prev := by
      intro id' prev hmem
      rcases List.mem_append.mp hmem with hmem | hmem
      · exact (h.tasks task t ht).1 id' prev (by rwa [Task.got_of_reading hphase])
      · obtain ⟨rfl, hview⟩ := Prod.mk.inj (List.mem_singleton.mp hmem)
        exact h.intact_view hview.symm
    rcases UpdateCall.afterReads_cases hafter with ⟨rfl, rfl⟩ | ⟨err, hb, rfl⟩ | ⟨settled, hb, rfl⟩ |
      ⟨write, ws, settled, hb, rfl⟩
    · exact h.issue (taskOk_of_idle rfl rfl) le_rfl List.nodup_nil (fun _ hw => by cases hw)
    all_goals
      have hle : w.writes t.client ≤ (t.call.build t.client t.progress.round (w.writes t.client)
          (got ++ [(id, w.view t.call.readKeys id)])).1 := UpdateCall.le_build _ _
      rw [hb] at hle
    · exact h.issue (taskOk_of_idle rfl rfl) hle List.nodup_nil (fun _ hw => by cases hw)
    · exact h.issue (taskOk_of_idle rfl rfl) hle List.nodup_nil (fun _ hw => by cases hw)
    · obtain ⟨htok, hnodup⟩ := UpdateCall.build_tokens hb
      exact h.issue ⟨fun _ _ hmem => (List.not_mem_nil hmem).elim, built_of_build hgot hb⟩
        hle hnodup htok
  | @applied task t written left write p ht hphase heval =>
    have hunsent := Task.unsent_of_writing hphase
    refine h.spend (s := some task) (a := []) (b := left.map Write.mine)
      ((h.tasks task t ht).2 write (by simp [hunsent])) heval (by simp [slot_of_task ht, hunsent])
      (List.Sublist.refl _) (by simp) rfl rfl (fun task' u hu => ?_) (fun s hs => hs)
    by_cases htask : task' = task
    · subst htask
      rw [tasks_setTask_self] at hu
      obtain rfl := Option.some.inj hu
      refine .inr ⟨by simp, fun write' hw => (h.tasks task' t ht).2 write' ?_⟩
      rw [Task.unsent_afterSend] at hw
      simp [hunsent, hw]
    · exact .inl (by rwa [tasks_setTask_of_ne htask] at hu)
  | @rejected task t written left write ht hphase heval =>
    have hunsent := Task.unsent_of_writing hphase
    refine h.setTask ?_ ⟨by simp, fun write' hw => (h.tasks task t ht).2 write' ?_⟩
    · rw [slot_of_task ht, hunsent, Task.unsent_afterSend]
      exact List.sublist_cons_self ..
    · rw [Task.unsent_afterSend] at hw
      simp [hunsent, hw]
  | @failed task t written left write err ht hphase =>
    have hunsent := Task.unsent_of_writing hphase
    refine h.setTask ?_ ⟨by simp, fun write' hw => (h.tasks task t ht).2 write' ?_⟩
    · rw [slot_of_task ht, hunsent, Task.unsent_afterSend]
      exact List.sublist_cons_self ..
    · rw [Task.unsent_afterSend] at hw
      simp [hunsent, hw]
  | @detached task t written left write err ht hphase =>
    have hunsent := Task.unsent_of_writing hphase
    refine h.detach ht hunsent (by simp)
      ⟨by simp, fun write' hw => (h.tasks task t ht).2 write' ?_⟩
    rw [Task.unsent_afterSend] at hw
    simp [hunsent, hw]
  | readBack ht hphase => exact h.setTask (by simp) (taskOk_of_idle (by simp) (by simp))
  | ended ht _ hend =>
    rcases hend with rfl | ⟨err, rfl⟩ <;>
      exact h.setTask (by simp [Task.unsent, Task.withPhase]) (taskOk_of_idle rfl rfl)
  | @abandoned task t written left write ht hphase =>
    exact h.detach ht (Task.unsent_of_writing hphase) (by simp [Task.unsent, Task.withPhase])
      (taskOk_of_idle rfl rfl)
  | @arrived i s p hs heval =>
    obtain ⟨a, b, hslot, herase⟩ := slot_eraseIdx hs
    exact h.spend (h.inFlight s (List.mem_of_getElem? hs)) heval hslot (l := a ++ b)
      (List.Sublist.refl _) (by rw [slot_inFlight, herase]; rfl) rfl rfl
      (fun task t ht => .inl ht) (fun s hs => List.mem_of_mem_eraseIdx hs)
  | @ignored i s hs heval =>
    obtain ⟨a, b, hslot, herase⟩ := slot_eraseIdx hs
    have hsub : (a ++ b).Sublist (w.slot none) := by
      rw [hslot]
      exact (List.sublist_cons_self ..).append_left a
    have hslot' : ({ w with inFlight := w.inFlight.eraseIdx i } : World).slot =
        Function.update w.slot none (a ++ b) := by rw [slot_inFlight, herase]
    refine h.next ⟨fun c => le_rfl, fun s r hr => .inl ?_, fun id p hp => .inl hp⟩ ?_
      (fun id p hp => .inl hp) (fun task t ht => .inl ht)
      (fun s hs => .inl (List.mem_of_mem_eraseIdx hs))
    · rw [hslot'] at hr
      rcases s with _ | task
      · rw [Function.update_self] at hr
        exact ⟨none, hsub.subset hr⟩
      · exact ⟨some task, by simpa using hr⟩
    · rw [hslot']
      exact h.unique.update_shrink hsub
  | @erased id p hp =>
    have hpoints : ∀ id' q, (w.setPoint id none).points id' = some q → w.points id' = some q := by
      intro id' q hq
      by_cases hid : id' = id
      · subst hid
        simp [World.setPoint] at hq
      · simpa [World.setPoint, hid] using hq
    exact h.next ⟨fun c => le_rfl, fun s r hr => .inl ⟨s, hr⟩, fun id' q hq => .inl (hpoints _ _ hq)⟩
      h.unique (fun id' q hq => .inl (hpoints _ _ hq)) (fun task t ht => .inl ht)
      (fun s hs => .inl hs)
  | untouched => exact ⟨h, fun c => le_rfl, fun s r hr => .inl ⟨s, hr⟩, fun id p hp => .inl hp⟩

theorem Inv.step {e : Event} (h : w.Inv) (hc : Change w e w') : w'.Inv := (h.next_step hc).1

/-- A token no write to come carries stays so. -/
theorem Past.step {e : Event} {r : String} (hr : w.Past r) (h : w.Inv) (hc : Change w e w') :
    w'.Past r :=
  hr.mono (h.next_step hc).2

end World

end Alaya
