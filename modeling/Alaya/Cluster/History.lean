import Alaya.Cluster.Atomicity

/-!
# Runs and what their traces say

A run starts from a `Start`: any store, and clients that have stamped any number of writes before,
none of which the store shows from their future.  From the invariant of one step this module reads
off what holds of every run:

* `cell_run`: each point goes through a `CellStep` run of the writes and deletes in the trace;
* `not_evaluated_of_past`: a token that is past is never evaluated again, so a write is evaluated at
  most once (`evaluated_once`) and never under a revision some copy was read with;
* `Answered`: every write a call waits to read back was evaluated.
-/

namespace Alaya

open Json Labelled

/-- A store and its clients before a run. -/
structure Start where
  points : PointId → Option Payload
  /-- The number of writes each client has stamped before. -/
  writes : Client → ℕ
  /-- The store shows no token a client has yet to stamp. -/
  fresh : ∀ id p, points id = some p → ∀ r ∈ (revOf p).toList ++ p.revTokens,
    ∀ c n, writes c ≤ n → r ≠ token c n

namespace Start

def world (s : Start) : World where
  points := s.points
  writes := s.writes
  tasks := fun _ => none
  inFlight := []

theorem slot_world (s : Start) (x : Option TaskId) : s.world.slot x = [] := by
  cases x <;> rfl

theorem inv (s : Start) : s.world.Inv where
  unique := ⟨fun x => by simp [slot_world], fun {x y t} hx => by simp [slot_world] at hx⟩
  used x t ht := by simp [slot_world] at ht
  shown id p hp r hr := ⟨fun x => by simp [slot_world], s.fresh id p hp r hr⟩
  tasks task t ht := by cases ht
  inFlight x hx := by cases hx

end Start

/-- The runs of the processes, from any world. -/
abbrev Runs (w : World) (tr : List Event) (w' : World) : Prop := Run (Steps World.step) w tr w'

theorem World.Inv.run {w w' : World} {tr : List Event} (h : w.Inv) (hrun : Runs w tr w') :
    w'.Inv :=
  hrun.preserves World.Inv h fun _ _ _ h hstep => h.step (change_of_step hstep)

namespace Event

/-- The write an event evaluated, and its call. -/
def evaluated : Event → Option (TaskId × Op × Write)
  | .wrote task op write _ _ => some (task, op, write)
  | .rejected task op write => some (task, op, write)
  | _ => none

/-- What an event does to the point `id`. -/
def cell (id : PointId) : Event → Option CellEvent
  | .wrote _ op write _ _ => if write.id = id then some (.write op write.mine) else none
  | .erased id' => if id' = id then some .erase else none
  | _ => none

end Event

/-- The writes evaluated in a trace, oldest first. -/
def evaluations (tr : List Event) : List (TaskId × Op × Write) := tr.filterMap Event.evaluated

/-- The history of one point in a trace. -/
def cellEvents (id : PointId) (tr : List Event) : List CellEvent := tr.filterMap (Event.cell id)

@[simp] theorem evaluations_append (a b : List Event) :
    evaluations (a ++ b) = evaluations a ++ evaluations b := List.filterMap_append

@[simp] theorem cellEvents_append (id : PointId) (a b : List Event) :
    cellEvents id (a ++ b) = cellEvents id a ++ cellEvents id b := List.filterMap_append

theorem mem_evaluations_of_wrote {tr : List Event} {task : TaskId} {op : Op} {write : Write}
    {before : Option Payload} {after : Payload}
    (h : Event.wrote task op write before after ∈ tr) : (task, op, write) ∈ evaluations tr :=
  List.mem_filterMap.mpr ⟨.wrote task op write before after, h, rfl⟩

/-! ### One step of the cluster on one point -/

section Step

variable {w w' : World} {e : Event}

/-- An evaluated write was built by its call, and held its token until then. -/
theorem built_of_evaluated (h : w.Inv) (hc : Change w e w') {task : TaskId} {op : Op}
    {write : Write} (he : e.evaluated = some (task, op, write)) :
    w'.Past write.mine ∧ (∃ s, write.mine ∈ w.slot s) ∧
      ∃ call, op.call = .ok call ∧ w.Built call write := by
  have hpast : w'.Inv := h.step hc
  cases hc with
  | @applied task' t written left write' p ht hphase heval =>
    obtain ⟨rfl, rfl, rfl⟩ : task' = task ∧ t.op = op ∧ write' = write := by
      simpa [Event.evaluated] using he
    have hunsent := Task.unsent_of_writing hphase
    have hslot : w.slot (some task') = [] ++ write'.mine :: left.map Write.mine := by
      simp [World.slot_of_task ht, hunsent]
    refine ⟨h.past_spent hslot (List.Sublist.refl _) (by simp) rfl, ⟨some task', by simp [hslot]⟩,
      t.call, t.wf, (h.tasks _ t ht).2 write' (by simp [hunsent])⟩
  | @rejected task' t written left write' ht hphase heval =>
    obtain ⟨rfl, rfl, rfl⟩ : task' = task ∧ t.op = op ∧ write' = write := by
      simpa [Event.evaluated] using he
    have hunsent := Task.unsent_of_writing hphase
    have hslot : w.slot (some task') = [] ++ write'.mine :: left.map Write.mine := by
      simp [World.slot_of_task ht, hunsent]
    refine ⟨h.past_spent hslot (List.Sublist.refl _) (by simp) rfl, ⟨some task', by simp [hslot]⟩,
      t.call, t.wf, (h.tasks _ t ht).2 write' (by simp [hunsent])⟩
  | @arrived i s p hs heval =>
    obtain ⟨rfl, rfl, rfl⟩ : s.task = task ∧ s.op = op ∧ s.write = write := by
      simpa [Event.evaluated] using he
    obtain ⟨a, b, hslot, herase⟩ := World.slot_eraseIdx hs
    refine ⟨h.past_spent hslot (List.Sublist.refl _) ?_ rfl, ⟨none, by simp [hslot]⟩,
      s.call, s.wf, h.inFlight s (List.mem_of_getElem? hs)⟩
    rw [World.slot_inFlight, herase]
    rfl
  | @ignored i s hs heval =>
    obtain ⟨rfl, rfl, rfl⟩ : s.task = task ∧ s.op = op ∧ s.write = write := by
      simpa [Event.evaluated] using he
    obtain ⟨a, b, hslot, herase⟩ := World.slot_eraseIdx hs
    refine ⟨h.past_spent hslot (List.Sublist.refl _) ?_ rfl, ⟨none, by simp [hslot]⟩,
      s.call, s.wf, h.inFlight s (List.mem_of_getElem? hs)⟩
    rw [World.slot_inFlight, herase]
  | _ => simp [Event.evaluated] at he

/-- An applied write is what its operation makes of the point at that moment. -/
theorem land_of_wrote (h : w.Inv) {task : TaskId} {op : Op} {write : Write}
    {before : Option Payload} {after : Payload}
    (hc : Change w (.wrote task op write before after) w') :
    op.land write.mine before = some after ∧ before = w.points write.id ∧
      w'.points = Function.update w.points write.id (some after) := by
  cases hc with
  | @applied _ t written left _ p ht hphase heval =>
    refine ⟨?_, rfl, rfl⟩
    have hbuilt := (h.tasks task t ht).2 write (by simp [Task.unsent_of_writing hphase])
    simpa only [Op.land, t.wf] using World.land_of_built hbuilt heval
  | @arrived i s p hs heval =>
    refine ⟨?_, rfl, rfl⟩
    have hbuilt := h.inFlight s (List.mem_of_getElem? hs)
    simpa only [Op.land, s.wf] using World.land_of_built hbuilt heval

/-- A point moves by a `CellStep` when the event is about it. -/
theorem cellStep_of_change (h : w.Inv) (hc : Change w e w') {id : PointId} {ev : CellEvent}
    (hev : e.cell id = some ev) : CellStep (w.points id) ev (w'.points id) := by
  cases e with
  | wrote task op write before after =>
    obtain ⟨hland, rfl, hpoints⟩ := land_of_wrote h hc
    simp only [Event.cell, Option.ite_none_right_eq_some, Option.some.injEq] at hev
    obtain ⟨rfl, rfl⟩ := hev
    simpa [hpoints] using CellStep.write hland
  | erased id' =>
    cases hc with
    | erased hp =>
      simp only [Event.cell, Option.ite_none_right_eq_some, Option.some.injEq] at hev
      obtain ⟨rfl, rfl⟩ := hev
      simpa [hp] using CellStep.erase
  | _ => cases hev

/-- A point that an event is not about stays. -/
theorem points_of_change (h : w.Inv) (hc : Change w e w') {id : PointId}
    (hev : e.cell id = none) : w'.points id = w.points id := by
  cases e with
  | wrote task op write before after =>
    obtain ⟨-, -, hpoints⟩ := land_of_wrote h hc
    have hid : write.id ≠ id := by simpa [Event.cell] using hev
    rw [hpoints, Function.update_of_ne hid.symm]
  | erased id' =>
    cases hc with
    | erased hp =>
      have hid : id' ≠ id := by simpa [Event.cell] using hev
      exact World.points_setPoint_of_ne hid.symm w none
  | _ => cases hc <;> rfl

end Step

/-! ### Runs -/

variable {w w' : World} {tr : List Event}

/-- **Each point is an atomic cell.**  In every run a point goes through the writes and deletes of
the trace one after another, each write applied to what the point holds at that moment. -/
theorem cell_run (h : w.Inv) (hrun : Runs w tr w') (id : PointId) :
    Run CellStep (w.points id) (cellEvents id tr) (w'.points id) :=
  hrun.project (fun w : World => w.points id) (Event.cell id)
    (fun _ _ _ _ _ hpre hstep => cellStep_of_change (h.run hpre) (change_of_step hstep))
    (fun _ _ _ _ hpre hstep => points_of_change (h.run hpre) (change_of_step hstep))

/-- A past token stays past, and no write that is evaluated carries it. -/
theorem not_evaluated_of_past (h : w.Inv) {r : String} (hr : w.Past r) (hrun : Runs w tr w') :
    w'.Past r ∧ ∀ x ∈ evaluations tr, x.2.2.mine ≠ r := by
  refine hrun.invariant (fun tr w' => w'.Past r ∧ ∀ x ∈ evaluations tr, x.2.2.mine ≠ r)
    ⟨hr, by simp [evaluations]⟩ fun tr m e m' hpre ih hstep => ?_
  have hinv := h.run hpre
  have hc := change_of_step hstep
  refine ⟨ih.1.step hinv hc, fun x hx => ?_⟩
  rw [evaluations_append, List.mem_append] at hx
  rcases hx with hx | hx
  · exact ih.2 x hx
  · obtain ⟨task, op, write⟩ := x
    have he : e.evaluated = some (task, op, write) := by
      obtain ⟨e', hmem, he⟩ := List.mem_filterMap.mp hx
      rwa [List.mem_singleton.mp hmem] at he
    obtain ⟨-, ⟨s, hs⟩, -⟩ := built_of_evaluated hinv hc he
    rintro rfl
    exact ih.1.1 s hs

/-- **A write is evaluated at most once.** -/
theorem evaluated_once (h : w.Inv) {a b : List Event} {e : Event} {x : TaskId × Op × Write}
    (hrun : Runs w (a ++ e :: b) w') (he : e.evaluated = some x) :
    ∀ y ∈ evaluations b, y.2.2.mine ≠ x.2.2.mine := by
  obtain ⟨m, m', ha, hstep, hb⟩ := hrun.split_at
  have hinv := h.run ha
  have hc := change_of_step hstep
  obtain ⟨hpast, -⟩ := built_of_evaluated hinv hc he
  exact (not_evaluated_of_past (hinv.step hc) hpast hb).2

/-- No two evaluated writes carry one token. -/
theorem evaluations_nodup (h : w.Inv) (hrun : Runs w tr w') :
    ((evaluations tr).map fun x => x.2.2.mine).Nodup := by
  refine (hrun.invariant (fun tr w' => ((evaluations tr).map fun x => x.2.2.mine).Nodup ∧
    ∀ x ∈ evaluations tr, w'.Past x.2.2.mine) ⟨by simp [evaluations], by simp [evaluations]⟩
    fun tr m e m' hpre ih hstep => ?_).1
  have hinv := h.run hpre
  have hc := change_of_step hstep
  cases he : e.evaluated with
  | none =>
    have hev : evaluations (tr ++ [e]) = evaluations tr := by simp [evaluations, he]
    rw [hev]
    exact ⟨ih.1, fun x hx => (ih.2 x hx).step hinv hc⟩
  | some x =>
    obtain ⟨hpast, ⟨s, hs⟩, -⟩ := built_of_evaluated hinv hc he
    have hev : evaluations (tr ++ [e]) = evaluations tr ++ [x] := by simp [evaluations, he]
    rw [hev]
    refine ⟨?_, fun y hy => ?_⟩
    · rw [List.map_append, List.nodup_append]
      refine ⟨ih.1, by simp, fun t ht t' ht' heq => ?_⟩
      obtain ⟨y, hy, rfl⟩ := List.mem_map.mp ht
      obtain rfl : t' = x.2.2.mine := by simpa using ht'
      exact (ih.2 y hy).1 s (by rwa [heq])
    · rcases List.mem_append.mp hy with hy | hy
      · exact (ih.2 y hy).step hinv hc
      · rwa [List.mem_singleton.mp hy]

theorem evaluations_inj (h : w.Inv) (hrun : Runs w tr w') {x y : TaskId × Op × Write}
    (hx : x ∈ evaluations tr) (hy : y ∈ evaluations tr) (hmine : x.2.2.mine = y.2.2.mine) :
    x = y :=
  List.inj_on_of_nodup_map (evaluations_nodup h hrun) hx hy hmine

/-- No write is evaluated under a revision that an evaluated write was conditional on. -/
theorem readRev_not_evaluated (h : w.Inv) {a b : List Event} {e : Event}
    {x : TaskId × Op × Write} (hrun : Runs w (a ++ e :: b) w') (he : e.evaluated = some x)
    {r : String} (hr : x.2.2.readRev = some r) : ∀ y ∈ evaluations b, y.2.2.mine ≠ r := by
  obtain ⟨m, m', ha, hstep, hb⟩ := hrun.split_at
  have hinv := h.run ha
  have hc := change_of_step hstep
  obtain ⟨-, -, call, -, hbuilt⟩ := built_of_evaluated hinv hc he
  have hpast : m.Past r := by
    cases hbuilt with
    | insert _ hplan =>
      rw [hplan] at hr
      cases hr
    | update _ hplan hintact =>
      rw [hplan] at hr
      exact hintact.1 r hr
  exact (not_evaluated_of_past (hinv.step hc) (hpast.step hinv hc) hb).2

/-! ### Calls and their writes -/

namespace Task

/-- The writes of a call that were answered and are to be read back. -/
def answered (t : Task) : List Write :=
  match t.progress.phase with
  | .writing written _ => written
  | .readingBack left _ => left
  | _ => []

@[simp] theorem answered_start (caller : Caller) : (start caller).answered = [] := by
  unfold answered start UpdateCall.startRound
  split_ifs <;> rfl

theorem answered_afterReads (t : Task) {call : UpdateCall} {client : Client} {n n' round : ℕ}
    {outcome : Outcome} {got : List (PointId × Option Payload)} {progress : Progress}
    (h : call.afterReads client n round outcome got = (n', progress)) :
    (t.withProgress progress).answered = [] := by
  rcases UpdateCall.afterReads_cases h with ⟨_, rfl⟩ | ⟨_, _, rfl⟩ | ⟨_, _, rfl⟩ |
    ⟨_, _, _, _, rfl⟩ <;> rfl

theorem answered_afterSend (t : Task) (round : ℕ) (outcome : Outcome) (written left : List Write) :
    (t.withProgress (UpdateCall.afterSend round outcome written left)).answered ⊆ written := by
  unfold answered withProgress UpdateCall.afterSend
  cases left <;> cases written <;> simp

theorem answered_afterReadBack (t : Task) (round : ℕ) (outcome : Outcome) (write : Write)
    (left : List Write) (lost : List PointId) (back : Option Payload) :
    (t.withProgress (UpdateCall.afterReadBack round outcome write left lost back)).answered ⊆
      left := by
  unfold answered withProgress UpdateCall.afterReadBack
  cases left with
  | nil =>
    simp only [UpdateCall.startRound]
    split_ifs <;> simp
  | cons _ _ => simp

end Task

/-- Calls keep their caller, and every write a call waits to read back was evaluated. -/
structure Answered (tr : List Event) (w : World) : Prop where
  answered : ∀ task t, w.tasks task = some t → ∀ write ∈ t.answered,
    (task, t.op, write) ∈ evaluations tr
  caller : ∀ x ∈ evaluations tr, ∃ t, w.tasks x.1 = some t ∧ t.op = x.2.1
  inFlight : ∀ s ∈ w.inFlight, ∃ t, w.tasks s.task = some t ∧ t.toCaller = s.toCaller

theorem Change.tasks {e : Event} (hc : Change w e w') {task : TaskId} {t : Task}
    (ht : w.tasks task = some t) : ∃ t', w'.tasks task = some t' ∧ t'.toCaller = t.toCaller := by
  have hset : ∀ {task' : TaskId} {u u' : Task}, w.tasks task' = some u →
      u'.toCaller = u.toCaller →
      ∃ t', (w.setTask task' u').tasks task = some t' ∧ t'.toCaller = t.toCaller := by
    intro task' u u' hu hcaller
    by_cases htask : task = task'
    · subst htask
      obtain rfl := Option.some.inj (hu.symm.trans ht)
      exact ⟨u', by simp, hcaller⟩
    · exact ⟨t, by rwa [World.tasks_setTask_of_ne htask], rfl⟩
  cases hc with
  | @spawned task' caller hnone =>
    have htask : task ≠ task' := by
      rintro rfl
      simp [ht] at hnone
    exact ⟨t, by rwa [World.tasks_setTask_of_ne htask], rfl⟩
  | read hu _ => exact hset hu rfl
  | planned hu _ _ => exact hset hu rfl
  | applied hu _ _ => exact hset hu rfl
  | rejected hu _ _ => exact hset hu rfl
  | failed hu _ => exact hset hu rfl
  | detached hu _ => exact hset hu rfl
  | readBack hu _ => exact hset hu rfl
  | ended hu _ _ => exact hset hu rfl
  | abandoned hu _ => exact hset hu rfl
  | arrived _ _ => exact ⟨t, ht, rfl⟩
  | ignored _ _ => exact ⟨t, ht, rfl⟩
  | erased _ => exact ⟨t, ht, rfl⟩
  | untouched => exact ⟨t, ht, rfl⟩

theorem answered_run (s : Start) {tr : List Event} {w : World} (hrun : Runs s.world tr w) :
    Answered tr w := by
  have hstart : Answered [] s.world :=
    { answered := fun task t ht => nomatch ht
      caller := fun x hx => nomatch hx
      inFlight := fun x hx => nomatch hx }
  refine hrun.invariant Answered hstart fun tr w e w' hpre ih hstep => ?_
  have hc := change_of_step hstep
  have hkeep : ∀ {x}, x ∈ evaluations tr → x ∈ evaluations (tr ++ [e]) := fun hx => by
    rw [evaluations_append]
    exact List.mem_append_left _ hx
  have hnew : ∀ {x}, e.evaluated = some x → x ∈ evaluations (tr ++ [e]) := fun he => by
    simp [evaluations, he]
  refine ⟨fun task t' ht' write hw => ?_, fun x hx => ?_, fun x hx => ?_⟩
  · -- what a call waits to read back it had before, or it was evaluated just now
    have hset : ∀ {task' : TaskId} {u u' : Task}, w.tasks task' = some u →
        (w.setTask task' u').tasks task = some t' → u'.op = u.op →
        (∀ write ∈ u'.answered, write ∈ u.answered ∨ e.evaluated = some (task', u.op, write)) →
        (task, t'.op, write) ∈ evaluations (tr ++ [e]) := by
      intro task' u u' hu hu' hop hsub
      by_cases htask : task = task'
      · subst htask
        rw [World.tasks_setTask_self] at hu'
        obtain rfl := Option.some.inj hu'
        rw [hop]
        rcases hsub write hw with hold | hev
        · exact hkeep (ih.answered task u hu write hold)
        · exact hnew hev
      · rw [World.tasks_setTask_of_ne htask] at hu'
        exact hkeep (ih.answered task t' hu' write hw)
    cases hc with
    | @spawned task' caller hnone =>
      by_cases htask : task = task'
      · subst htask
        rw [World.tasks_setTask_self] at ht'
        obtain rfl := Option.some.inj ht'
        simp at hw
      · rw [World.tasks_setTask_of_ne htask] at ht'
        exact hkeep (ih.answered task t' ht' write hw)
    | read hu hphase =>
      exact hset hu ht' rfl (fun write hw => by simp [Task.answered, Task.withPhase] at hw)
    | planned hu hphase hafter =>
      exact hset hu ht' rfl (fun write hw => by simp [Task.answered_afterReads _ hafter] at hw)
    | applied hu hphase heval =>
      refine hset hu ht' rfl fun write hw => ?_
      rcases List.mem_append.mp (Task.answered_afterSend _ _ _ _ _ hw) with hw | hw
      · exact .inl (by simp [Task.answered, hphase, hw])
      · exact .inr (by rw [List.mem_singleton.mp hw]; rfl)
    | rejected hu hphase heval =>
      refine hset hu ht' rfl fun write hw => ?_
      rcases List.mem_append.mp (Task.answered_afterSend _ _ _ _ _ hw) with hw | hw
      · exact .inl (by simp [Task.answered, hphase, hw])
      · exact .inr (by rw [List.mem_singleton.mp hw]; rfl)
    | failed hu hphase =>
      refine hset hu ht' rfl fun write hw => .inl ?_
      simp [Task.answered, hphase, Task.answered_afterSend _ _ _ _ _ hw]
    | detached hu hphase =>
      refine hset hu ht' rfl fun write hw => .inl ?_
      simp [Task.answered, hphase, Task.answered_afterSend _ _ _ _ _ hw]
    | readBack hu hphase =>
      refine hset hu ht' rfl fun write hw => .inl ?_
      simp [Task.answered, hphase, Task.answered_afterReadBack _ _ _ _ _ _ _ hw]
    | ended hu _ hend =>
      refine hset hu ht' rfl fun write hw => ?_
      rcases hend with rfl | ⟨err, rfl⟩ <;> simp [Task.answered, Task.withPhase] at hw
    | abandoned hu hphase =>
      exact hset hu ht' rfl (fun write hw => by simp [Task.answered, Task.withPhase] at hw)
    | arrived _ _ => exact hkeep (ih.answered task t' ht' write hw)
    | ignored _ _ => exact hkeep (ih.answered task t' ht' write hw)
    | erased _ => exact hkeep (ih.answered task t' ht' write hw)
    | untouched => exact hkeep (ih.answered task t' ht' write hw)
  · rw [evaluations_append, List.mem_append] at hx
    rcases hx with hx | hx
    · obtain ⟨t, ht, hop⟩ := ih.caller x hx
      obtain ⟨t', ht', hcaller⟩ := hc.tasks ht
      exact ⟨t', ht', by rw [← hop, hcaller]⟩
    · obtain ⟨e', hmem, he⟩ := List.mem_filterMap.mp hx
      rw [List.mem_singleton.mp hmem] at he
      have htask : ∃ t, w.tasks x.1 = some t ∧ t.op = x.2.1 := by
        cases hc with
        | applied ht _ _ =>
          obtain rfl := Option.some.inj he
          exact ⟨_, ht, rfl⟩
        | rejected ht _ _ =>
          obtain rfl := Option.some.inj he
          exact ⟨_, ht, rfl⟩
        | arrived hs _ =>
          obtain rfl := Option.some.inj he
          obtain ⟨t, ht, hcaller⟩ := ih.inFlight _ (List.mem_of_getElem? hs)
          exact ⟨t, ht, by rw [hcaller]⟩
        | ignored hs _ =>
          obtain rfl := Option.some.inj he
          obtain ⟨t, ht, hcaller⟩ := ih.inFlight _ (List.mem_of_getElem? hs)
          exact ⟨t, ht, by rw [hcaller]⟩
        | _ => cases he
      obtain ⟨t, ht, hop⟩ := htask
      obtain ⟨t', ht', hcaller⟩ := hc.tasks ht
      exact ⟨t', ht', by rw [← hop, hcaller]⟩
  · have hold : ∀ x ∈ w.inFlight, ∃ t, w'.tasks x.task = some t ∧ t.toCaller = x.toCaller := by
      intro x hx
      obtain ⟨t, ht, hcaller⟩ := ih.inFlight x hx
      obtain ⟨t', ht', hcaller'⟩ := hc.tasks ht
      exact ⟨t', ht', hcaller'.trans hcaller⟩
    have hsent : ∀ {task : TaskId} {t : Task} (write : Write), w.tasks task = some t →
        ∃ t', w'.tasks task = some t' ∧ t'.toCaller = (InFlight.of task t write).toCaller :=
      fun _ ht => hc.tasks ht
    cases hc with
    | detached ht _ =>
      rcases List.mem_cons.mp hx with rfl | hx
      · exact hsent _ ht
      · exact hold x hx
    | abandoned ht _ =>
      rcases List.mem_cons.mp hx with rfl | hx
      · exact hsent _ ht
      · exact hold x hx
    | arrived _ _ => exact hold x (List.mem_of_mem_eraseIdx hx)
    | ignored _ _ => exact hold x (List.mem_of_mem_eraseIdx hx)
    | _ => exact hold x hx

/-! ### A memory to run on -/

def emptyStart : Start where
  points := fun _ => none
  writes := fun _ => 0
  fresh := fun _ _ h => nomatch h

def aHash : String := "aaaaaaaaaaaaaaaaaaaaaaaaaaaaaaaabbbbbbbbbbbbbbbbbbbbbbbbbbbbbbbb"

def aPoint : PointId := "aaaaaaaa-aaaa-aaaa-aaaa-aaaaaaaaaaaa"

def aContext : StoreContext where
  now := 0
  contentHash := aHash
  embedding := []
  salienceScore := 0
  encodingContext := []
  provenance := []
  nearestSimilarity := none

def aParams : StoreParams where
  content := "a"

def aStore : Op := .store aParams aContext .upsert

/-- The first write of a client that stores the memory where there is no point. -/
def insertOf (client : Client) : Write :=
  UpdateCall.plan aPoint none (token client 0) (memoryToPayload (aParams.memory aContext))

end Alaya
