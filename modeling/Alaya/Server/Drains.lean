import Alaya.Server.Custody

/-!
# The worker comes to an end with its commands

Nothing a command waits for is held by something that does not end: the loop by one handler, the gate by one search.  So as
long as a command is outstanding something can be done, each thing done brings its command nearer to its end, and once
nothing is outstanding every slot, permit and flag is free (`worker_drains`).
-/

namespace Alaya.Worker

open Json Labelled

/-- What is done for commands that are there: nobody calls or leaves, no time passes. -/
def Event.works : Event → Bool
  | .boot | .receive | .complete _ | .reach _ | .enter | .leaveGate .. | .tell .. | .quit .. => true
  | _ => false

/-- What may bring a command. -/
def Event.calls : Event → Bool
  | .send _ | .tick => true
  | _ => false

/-- What is left to be done of a spawned command. -/
def Task.left (task : Task) : ℕ := if task.told then 1 else 2

/-- What is left to be done before the loop is idle. -/
def Phase.left : Phase → ℕ
  | .booting | .busy _ => 1
  | _ => 0

/-- How much is left to be done. -/
def World.left (w : World) : ℕ :=
  w.phase.left + 4 * w.channel.length + 3 * w.fresh.length + 2 * w.gate.length + w.running.length +
    (w.tasks.map Task.left).sum

variable {hash : String → String} {w w' : World} {tr : List Event} {t₀ : ℕ}

theorem sum_left_eraseIdx {tasks : List Task} {i : ℕ} {task : Task} (h : tasks[i]? = some task) :
    (tasks.map Task.left).sum = ((tasks.eraseIdx i).map Task.left).sum + task.left := by
  rw [((perm_eraseIdx h).map Task.left).sum_eq, List.map_cons, List.sum_cons, Nat.add_comm]

theorem left_pos (task : Task) : 0 < task.left := by
  unfold Task.left
  split <;> decide

theorem left_settle (w : World) (n : ℕ) (r : Option Reply) : (w.settle n r).left = w.left := by cases r <;> rfl

theorem left_clear (w : World) (arm : Arm) : (w.clear arm).left = w.left := by cases arm <;> rfl

/-- A command that is picked up has three things left at most. -/
theorem left_pickUp (w : World) (job : Job) (hidle : w.phase = .idle) : (w.pickUp job).left ≤ w.left + 3 := by
  have hsum : ((w.tasks ++ [Task.mk job false]).map Task.left).sum = (w.tasks.map Task.left).sum + 2 := by
    rw [List.map_append, List.sum_append]
    rfl
  unfold World.pickUp
  split
  · exact Nat.le_add_right _ 3
  · unfold World.left
    rw [hidle]
    simp only [World.begin, Phase.left]
    omega
  · split
    · exact Nat.le_add_right _ 3
    · unfold World.left
      simp only [World.stamp, List.length_append, List.length_singleton]
      omega
  · unfold World.left
    simp only [World.stamp, World.spawn, World.begin, hsum]
    omega
  · split
    · exact Nat.le_add_right _ 3
    · unfold World.left
      simp only [World.stamp, World.spawn, World.begin, hsum]
      omega

theorem left_send (w : World) (cmd : CmdInner) : (w.send cmd).left ≤ w.left + 4 := by
  unfold World.send World.tryDispatch
  split
  · exact Nat.le_add_right _ 4
  · split
    · exact Nat.le_add_right _ 4
    · change World.left { w with channel := w.channel ++ [_], next := w.next + 1 } ≤ w.left + 4
      unfold World.left
      simp only [List.length_append, List.length_singleton]
      omega

/-- **What an event leaves to be done**: less if it did something, and one command more at most if it brought one. -/
theorem left_step {e : Event} (hstep : Step hash w e w') :
    w'.left + (if e.works then 1 else 0) ≤ w.left + 4 * if e.calls then 1 else 0 := by
  cases e with
  | pass d =>
    obtain rfl := Option.some.inj hstep
    exact le_rfl
  | boot =>
    change w.boot = some w' at hstep
    unfold World.boot at hstep
    split at hstep
    · next hphase =>
      obtain rfl := Option.some.inj hstep
      unfold World.left
      rw [hphase]
      simp [World.stamp, Phase.left, Event.works, Event.calls]
    · cases hstep
  | send cmd =>
    change (if w.closed then none else some (w.send cmd)) = some w' at hstep
    split at hstep
    · cases hstep
    · obtain rfl := Option.some.inj hstep
      exact left_send w cmd
  | tick =>
    change (if w.closed then none else some { w.send .ping with ticked := w.now }) = some w' at hstep
    split at hstep
    · cases hstep
    · obtain rfl := Option.some.inj hstep
      exact left_send w .ping
  | leave n =>
    change (if n < w.next then some { w with gone := n :: w.gone } else none) = some w' at hstep
    split at hstep
    · obtain rfl := Option.some.inj hstep
      exact le_rfl
    · cases hstep
  | close =>
    obtain rfl := Option.some.inj hstep
    exact le_rfl
  | receive =>
    obtain ⟨job, rest, hidle, hchannel, rfl⟩ := receive_loop hstep
    have hle := left_pickUp { w with channel := rest, received := w.received ++ [job.ticket] }
      { job with since := w.now } hidle
    refine (Nat.add_le_add_right hle 1).trans ?_
    change World.left { w with channel := rest, received := _ } + 3 + 1 ≤ w.left + 0
    unfold World.left
    rw [hchannel, List.length_cons]
    dsimp only
    omega
  | complete o =>
    change w.complete hash o = some w' at hstep
    unfold World.complete at hstep
    split at hstep
    · next job hphase =>
      obtain rfl := Option.some.inj hstep
      unfold World.left
      rw [hphase]
      simp [World.settle, World.finish, Phase.left, Event.works, Event.calls]
    · next _ job hphase _ =>
      obtain ⟨r, -, rfl⟩ := Option.map_eq_some_iff.mp hstep
      unfold World.left
      rw [hphase]
      cases r <;> simp [World.settle, World.answer, World.finish, World.stamp, Phase.left, Event.works, Event.calls]
    · cases hstep
  | reach i =>
    change w.reach i = some w' at hstep
    unfold World.reach at hstep
    split at hstep
    · next job hjob =>
      split at hstep
      · obtain rfl := Option.some.inj hstep
        have hlen := (perm_eraseIdx hjob).length_eq
        rw [List.length_cons] at hlen
        unfold World.left
        simp only [List.length_append, List.length_singleton, Event.works, Event.calls, if_true, Bool.false_eq_true, if_false]
        omega
      · cases hstep
    · cases hstep
  | enter =>
    change w.enter = some w' at hstep
    unfold World.enter at hstep
    split at hstep
    · next job rest hgate =>
      split at hstep
      · cases hstep
      · dsimp only at hstep
        split at hstep <;> obtain rfl := Option.some.inj hstep <;> unfold World.left <;> rw [hgate] <;>
          simp only [World.finish, World.begin, List.length_cons, Event.works, Event.calls, if_true, Bool.false_eq_true,
            if_false] <;> omega
    · cases hstep
  | leaveGate i o =>
    change w.leaveGate hash i o = some w' at hstep
    unfold World.leaveGate at hstep
    split at hstep
    · next job hjob =>
      split at hstep
      · obtain ⟨r, -, rfl⟩ := Option.map_eq_some_iff.mp hstep
        have hlen := (perm_eraseIdx hjob).length_eq
        rw [List.length_cons] at hlen
        rw [left_settle]
        unfold World.left
        simp only [Event.works, Event.calls, if_true, Bool.false_eq_true, if_false]
        omega
      · cases hstep
    · cases hstep
  | tell i v =>
    change w.tell i v = some w' at hstep
    unfold World.tell at hstep
    split at hstep
    · next n limit since htask =>
      split at hstep
      · obtain rfl := Option.some.inj hstep
        obtain ⟨hi, -⟩ := List.getElem?_eq_some_iff.mp htask
        have hold := sum_left_eraseIdx htask
        have hnew := ((List.set_perm_cons_eraseIdx hi (Task.mk ⟨n, .backfillSummaries limit, since⟩ true)).map
          Task.left).sum_eq
        rw [List.map_cons, List.sum_cons] at hnew
        simp only [Task.left, if_true, Bool.false_eq_true, if_false] at hold hnew
        unfold World.left
        simp only [World.answer, Event.works, Event.calls, if_true, Bool.false_eq_true, if_false]
        omega
      · cases hstep
    · cases hstep
  | quit i o =>
    change w.quit hash i o = some w' at hstep
    unfold World.quit at hstep
    split at hstep
    · next task htask =>
      have hless : World.left { w with tasks := w.tasks.eraseIdx i } + 1 ≤ w.left := by
        have hsum := sum_left_eraseIdx htask
        have hpos := left_pos task
        unfold World.left
        dsimp only
        omega
      split at hstep
      · dsimp only at hstep
        split at hstep
        · obtain rfl := Option.some.inj hstep
          exact (congrArg (· + 1) (left_clear _ task.job.cmd.arm)).le.trans hless
        · split at hstep
          · cases hstep
          · obtain ⟨r, -, rfl⟩ := Option.map_eq_some_iff.mp hstep
            rw [left_settle, left_clear]
            exact hless
      · cases hstep
    · cases hstep
  | drain =>
    change w.drain = some w' at hstep
    unfold World.drain at hstep
    split at hstep
    · next hphase _ _ =>
      obtain rfl := Option.some.inj hstep
      unfold World.left
      rw [hphase]
      exact le_rfl
    · cases hstep

/-! ### Something can be done -/

theorem works_of_isSome {e : Event} (he : e.works = true) (h : (w.apply hash e).isSome = true) :
    ∃ e w', Event.works e = true ∧ Step hash w e w' := by
  obtain ⟨w', hw'⟩ := Option.isSome_iff_exists.mp h
  exact ⟨e, w', he, hw'⟩

theorem works_booting (hphase : w.phase = .booting) : ∃ e w', Event.works e = true ∧ Step hash w e w' := by
  refine works_of_isSome (e := .boot) rfl ?_
  change w.boot.isSome = true
  unfold World.boot
  rw [hphase]
  rfl

/-- A handler that the loop awaits can end. -/
theorem works_busy {job : Job} (hphase : w.phase = .busy job) : ∃ e w', Event.works e = true ∧ Step hash w e w' := by
  refine works_of_isSome (e := .complete .panicked) rfl ?_
  change (w.complete hash .panicked).isSome = true
  unfold World.complete
  rw [hphase]
  rfl

/-- A command in the channel can be received. -/
theorem works_channel (hidle : w.phase = .idle) (hchannel : w.channel ≠ []) :
    ∃ e w', Event.works e = true ∧ Step hash w e w' := by
  obtain ⟨job, rest, hcons⟩ := List.exists_cons_of_ne_nil hchannel
  refine works_of_isSome (e := .receive) rfl ?_
  change w.receive.isSome = true
  unfold World.receive
  rw [hidle, hcons]
  rfl

/-- A search on its way to the gate can come to it. -/
theorem works_fresh (hserves : w.phase.serves = true) (hfresh : w.fresh ≠ []) :
    ∃ e w', Event.works e = true ∧ Step hash w e w' := by
  obtain ⟨job, rest, hcons⟩ := List.exists_cons_of_ne_nil hfresh
  refine works_of_isSome (e := .reach 0) rfl ?_
  change (w.reach 0).isSome = true
  unfold World.reach
  rw [hcons, hserves]
  rfl

/-- A search that runs can end. -/
theorem works_running (hserves : w.phase.serves = true) (hrunning : w.running ≠ []) :
    ∃ e w', Event.works e = true ∧ Step hash w e w' := by
  obtain ⟨job, rest, hcons⟩ := List.exists_cons_of_ne_nil hrunning
  refine works_of_isSome (e := .leaveGate 0 .panicked) rfl ?_
  change (w.leaveGate hash 0 .panicked).isSome = true
  unfold World.leaveGate
  rw [hcons, hserves]
  rfl

/-- The gate is open while no search runs. -/
theorem works_gate (hbounded : Bounded w) (hserves : w.phase.serves = true) (hrunning : w.running = [])
    (hgate : w.gate ≠ []) : ∃ e w', Event.works e = true ∧ Step hash w e w' := by
  obtain ⟨job, rest, hcons⟩ := List.exists_cons_of_ne_nil hgate
  have hopen : ¬(w.phase.serves = false ∨ w.permits = 0) := by
    have hpermits : w.permits = searchConcurrency := by simpa [hrunning] using hbounded.permits
    rw [hserves, hpermits]
    decide
  refine works_of_isSome (e := .enter) rfl ?_
  change w.enter.isSome = true
  unfold World.enter
  rw [hcons]
  dsimp only
  rw [if_neg hopen]
  split <;> rfl

/-- A spawned command can end. -/
theorem works_task (hserves : w.phase.serves = true) (htasks : w.tasks ≠ []) :
    ∃ e w', Event.works e = true ∧ Step hash w e w' := by
  obtain ⟨⟨job, told⟩, rest, hcons⟩ := List.exists_cons_of_ne_nil htasks
  refine works_of_isSome (e := .quit 0 .panicked) rfl ?_
  change (w.quit hash 0 .panicked).isSome = true
  unfold World.quit
  rw [hcons, hserves]
  cases told <;> rfl

/-- The commands that wait or run. -/
def World.outstanding (w : World) : List ℕ :=
  tickets w.channel ++ tickets w.fresh ++ tickets w.gate ++ atWork w.phase w.running w.tasks

/-- They are those that have not come to their end. -/
theorem mem_outstanding (hcustody : Custody [] [] w) {n : ℕ} :
    n ∈ w.outstanding ↔ n < w.next ∧ n ∉ w.ended.map Prod.fst := by
  have hperm : (w.outstanding ++ w.ended.map Prod.fst).Perm (List.range w.next) := hcustody.perm_places
  have hnodup := hperm.nodup_iff.mpr List.nodup_range
  have hmem : n ∈ w.outstanding ++ w.ended.map Prod.fst ↔ n < w.next := hperm.mem_iff.trans List.mem_range
  rw [← hmem, List.mem_append]
  constructor
  · intro hn
    exact ⟨.inl hn, fun hended => (List.nodup_append.mp hnodup).2.2 n hn n hended rfl⟩
  · rintro ⟨hn | hended, hnot⟩
    · exact hn
    · exact absurd hended hnot

theorem outstanding_eq_nil : w.outstanding = [] ↔
    w.channel = [] ∧ w.fresh = [] ∧ w.gate = [] ∧ w.phase.hand = [] ∧ w.running = [] ∧ w.tasks = [] := by
  simp [World.outstanding, atWork, tickets, taskTickets]

/-- As long as a command is outstanding, something can be done. -/
theorem works_of_outstanding (hbounded : Bounded w) (hover : w.phase.over = false) (hsome : w.outstanding ≠ []) :
    ∃ e w', Event.works e = true ∧ Step hash w e w' := by
  cases hphase : w.phase with
  | booting => exact works_booting hphase
  | busy job => exact works_busy hphase
  | drained => rw [hphase] at hover; cases hover
  | crashed => rw [hphase] at hover; cases hover
  | idle =>
    have hserves : w.phase.serves = true := by rw [hphase]; rfl
    by_cases hchannel : w.channel = []
    · by_cases hfresh : w.fresh = []
      · by_cases hrunning : w.running = []
        · by_cases hgate : w.gate = []
          · by_cases htasks : w.tasks = []
            · have hhand : w.phase.hand = [] := by rw [hphase]; rfl
              exact absurd (outstanding_eq_nil.mpr ⟨hchannel, hfresh, hgate, hhand, hrunning, htasks⟩) hsome
            · exact works_task hserves htasks
          · exact works_gate hbounded hserves hrunning hgate
        · exact works_running hserves hrunning
      · exact works_fresh hserves hfresh
    · exact works_channel hphase hchannel

/-- Only so much can be done before another command comes. -/
theorem works_le (h : Run (Step hash) w tr w') :
    w'.left + tr.countP Event.works ≤ w.left + 4 * tr.countP Event.calls :=
  h.invariant (fun tr v => v.left + tr.countP Event.works ≤ w.left + 4 * tr.countP Event.calls) le_rfl
    fun tr v e v' _ hv hstep => by
      have hleft := left_step hstep
      rw [List.countP_append, List.countP_append, List.countP_singleton, List.countP_singleton]
      omega

/-- **The worker comes to an end with its commands.**  In every state reached while the process is up: as long as an
accepted command has not come to its end, something can be done for the commands that are there; from there on only so much
can be done, four things for each command that comes; and once all accepted commands have come to their end, all slots and
permits are free and no flag is set. -/
theorem worker_drains (h : Run (Step hash) (.start t₀) tr w) (hover : w.phase.over = false) :
    ((∃ n < w.next, n ∉ w.ended.map Prod.fst) → ∃ e w', Event.works e = true ∧ Step hash w e w') ∧
    (∀ tr' w', Run (Step hash) w tr' w' → tr'.countP Event.works ≤ w.left + 4 * tr'.countP Event.calls) ∧
    ((∀ n < w.next, n ∈ w.ended.map Prod.fst) →
      w.slots = searchBacklogMax ∧ w.permits = searchConcurrency ∧ ∀ f, w.flights f = false) := by
  have hcustody := custody_run h
  have hbounded := bounded_run h
  refine ⟨?_, fun tr' w' hrun => (Nat.le_add_left _ _).trans (works_le hrun), fun hall => ?_⟩
  · rintro ⟨n, hn, hnot⟩
    exact works_of_outstanding hbounded hover (List.ne_nil_of_mem ((mem_outstanding hcustody).mpr ⟨hn, hnot⟩))
  · have hnone : w.outstanding = [] := List.eq_nil_iff_forall_not_mem.mpr fun n hn =>
      ((mem_outstanding hcustody).mp hn).2 (hall n ((mem_outstanding hcustody).mp hn).1)
    obtain ⟨-, hfresh, hgate, -, hrunning, htasks⟩ := outstanding_eq_nil.mp hnone
    refine ⟨?_, ?_, fun f => ?_⟩
    · simpa [hfresh, hgate, hrunning] using hbounded.slots
    · simpa [hrunning] using hbounded.permits
    · have hflight := hbounded.flight f
      rw [htasks] at hflight
      by_contra hset
      rw [if_pos (by simpa using hset)] at hflight
      cases hflight

/-- What is left in that run once the second search was passed over. -/
theorem worker_drains_passedOver : ∃ w : World, (1, End.skipped) ∈ w.ended ∧
    ∀ tr' w', Run (Step id) w tr' w' → tr'.countP Event.works ≤ w.left + 4 * tr'.countP Event.calls := by
  obtain ⟨w, hrun, hserves, -, hskipped, -⟩ := PassedOver.run
  exact ⟨w, hskipped, (worker_drains hrun hserves).2.1⟩

end Alaya.Worker
