import Alaya.Server.Worker

/-!
# What becomes of a command

Whatever the order of what happens, every accepted command is received in its turn and is in exactly one place from then
on (`served_once`), and the bounds that the channel, the slots, the gate and the flags stand for hold (`worker_bounds`).
-/

namespace Alaya.Worker

open Json Labelled

/-! ### Where the commands are -/

/-- The tickets of some jobs. -/
def tickets (jobs : List Job) : List ℕ := jobs.map Job.ticket

def taskTickets (tasks : List Task) : List ℕ := tasks.map fun task => task.job.ticket

/-- The commands at their end that came to it as `p` says. -/
def endedAs (p : End → Bool) (ended : List (ℕ × End)) : List ℕ := (ended.filter fun e => p e.2).map Prod.fst

/-- The commands whose handlers run. -/
def atWork (phase : Phase) (running : List Job) (tasks : List Task) : List ℕ :=
  tickets phase.hand ++ tickets running ++ taskTickets tasks

/-- The places a command can be in: the channel, on its way to the gate, at the gate, a handler that runs, its end. -/
def World.places (w : World) : List ℕ :=
  tickets w.channel ++ tickets w.fresh ++ tickets w.gate ++ atWork w.phase w.running w.tasks ++ w.ended.map Prod.fst

def End.hasRun : End → Bool
  | .ran _ => true
  | _ => false

def End.answered : End → Bool
  | .refused | .ran true => true
  | _ => false

def End.refusal : End → Bool
  | .refused => true
  | _ => false

/-- **What holds of the commands at all times**, but for those on their way from one place to another: `taken` whose
handlers have not begun, `doing` whose handlers have. -/
structure Custody (taken doing : List ℕ) (w : World) : Prop where
  /-- Each accepted command is in one place. -/
  places : ∀ n, w.places.count n + taken.count n + doing.count n = (List.range w.next).count n
  /-- The channel is first in, first out. -/
  received : w.received ++ tickets w.channel = List.range w.next
  /-- A handler is begun once. -/
  began : ∀ n, w.began.count n =
    (atWork w.phase w.running w.tasks).count n + doing.count n + (endedAs End.hasRun w.ended).count n
  /-- A reply is sent once. -/
  answers : ∀ n, (w.answers.map Prod.fst).count n =
    (taskTickets (w.tasks.filter Task.told)).count n + (endedAs End.answered w.ended).count n
  refused : ∀ n, ((w.answers.filter fun a => a.2.refuses).map Prod.fst).count n = (endedAs End.refusal w.ended).count n
  skipped : ∀ n, (n, End.skipped) ∈ w.ended → n ∈ w.gone

/-- How many passes of a kind run. -/
def flying (f : Flight) (tasks : List Task) : ℕ := tasks.countP fun task => task.job.cmd.arm = .flight f

/-- **The bounds** that the channel, the slots, the gate and the flags keep. -/
structure Bounded (w : World) : Prop where
  channel : w.channel.length ≤ cmdChannelCap
  slots : w.slots + (w.fresh.length + w.gate.length + w.running.length) = searchBacklogMax
  permits : w.permits + w.running.length = searchConcurrency
  flight : ∀ f, flying f w.tasks = if w.flights f then 1 else 0

section

variable {α : Type*} {l : List α} {i : ℕ} {a : α}

/-- What is left of a list without its entry at `i`. -/
theorem perm_eraseIdx (h : l[i]? = some a) : l.Perm (a :: l.eraseIdx i) := by
  obtain ⟨hi, rfl⟩ := List.getElem?_eq_some_iff.mp h
  exact (List.getElem_cons_eraseIdx_perm hi).symm

end

variable {hash : String → String} {w w' : World} {taken : List ℕ} {n : ℕ}

theorem count_places (w : World) (n : ℕ) : w.places.count n =
    (tickets w.channel).count n + (tickets w.fresh).count n + (tickets w.gate).count n +
      ((tickets w.phase.hand).count n + (tickets w.running).count n + (taskTickets w.tasks).count n) +
      (w.ended.map Prod.fst).count n := by
  simp only [World.places, atWork, List.count_append]

theorem tickets_perm {jobs jobs' : List Job} (h : jobs.Perm jobs') (n : ℕ) :
    (tickets jobs).count n = (tickets jobs').count n := (h.map Job.ticket).count_eq n

theorem taskTickets_perm {tasks tasks' : List Task} (h : tasks.Perm tasks') (n : ℕ) :
    (taskTickets tasks).count n = (taskTickets tasks').count n := (h.map fun task : Task => task.job.ticket).count_eq n

theorem tickets_cons (job : Job) (jobs : List Job) : tickets (job :: jobs) = job.ticket :: tickets jobs := rfl

theorem tickets_append (jobs jobs' : List Job) : tickets (jobs ++ jobs') = tickets jobs ++ tickets jobs' :=
  List.map_append

theorem taskTickets_cons (task : Task) (tasks : List Task) :
    taskTickets (task :: tasks) = task.job.ticket :: taskTickets tasks := rfl

theorem taskTickets_append (tasks tasks' : List Task) :
    taskTickets (tasks ++ tasks') = taskTickets tasks ++ taskTickets tasks' := List.map_append

theorem count_cons_eq (m : ℕ) (l : List ℕ) (n : ℕ) : (m :: l).count n = l.count n + if m = n then 1 else 0 := by
  simp [List.count_cons]

theorem custody_start (now : ℕ) : Custody [] [] (.start now) where
  places n := by simp [World.places, atWork, World.start, tickets, taskTickets, Phase.hand]
  received := rfl
  began n := rfl
  answers n := rfl
  refused n := rfl
  skipped n h := nomatch h

theorem bounded_start (now : ℕ) : Bounded (.start now) where
  channel := Nat.zero_le _
  slots := rfl
  permits := rfl
  flight _ := rfl

/-! ### Moves of a command -/

namespace Custody

variable {doing : List ℕ} {job : Job} {jobs : List Job} {i : ℕ}

theorem stamp (h : Custody taken doing w) : Custody taken doing w.stamp := { h with }

/-- A command is sent. -/
theorem accept (h : Custody taken doing w) (hn : job.ticket = w.next) :
    Custody taken doing { w with channel := w.channel ++ [job], next := w.next + 1 } where
  places m := by
    have hm := h.places m
    have hone : tickets [job] = [w.next] := by rw [← hn]; rfl
    simp only [count_places, tickets_append, List.count_append, List.range_succ, hone] at hm ⊢
    omega
  received := by rw [tickets_append, ← List.append_assoc, h.received, List.range_succ, ← hn]; rfl
  began := h.began
  answers := h.answers
  refused := h.refused
  skipped := h.skipped

/-- The loop receives the oldest command of the channel. -/
theorem take (h : Custody taken doing w) (hchannel : w.channel = job :: jobs) :
    Custody (job.ticket :: taken) doing { w with channel := jobs, received := w.received ++ [job.ticket] } where
  places m := by
    have hm := h.places m
    simp only [count_places, hchannel, tickets_cons, count_cons_eq] at hm ⊢
    omega
  received := by
    rw [← h.received, hchannel, tickets_cons, List.append_assoc]
    rfl
  began := h.began
  answers := h.answers
  refused := h.refused
  skipped := h.skipped

/-- A command that was not begun is refused. -/
theorem refuse (h : Custody (n :: taken) doing w) (v : Value) : Custody taken doing (w.refuse n v) where
  places m := by
    have hm := h.places m
    simp only [count_places, count_cons_eq, World.refuse, World.finish, World.answer, List.map_cons] at hm ⊢
    omega
  received := h.received
  began m := by
    have hm := h.began m
    simpa [World.refuse, World.finish, World.answer, endedAs, End.hasRun] using hm
  answers m := by
    have hm := h.answers m
    simp [World.refuse, World.finish, World.answer, endedAs, End.answered, count_cons_eq] at hm ⊢
    omega
  refused m := by
    have hm := h.refused m
    simp [World.refuse, World.finish, World.answer, endedAs, End.refusal, Reply.refuses, count_cons_eq] at hm ⊢
    omega
  skipped m hm := h.skipped m (by simpa [World.refuse, World.finish, World.answer] using hm)

/-- A search whose caller has gone is passed over. -/
theorem skip (h : Custody (n :: taken) doing w) (hgone : n ∈ w.gone) :
    Custody taken doing (w.finish n .skipped) where
  places m := by
    have hm := h.places m
    simp only [count_places, count_cons_eq, World.finish, List.map_cons] at hm ⊢
    omega
  received := h.received
  began m := by
    have hm := h.began m
    simpa [World.finish, endedAs, End.hasRun] using hm
  answers m := by
    have hm := h.answers m
    simpa [World.finish, endedAs, End.answered] using hm
  refused m := by
    have hm := h.refused m
    simpa [World.finish, endedAs, End.refusal] using hm
  skipped m hm := by
    rcases List.mem_cons.mp hm with heq | hm
    · obtain rfl := (Prod.mk.inj heq).1
      exact hgone
    · exact h.skipped m hm

theorem begin (h : Custody (n :: taken) doing w) : Custody taken (n :: doing) (w.begin n) where
  places m := by
    have hm := h.places m
    simp only [count_places, count_cons_eq, World.begin] at hm ⊢
    omega
  received := h.received
  began m := by
    have hm := h.began m
    simp only [count_cons_eq, World.begin] at hm ⊢
    omega
  answers := h.answers
  refused := h.refused
  skipped := h.skipped

/-- A handler comes to its end, with a reply that does not refuse its command or without one. -/
theorem settle (h : Custody taken (n :: doing) w) {r : Option Reply} (hr : ∀ r' ∈ r, r'.refuses = false) :
    Custody taken doing (w.settle n r) := by
  cases r with
  | none =>
    exact
      { places := fun m => by
          have hm := h.places m
          simp only [count_places, count_cons_eq, World.settle, World.finish, List.map_cons] at hm ⊢
          omega
        received := h.received
        began := fun m => by
          have hm := h.began m
          simp [World.settle, World.finish, endedAs, End.hasRun, count_cons_eq] at hm ⊢
          omega
        answers := fun m => by simpa [World.settle, World.finish, endedAs, End.answered] using h.answers m
        refused := fun m => by simpa [World.settle, World.finish, endedAs, End.refusal] using h.refused m
        skipped := fun m hm => h.skipped m (by simpa [World.settle, World.finish] using hm) }
  | some r =>
    have hno := hr r rfl
    exact
      { places := fun m => by
          have hm := h.places m
          simp only [count_places, count_cons_eq, World.settle, World.answer, World.finish, List.map_cons] at hm ⊢
          omega
        received := h.received
        began := fun m => by
          have hm := h.began m
          simp [World.settle, World.answer, World.finish, endedAs, End.hasRun, count_cons_eq] at hm ⊢
          omega
        answers := fun m => by
          have hm := h.answers m
          simp [World.settle, World.answer, World.finish, endedAs, End.answered, count_cons_eq] at hm ⊢
          omega
        refused := fun m => by
          simpa [World.settle, World.answer, World.finish, endedAs, End.refusal, hno] using h.refused m
        skipped := fun m hm => h.skipped m (by simpa [World.settle, World.answer, World.finish] using hm) }

/-- The loop awaits a handler. -/
theorem hold (h : Custody taken (job.ticket :: doing) w) (hhand : w.phase.hand = []) :
    Custody taken doing { w with phase := .busy job } where
  places m := by
    have hm := h.places m
    have hone : tickets (Phase.busy job).hand = [job.ticket] := rfl
    have hnil : (tickets w.phase.hand).count m = 0 := by rw [hhand]; rfl
    simp only [count_places, count_cons_eq, hone, List.count_nil] at hm ⊢
    omega
  received := h.received
  began m := by
    have hm := h.began m
    have hone : tickets (Phase.busy job).hand = [job.ticket] := rfl
    have hnil : (tickets w.phase.hand).count m = 0 := by rw [hhand]; rfl
    simp only [atWork, List.count_append, count_cons_eq, hone, List.count_nil] at hm ⊢
    omega
  answers := h.answers
  refused := h.refused
  skipped := h.skipped

/-- The handler that the loop awaits comes to its end. -/
theorem release (h : Custody taken doing w) (hphase : w.phase = .busy job) {phase : Phase} (hhand : phase.hand = []) :
    Custody taken (job.ticket :: doing) { w with phase } where
  places m := by
    have hm := h.places m
    have hone : tickets w.phase.hand = [job.ticket] := by rw [hphase]; rfl
    have hnil : (tickets phase.hand).count m = 0 := by rw [hhand]; rfl
    simp only [count_places, count_cons_eq, hone, List.count_nil] at hm ⊢
    omega
  received := h.received
  began m := by
    have hm := h.began m
    have hone : tickets w.phase.hand = [job.ticket] := by rw [hphase]; rfl
    have hnil : (tickets phase.hand).count m = 0 := by rw [hhand]; rfl
    simp only [atWork, List.count_append, count_cons_eq, hone, List.count_nil] at hm ⊢
    omega
  answers := h.answers
  refused := h.refused
  skipped := h.skipped

theorem spawn (h : Custody taken (job.ticket :: doing) w) :
    Custody taken doing { w with tasks := w.tasks ++ [⟨job, false⟩] } where
  places m := by
    have hm := h.places m
    have hone : taskTickets [⟨job, false⟩] = [job.ticket] := rfl
    simp only [count_places, taskTickets_append, List.count_append, count_cons_eq, hone, List.count_nil] at hm ⊢
    omega
  received := h.received
  began m := by
    have hm := h.began m
    have hone : taskTickets [⟨job, false⟩] = [job.ticket] := rfl
    simp only [atWork, taskTickets_append, List.count_append, count_cons_eq, hone, List.count_nil] at hm ⊢
    omega
  answers m := by
    have hm := h.answers m
    simpa [taskTickets] using hm
  refused := h.refused
  skipped := h.skipped

/-- A spawned command that has not replied comes to its end. -/
theorem quit (h : Custody taken doing w) (htask : w.tasks[i]? = some ⟨job, false⟩) :
    Custody taken (job.ticket :: doing) { w with tasks := w.tasks.eraseIdx i } where
  places m := by
    have hm := h.places m
    rw [count_places, taskTickets_perm (perm_eraseIdx htask) m] at hm
    simp only [count_places, taskTickets_cons, count_cons_eq] at hm ⊢
    omega
  received := h.received
  began m := by
    have hm := h.began m
    simp only [atWork, List.count_append, taskTickets_perm (perm_eraseIdx htask) m, taskTickets_cons, count_cons_eq] at hm ⊢
    omega
  answers m := by
    have hm := h.answers m
    rw [taskTickets_perm ((perm_eraseIdx htask).filter Task.told) m] at hm
    exact hm
  refused := h.refused
  skipped := h.skipped

/-- A spawned command that has replied before comes to its end. -/
theorem quitTold (h : Custody taken doing w) (htask : w.tasks[i]? = some ⟨job, true⟩) :
    Custody taken doing ({ w with tasks := w.tasks.eraseIdx i }.finish job.ticket (.ran true)) where
  places m := by
    have hm := h.places m
    rw [count_places, taskTickets_perm (perm_eraseIdx htask) m] at hm
    simp only [count_places, taskTickets_cons, count_cons_eq, World.finish, List.map_cons] at hm ⊢
    omega
  received := h.received
  began m := by
    have hm := h.began m
    simp only [atWork, List.count_append, taskTickets_perm (perm_eraseIdx htask) m, taskTickets_cons, count_cons_eq] at hm
    simp [World.finish, atWork, endedAs, End.hasRun, count_cons_eq] at hm ⊢
    omega
  answers m := by
    have hm := h.answers m
    rw [taskTickets_perm ((perm_eraseIdx htask).filter Task.told) m] at hm
    simp [World.finish, endedAs, End.answered, count_cons_eq, taskTickets] at hm ⊢
    omega
  refused m := by simpa [World.finish, endedAs, End.refusal] using h.refused m
  skipped m hm := h.skipped m (by simpa [World.finish] using hm)

/-- A spawned command replies, and goes on. -/
theorem tell (h : Custody taken doing w) (htask : w.tasks[i]? = some ⟨job, false⟩) (v : Value) :
    Custody taken doing ({ w with tasks := w.tasks.set i ⟨job, true⟩ }.answer job.ticket (.made v)) := by
  obtain ⟨hi, hget⟩ := List.getElem?_eq_some_iff.mp htask
  have hset : (w.tasks.set i ⟨job, true⟩).Perm (⟨job, true⟩ :: w.tasks.eraseIdx i) := List.set_perm_cons_eraseIdx hi _
  have hsame : ∀ m, (taskTickets (w.tasks.set i ⟨job, true⟩)).count m = (taskTickets w.tasks).count m := fun m => by
    rw [taskTickets_perm hset, taskTickets_perm (perm_eraseIdx htask)]
    rfl
  exact
    { places := fun m => by
        have hm := h.places m
        simp only [count_places, World.answer, hsame] at hm ⊢
        exact hm
      received := h.received
      began := fun m => by
        have hm := h.began m
        simp only [atWork, List.count_append, World.answer, hsame] at hm ⊢
        exact hm
      answers := fun m => by
        have hm := h.answers m
        rw [taskTickets_perm ((perm_eraseIdx htask).filter Task.told) m] at hm
        simp only [World.answer, taskTickets_perm (hset.filter Task.told) m]
        simp [count_cons_eq, taskTickets] at hm ⊢
        omega
      refused := fun m => by simpa [World.answer, Reply.refuses] using h.refused m
      skipped := h.skipped }

theorem queue (h : Custody (job.ticket :: taken) doing w) :
    Custody taken doing { w with fresh := w.fresh ++ [job] } where
  places m := by
    have hm := h.places m
    have hone : tickets [job] = [job.ticket] := rfl
    simp only [count_places, tickets_append, List.count_append, hone, count_cons_eq, List.count_nil] at hm ⊢
    omega
  received := h.received
  began := h.began
  answers := h.answers
  refused := h.refused
  skipped := h.skipped

theorem reach (h : Custody taken doing w) (hjob : w.fresh[i]? = some job) :
    Custody taken doing { w with fresh := w.fresh.eraseIdx i, gate := w.gate ++ [job] } where
  places m := by
    have hm := h.places m
    have hone : tickets [job] = [job.ticket] := rfl
    rw [count_places, tickets_perm (perm_eraseIdx hjob) m] at hm
    simp only [count_places, tickets_append, tickets_cons, List.count_append, hone, count_cons_eq, List.count_nil]
      at hm ⊢
    omega
  received := h.received
  began := h.began
  answers := h.answers
  refused := h.refused
  skipped := h.skipped

theorem leaveQueue (h : Custody taken doing w) (hgate : w.gate = job :: jobs) :
    Custody (job.ticket :: taken) doing { w with gate := jobs } where
  places m := by
    have hm := h.places m
    simp only [count_places, hgate, tickets_cons, count_cons_eq] at hm ⊢
    omega
  received := h.received
  began := h.began
  answers := h.answers
  refused := h.refused
  skipped := h.skipped

theorem enter {j : Job} (h : Custody taken (j.ticket :: doing) w) :
    Custody taken doing { w with running := j :: w.running } where
  places m := by
    have hm := h.places m
    simp only [count_places, tickets_cons, count_cons_eq] at hm ⊢
    omega
  received := h.received
  began m := by
    have hm := h.began m
    simp only [atWork, List.count_append, tickets_cons, count_cons_eq] at hm ⊢
    omega
  answers := h.answers
  refused := h.refused
  skipped := h.skipped

theorem leaveGate (h : Custody taken doing w) (hjob : w.running[i]? = some job) :
    Custody taken (job.ticket :: doing) { w with running := w.running.eraseIdx i } where
  places m := by
    have hm := h.places m
    rw [count_places, tickets_perm (perm_eraseIdx hjob) m] at hm
    simp only [count_places, tickets_cons, count_cons_eq] at hm ⊢
    omega
  received := h.received
  began m := by
    have hm := h.began m
    simp only [atWork, List.count_append, tickets_perm (perm_eraseIdx hjob) m, tickets_cons, count_cons_eq] at hm ⊢
    omega
  answers := h.answers
  refused := h.refused
  skipped := h.skipped

end Custody

/-! ### What an event keeps -/

theorem not_refuses {o : Outcome} {now : ℕ} {job : Job} {r : Option Reply} (h : o.reply hash now job = some r) :
    ∀ r' ∈ r, r'.refuses = false := by
  intro r' hr'
  cases o with
  | made v =>
    obtain rfl := Option.some.inj h
    obtain rfl := Option.some.inj hr'
    rfl
  | cut pod =>
    simp only [Outcome.reply] at h
    split at h
    · split at h
      · obtain rfl := Option.some.inj h
        obtain rfl := Option.some.inj hr'
        rfl
      · cases h
    · cases h
  | panicked =>
    obtain rfl := Option.some.inj h
    cases hr'

theorem custody_pickUp {job : Job} (h : Custody [job.ticket] [] w) (hhand : w.phase.hand = []) :
    Custody [] [] (w.pickUp job) := by
  unfold World.pickUp
  split
  · exact { h.begin.settle (r := some (.made pong)) (fun r hr => by obtain rfl := Option.some.inj hr; rfl) with }
  · exact { h.begin.hold hhand with }
  · split
    · exact (h.refuse _).stamp
    · exact { h.queue with }
  · exact { h.begin.spawn with }
  · split
    · exact (h.refuse _).stamp
    · exact { h.begin.spawn with }

theorem custody_send (h : Custody [] [] w) (cmd : CmdInner) : Custody [] [] (w.send cmd) := by
  unfold World.send World.tryDispatch
  split
  · exact h
  · split
    · exact h
    · exact h.accept rfl

theorem custody_complete {o : Outcome} (h : Custody [] [] w) (hw : w.complete hash o = some w') : Custody [] [] w' := by
  unfold World.complete at hw
  split at hw
  · next job hphase =>
    obtain rfl := Option.some.inj hw
    exact { (h.release hphase (rfl : Phase.crashed.hand = [])).settle (r := none) nofun with }
  · next _ job hphase _ =>
    obtain ⟨r, hr, rfl⟩ := Option.map_eq_some_iff.mp hw
    have hdone := (h.release hphase (rfl : Phase.idle.hand = [])).settle (not_refuses hr)
    cases r <;> exact { hdone with }
  · cases hw

theorem custody_quit {i : ℕ} {o : Outcome} (h : Custody [] [] w) (hw : w.quit hash i o = some w') :
    Custody [] [] w' := by
  unfold World.quit at hw
  split at hw
  · next task htask =>
    obtain ⟨job, told⟩ := task
    split at hw
    · dsimp only at hw
      split at hw
      · next htold =>
        obtain rfl := Option.some.inj hw
        obtain rfl : told = true := htold
        have hdone := h.quitTold htask
        unfold World.clear
        cases job.cmd.arm <;> exact { hdone with }
      · next htold =>
        obtain rfl : told = false := by simpa using htold
        split at hw
        · cases hw
        · obtain ⟨r, hr, rfl⟩ := Option.map_eq_some_iff.mp hw
          have hdone := (h.quit htask).settle (not_refuses hr)
          unfold World.clear
          cases job.cmd.arm <;> cases r <;> exact { hdone with }
    · cases hw
  · cases hw

/-- A loop that awaits no handler goes from one phase to another. -/
theorem Custody.rephase (h : Custody [] [] w) (hhand : w.phase.hand = []) {phase : Phase} (hphase : phase.hand = []) :
    Custody [] [] { w with phase } where
  places m := by
    have hm := h.places m
    simp only [count_places, hhand, hphase] at hm ⊢
    exact hm
  received := h.received
  began m := by
    have hm := h.began m
    simp only [atWork, hhand, hphase] at hm ⊢
    exact hm
  answers := h.answers
  refused := h.refused
  skipped := h.skipped

/-- **An event keeps the custody of the commands.** -/
theorem custody_step {e : Event} (h : Custody [] [] w) (hstep : Step hash w e w') : Custody [] [] w' := by
  cases e with
  | pass d =>
    obtain rfl := Option.some.inj hstep
    exact { h with }
  | boot =>
    change w.boot = some w' at hstep
    unfold World.boot at hstep
    split at hstep
    · next hphase =>
      obtain rfl := Option.some.inj hstep
      exact { h.rephase (by rw [hphase]; rfl) (rfl : Phase.idle.hand = []) with }
    · cases hstep
  | send cmd =>
    change (if w.closed then none else some (w.send cmd)) = some w' at hstep
    split at hstep
    · cases hstep
    · obtain rfl := Option.some.inj hstep
      exact custody_send h cmd
  | tick =>
    change (if w.closed then none else some { w.send .ping with ticked := w.now }) = some w' at hstep
    split at hstep
    · cases hstep
    · obtain rfl := Option.some.inj hstep
      exact { custody_send h .ping with }
  | leave n =>
    change (if n < w.next then some { w with gone := n :: w.gone } else none) = some w' at hstep
    split at hstep
    · obtain rfl := Option.some.inj hstep
      exact { h with skipped := fun m hm => List.mem_cons_of_mem n (h.skipped m hm) }
    · cases hstep
  | close =>
    obtain rfl := Option.some.inj hstep
    exact { h with }
  | receive =>
    change w.receive = some w' at hstep
    unfold World.receive at hstep
    split at hstep
    · next job rest hphase hchannel =>
      obtain rfl := Option.some.inj hstep
      have htaken := h.take hchannel
      refine custody_pickUp ?_ (by rw [hphase]; rfl)
      exact htaken
    · cases hstep
  | complete o => exact custody_complete h hstep
  | reach i =>
    change w.reach i = some w' at hstep
    unfold World.reach at hstep
    split at hstep
    · next job hjob =>
      split at hstep
      · obtain rfl := Option.some.inj hstep
        exact h.reach hjob
      · cases hstep
    · cases hstep
  | enter =>
    change w.enter = some w' at hstep
    unfold World.enter at hstep
    split at hstep
    · next job rest hgate =>
      split at hstep
      · cases hstep
      · dsimp only at hstep
        split at hstep
        · next hgone =>
          obtain rfl := Option.some.inj hstep
          exact { (h.leaveQueue hgate).skip hgone with }
        · obtain rfl := Option.some.inj hstep
          exact { (h.leaveQueue hgate).begin.enter (j := { job with since := w.now }) with }
    · cases hstep
  | leaveGate i o =>
    change w.leaveGate hash i o = some w' at hstep
    unfold World.leaveGate at hstep
    split at hstep
    · next job hjob =>
      split at hstep
      · obtain ⟨r, hr, rfl⟩ := Option.map_eq_some_iff.mp hstep
        have hdone := (h.leaveGate hjob).settle (not_refuses hr)
        cases r <;> exact { hdone with }
      · cases hstep
    · cases hstep
  | tell i v =>
    change w.tell i v = some w' at hstep
    unfold World.tell at hstep
    split at hstep
    · next n limit since htask =>
      split at hstep
      · obtain rfl := Option.some.inj hstep
        exact h.tell htask v
      · cases hstep
    · cases hstep
  | quit i o => exact custody_quit h hstep
  | drain =>
    change w.drain = some w' at hstep
    unfold World.drain at hstep
    split at hstep
    · next hphase _ _ =>
      obtain rfl := Option.some.inj hstep
      exact h.rephase (by rw [hphase]; rfl) rfl
    · cases hstep

theorem bounded_send (h : Bounded w) (cmd : CmdInner) : Bounded (w.send cmd) := by
  unfold World.send World.tryDispatch
  split
  · exact h
  · split
    · exact h
    · next hfull =>
      have hle := h.channel
      refine { h with channel := ?_ }
      change (w.channel ++ [_]).length ≤ cmdChannelCap
      rw [List.length_append, List.length_singleton]
      omega

theorem flying_cons (f : Flight) (task : Task) (tasks : List Task) :
    flying f (task :: tasks) = flying f tasks + if task.job.cmd.arm = .flight f then 1 else 0 := by
  simp [flying, List.countP_cons]

theorem flying_append (f : Flight) (tasks tasks' : List Task) :
    flying f (tasks ++ tasks') = flying f tasks + flying f tasks' := List.countP_append

theorem flying_perm (f : Flight) {tasks tasks' : List Task} (h : tasks.Perm tasks') :
    flying f tasks = flying f tasks' := h.countP_eq _

theorem bounded_pickUp {job : Job} (h : Bounded w) : Bounded (w.pickUp job) := by
  unfold World.pickUp
  split
  · exact { h with }
  · exact { h with }
  · split
    · exact { h with }
    · next hslots =>
      have hsum := h.slots
      refine { h with slots := ?_ }
      change w.slots - 1 + ((w.fresh ++ [job]).length + w.gate.length + w.running.length) = searchBacklogMax
      rw [List.length_append, List.length_singleton]
      omega
  · next harm =>
    refine { h with flight := fun f => ?_ }
    change flying f (w.tasks ++ [.mk job false]) = if w.flights f then 1 else 0
    rw [flying_append, flying_cons, h.flight f]
    simp [flying, harm]
  · next f harm =>
    split
    · exact { h with }
    · next hfree =>
      refine { h with flight := fun g => ?_ }
      change flying g (w.tasks ++ [.mk job false]) = if Function.update w.flights f true g then 1 else 0
      rw [flying_append, flying_cons, h.flight g]
      by_cases hfg : g = f
      · subst hfg
        simp [flying, harm, hfree]
      · simp [flying, harm, hfg, Ne.symm hfg]

theorem bounded_settle (h : Bounded w) (n : ℕ) (r : Option Reply) : Bounded (w.settle n r) := by
  cases r <;> exact { h with }

/-- The guard of a task clears the flag of its pass, and no other task has one for it. -/
theorem bounded_clear {i : ℕ} {task : Task} (h : Bounded w) (htask : w.tasks[i]? = some task) :
    Bounded ({ w with tasks := w.tasks.eraseIdx i }.clear task.job.cmd.arm) := by
  have hflying : ∀ f, flying f w.tasks =
      flying f (w.tasks.eraseIdx i) + if task.job.cmd.arm = .flight f then 1 else 0 := fun f => by
    rw [flying_perm f (perm_eraseIdx htask), flying_cons]
  unfold World.clear
  split
  · next f harm =>
    refine { h with flight := fun g => ?_ }
    change flying g (w.tasks.eraseIdx i) = if Function.update w.flights f false g then 1 else 0
    have hone := hflying g
    rw [h.flight g, harm] at hone
    by_cases hfg : g = f
    · subst hfg
      simp only [Function.update_self, Bool.false_eq_true, if_false]
      split at hone
      · simpa using hone
      · simp at hone
    · rw [Function.update_of_ne hfg]
      simpa [Ne.symm hfg] using hone.symm
  · next hnot =>
    refine { h with flight := fun g => ?_ }
    change flying g (w.tasks.eraseIdx i) = if w.flights g then 1 else 0
    have hone := hflying g
    rw [if_neg (hnot g), h.flight g] at hone
    exact hone.symm

theorem bounded_quit {i : ℕ} {o : Outcome} (h : Bounded w) (hw : w.quit hash i o = some w') : Bounded w' := by
  unfold World.quit at hw
  split at hw
  · next task htask =>
    have hclear := bounded_clear h htask
    split at hw
    · dsimp only at hw
      split at hw
      · obtain rfl := Option.some.inj hw
        exact { hclear with }
      · split at hw
        · cases hw
        · obtain ⟨r, -, rfl⟩ := Option.map_eq_some_iff.mp hw
          exact bounded_settle hclear _ r
    · cases hw
  · cases hw

/-- **An event keeps the bounds.** -/
theorem bounded_step {e : Event} (h : Bounded w) (hstep : Step hash w e w') : Bounded w' := by
  cases e with
  | pass d =>
    obtain rfl := Option.some.inj hstep
    exact { h with }
  | boot =>
    change w.boot = some w' at hstep
    unfold World.boot at hstep
    split at hstep
    · obtain rfl := Option.some.inj hstep
      exact { h with }
    · cases hstep
  | send cmd =>
    change (if w.closed then none else some (w.send cmd)) = some w' at hstep
    split at hstep
    · cases hstep
    · obtain rfl := Option.some.inj hstep
      exact bounded_send h cmd
  | tick =>
    change (if w.closed then none else some { w.send .ping with ticked := w.now }) = some w' at hstep
    split at hstep
    · cases hstep
    · obtain rfl := Option.some.inj hstep
      exact { bounded_send h .ping with }
  | leave n =>
    change (if n < w.next then some { w with gone := n :: w.gone } else none) = some w' at hstep
    split at hstep
    · obtain rfl := Option.some.inj hstep
      exact { h with }
    · cases hstep
  | close =>
    obtain rfl := Option.some.inj hstep
    exact { h with }
  | receive =>
    change w.receive = some w' at hstep
    unfold World.receive at hstep
    split at hstep
    · next job rest hphase hchannel =>
      obtain rfl := Option.some.inj hstep
      have hle := h.channel
      rw [hchannel, List.length_cons] at hle
      have hrest : Bounded { w with channel := rest, received := w.received ++ [job.ticket] } :=
        { h with channel := Nat.le_of_succ_le hle }
      exact bounded_pickUp hrest
    · cases hstep
  | complete o =>
    change w.complete hash o = some w' at hstep
    unfold World.complete at hstep
    split at hstep
    · next job _ =>
      obtain rfl := Option.some.inj hstep
      exact { bounded_settle h job.ticket none with }
    · next _ job _ _ =>
      obtain ⟨r, -, rfl⟩ := Option.map_eq_some_iff.mp hstep
      exact { bounded_settle h job.ticket r with }
    · cases hstep
  | reach i =>
    change w.reach i = some w' at hstep
    unfold World.reach at hstep
    split at hstep
    · next job hjob =>
      split at hstep
      · obtain rfl := Option.some.inj hstep
        have hsum := h.slots
        have hlen := (perm_eraseIdx hjob).length_eq
        refine { h with slots := ?_ }
        change w.slots + ((w.fresh.eraseIdx i).length + (w.gate ++ [job]).length + w.running.length) = searchBacklogMax
        rw [List.length_append, List.length_singleton]
        rw [List.length_cons] at hlen
        omega
      · cases hstep
    · cases hstep
  | enter =>
    change w.enter = some w' at hstep
    unfold World.enter at hstep
    split at hstep
    · next job rest hgate =>
      have hsum := h.slots
      have hpermits := h.permits
      rw [hgate, List.length_cons] at hsum
      split at hstep
      · cases hstep
      · next hopen =>
        rw [not_or] at hopen
        dsimp only at hstep
        split at hstep
        · obtain rfl := Option.some.inj hstep
          refine { h with slots := ?_ }
          change w.slots + 1 + (w.fresh.length + rest.length + w.running.length) = searchBacklogMax
          omega
        · obtain rfl := Option.some.inj hstep
          refine { h with slots := ?_, permits := ?_ }
          · change w.slots + (w.fresh.length + rest.length + (_ :: w.running).length) = searchBacklogMax
            rw [List.length_cons]
            omega
          · change w.permits - 1 + (_ :: w.running).length = searchConcurrency
            rw [List.length_cons]
            omega
    · cases hstep
  | leaveGate i o =>
    change w.leaveGate hash i o = some w' at hstep
    unfold World.leaveGate at hstep
    split at hstep
    · next job hjob =>
      split at hstep
      · obtain ⟨r, -, rfl⟩ := Option.map_eq_some_iff.mp hstep
        have hsum := h.slots
        have hpermits := h.permits
        have hlen := (perm_eraseIdx hjob).length_eq
        rw [List.length_cons] at hlen
        refine bounded_settle (w := { w with
          running := w.running.eraseIdx i, permits := w.permits + 1, slots := w.slots + 1 })
          { h with slots := ?_, permits := ?_ } _ r
        · change w.slots + 1 + (w.fresh.length + w.gate.length + (w.running.eraseIdx i).length) = searchBacklogMax
          omega
        · change w.permits + 1 + (w.running.eraseIdx i).length = searchConcurrency
          omega
      · cases hstep
    · cases hstep
  | tell i v =>
    change w.tell i v = some w' at hstep
    unfold World.tell at hstep
    split at hstep
    · next n limit since htask =>
      split at hstep
      · obtain rfl := Option.some.inj hstep
        obtain ⟨hi, -⟩ := List.getElem?_eq_some_iff.mp htask
        refine { h with flight := fun f => ?_ }
        change flying f (w.tasks.set i _) = if w.flights f then 1 else 0
        rw [← h.flight f, flying_perm f (List.set_perm_cons_eraseIdx hi _), flying_perm f (perm_eraseIdx htask),
          flying_cons, flying_cons]
      · cases hstep
    · cases hstep
  | quit i o => exact bounded_quit h hstep
  | drain =>
    change w.drain = some w' at hstep
    unfold World.drain at hstep
    split at hstep
    · obtain rfl := Option.some.inj hstep
      exact { h with }
    · cases hstep

/-! ### Whole runs -/

variable {tr : List Event} {t₀ : ℕ}

theorem custody_run (h : Run (Step hash) (.start t₀) tr w) : Custody [] [] w :=
  h.preserves _ (custody_start t₀) fun _ _ _ hw hstep => custody_step hw hstep

theorem bounded_run (h : Run (Step hash) (.start t₀) tr w) : Bounded w :=
  h.preserves _ (bounded_start t₀) fun _ _ _ hw hstep => bounded_step hw hstep

theorem endedAs_sublist (p : End → Bool) (ended : List (ℕ × End)) :
    (endedAs p ended).Sublist (ended.map Prod.fst) := List.filter_sublist.map _

/-- Two kinds of end that exclude each other. -/
theorem count_endedAs_add_le {p q : End → Bool} (hpq : ∀ e, p e = true → q e = false) (ended : List (ℕ × End)) (n : ℕ) :
    (endedAs p ended).count n + (endedAs q ended).count n ≤ (ended.map Prod.fst).count n := by
  induction ended with
  | nil => exact Nat.zero_le _
  | cons e ended ih =>
    simp only [endedAs] at ih ⊢
    cases hp : p e.2 with
    | true =>
      simp only [List.filter_cons, hp, hpq _ hp, if_true, Bool.false_eq_true, if_false, List.map_cons, count_cons_eq]
      omega
    | false =>
      cases hq : q e.2 <;>
        simp only [List.filter_cons, hp, hq, if_true, Bool.false_eq_true, if_false, List.map_cons, count_cons_eq] <;>
        omega

namespace Custody

theorem count_places_le_one (h : Custody [] [] w) (n : ℕ) : w.places.count n ≤ 1 := by
  have hn := h.places n
  have hone := List.nodup_iff_count_le_one.mp (List.nodup_range (n := w.next)) n
  simp only [List.count_nil] at hn
  omega

theorem perm_places (h : Custody [] [] w) : w.places.Perm (List.range w.next) :=
  List.perm_iff_count.mpr fun n => h.places n

theorem nodup_began (h : Custody [] [] w) : w.began.Nodup := by
  refine List.nodup_iff_count_le_one.mpr fun n => ?_
  have hone := h.count_places_le_one n
  have hbegan := h.began n
  have hended := (endedAs_sublist End.hasRun w.ended).count_le n
  simp only [count_places, atWork, List.count_append, List.count_nil] at hone hbegan
  omega

theorem nodup_answers (h : Custody [] [] w) : (w.answers.map Prod.fst).Nodup := by
  refine List.nodup_iff_count_le_one.mpr fun n => ?_
  have hone := h.count_places_le_one n
  have hanswers := h.answers n
  have hended := (endedAs_sublist End.answered w.ended).count_le n
  have htold := ((List.filter_sublist (p := Task.told) (l := w.tasks)).map fun task => task.job.ticket).count_le n
  change (taskTickets (w.tasks.filter Task.told)).count n ≤ (taskTickets w.tasks).count n at htold
  simp only [count_places] at hone
  omega

/-- A refused command is never begun. -/
theorem not_began_of_refused (h : Custody [] [] w) {r : Reply} (hr : (n, r) ∈ w.answers) (hrefuses : r.refuses = true) :
    n ∉ w.began := by
  have hone := h.count_places_le_one n
  have hrefused := h.refused n
  have hbegan := h.began n
  have hpos : 0 < ((w.answers.filter fun a => a.2.refuses).map Prod.fst).count n :=
    List.count_pos_iff.mpr (List.mem_map.mpr ⟨(n, r), List.mem_filter.mpr ⟨hr, hrefuses⟩, rfl⟩)
  have hsum := count_endedAs_add_le (p := End.hasRun) (q := End.refusal) (by intro e; cases e <;> simp [End.hasRun, End.refusal])
    w.ended n
  simp only [count_places, atWork, List.count_append, List.count_nil] at hone hbegan
  exact List.count_eq_zero.mp (by omega)

/-- A command at its end without a reply: its handler panicked, or it is a search that was passed over. -/
theorem unanswered (h : Custody [] [] w) {e : End} (he : (n, e) ∈ w.ended) (hno : n ∉ w.answers.map Prod.fst) :
    e = .ran false ∨ e = .skipped ∧ n ∈ w.gone ∧ n ∉ w.began := by
  have hanswers := h.answers n
  rw [List.count_eq_zero.mpr hno] at hanswers
  have hzero : (endedAs End.answered w.ended).count n = 0 := by omega
  have hnot : ∀ e', (n, e') ∈ w.ended → e'.answered = false := fun e' he' => by
    by_contra htrue
    exact List.count_eq_zero.mp hzero (List.mem_map.mpr ⟨(n, e'), List.mem_filter.mpr ⟨he', by simpa using htrue⟩, rfl⟩)
  cases e with
  | refused => exact absurd (hnot _ he) (by decide)
  | ran answered =>
    cases answered with
    | true => exact absurd (hnot _ he) (by decide)
    | false => exact .inl rfl
  | skipped =>
    refine .inr ⟨rfl, h.skipped n he, List.count_eq_zero.mp ?_⟩
    have hone := h.count_places_le_one n
    have hbegan := h.began n
    have hpos : 0 < (endedAs (· = .skipped) w.ended).count n :=
      List.count_pos_iff.mpr (List.mem_map.mpr ⟨(n, .skipped), List.mem_filter.mpr ⟨he, by simp⟩, rfl⟩)
    have hsum := count_endedAs_add_le (p := End.hasRun) (q := (· = .skipped))
      (by intro e; cases e <;> simp [End.hasRun]) w.ended n
    simp only [count_places, atWork, List.count_append, List.count_nil] at hone hbegan
    omega

end Custody

/-! ### The loop and the line at the gate -/

/-- What the loop, the pinger and the watchdog see. -/
structure Loop where
  now : ℕ
  phase : Phase
  closed : Bool
  channel : List Job
  progress : ℕ
  ticked : ℕ
  stamped : ℕ

def World.loop (w : World) : Loop := ⟨w.now, w.phase, w.closed, w.channel, w.progress, w.ticked, w.stamped⟩

/-- The searches, by how far they have come. -/
structure Line where
  turns : List ℕ
  gate : List Job
  fresh : List Job
  searches : List ℕ
  received : List ℕ

def World.line (w : World) : Line := ⟨w.turns, w.gate, w.fresh, w.searches, w.received⟩

/-- What happens beside the loop. -/
def Event.aside : Event → Bool
  | .leave _ | .reach _ | .enter | .leaveGate .. | .tell .. | .quit .. => true
  | _ => false

theorem settle_loop (w : World) (n : ℕ) (r : Option Reply) : (w.settle n r).loop = w.loop := by cases r <;> rfl

theorem settle_line (w : World) (n : ℕ) (r : Option Reply) : (w.settle n r).line = w.line := by cases r <;> rfl

theorem clear_loop (w : World) (arm : Arm) : (w.clear arm).loop = w.loop := by cases arm <;> rfl

theorem clear_line (w : World) (arm : Arm) : (w.clear arm).line = w.line := by cases arm <;> rfl

/-- What a spawned command is left out of when it comes to its end. -/
theorem quit_frame {i : ℕ} {o : Outcome} (hw : w.quit hash i o = some w') : w'.loop = w.loop ∧ w'.line = w.line := by
  unfold World.quit at hw
  split at hw
  · next task htask =>
    split at hw
    · dsimp only at hw
      split at hw
      · obtain rfl := Option.some.inj hw
        exact ⟨clear_loop _ _, clear_line _ _⟩
      · split at hw
        · cases hw
        · obtain ⟨r, -, rfl⟩ := Option.map_eq_some_iff.mp hw
          exact ⟨(settle_loop _ _ r).trans (clear_loop _ _), (settle_line _ _ r).trans (clear_line _ _)⟩
    · cases hw
  · cases hw

theorem leaveGate_frame {i : ℕ} {o : Outcome} (hw : w.leaveGate hash i o = some w') :
    w'.loop = w.loop ∧ w'.line = w.line := by
  unfold World.leaveGate at hw
  split at hw
  · split at hw
    · obtain ⟨r, -, rfl⟩ := Option.map_eq_some_iff.mp hw
      exact ⟨settle_loop _ _ r, settle_line _ _ r⟩
    · cases hw
  · cases hw

theorem tell_frame {i : ℕ} {v : Value} (hw : w.tell i v = some w') : w'.loop = w.loop ∧ w'.line = w.line := by
  unfold World.tell at hw
  split at hw
  · split at hw
    · obtain rfl := Option.some.inj hw
      exact ⟨rfl, rfl⟩
    · cases hw
  · cases hw

/-- A search that gets in, or is passed over, was the first at the gate. -/
theorem enter_frame (hw : w.enter = some w') : w'.loop = w.loop ∧ ∃ job rest, w.gate = job :: rest ∧
    w'.line = ⟨w.turns ++ [job.ticket], rest, w.fresh, w.searches, w.received⟩ := by
  unfold World.enter at hw
  split at hw
  · next job rest hgate =>
    split at hw
    · cases hw
    · dsimp only at hw
      split at hw <;> obtain rfl := Option.some.inj hw
      · exact ⟨rfl, job, rest, hgate, rfl⟩
      · exact ⟨rfl, job, rest, hgate, rfl⟩
  · cases hw

theorem reach_frame {i : ℕ} (hw : w.reach i = some w') : w'.loop = w.loop ∧ ∃ job, w.fresh[i]? = some job ∧
    w'.line = ⟨w.turns, w.gate ++ [job], w.fresh.eraseIdx i, w.searches, w.received⟩ := by
  unfold World.reach at hw
  split at hw
  · next job hjob =>
    split at hw
    · obtain rfl := Option.some.inj hw
      exact ⟨rfl, job, hjob, rfl⟩
    · cases hw
  · cases hw

/-- **What happens beside the loop leaves the loop alone.** -/
theorem loop_aside {e : Event} (he : e.aside = true) (hstep : Step hash w e w') : w'.loop = w.loop := by
  cases e with
  | leave n =>
    change (if n < w.next then some { w with gone := n :: w.gone } else none) = some w' at hstep
    split at hstep
    · obtain rfl := Option.some.inj hstep
      rfl
    · cases hstep
  | reach i => exact (reach_frame hstep).1
  | enter => exact (enter_frame hstep).1
  | leaveGate i o => exact (leaveGate_frame hstep).1
  | tell i v => exact (tell_frame hstep).1
  | quit i o => exact (quit_frame hstep).1
  | pass _ | boot | send _ | tick | close | receive | complete _ | drain => cases he

/-! ### What the loop does -/

theorem boot_loop (hw : w.boot = some w') : w.phase = .booting ∧
    w'.loop = ⟨w.now, .idle, w.closed, w.channel, w.now / 1000 + 1, w.ticked, w.now⟩ ∧ w'.line = w.line := by
  unfold World.boot at hw
  split at hw
  · next hphase =>
    obtain rfl := Option.some.inj hw
    exact ⟨hphase, rfl, rfl⟩
  · cases hw

theorem drain_loop (hw : w.drain = some w') : w.phase = .idle ∧ w.channel = [] ∧
    w'.loop = ⟨w.now, .drained, w.closed, w.channel, w.progress, w.ticked, w.stamped⟩ ∧ w'.line = w.line := by
  unfold World.drain at hw
  split at hw
  · next hphase _ hchannel =>
    obtain rfl := Option.some.inj hw
    exact ⟨hphase, hchannel, rfl, rfl⟩
  · cases hw

/-- A command is sent, or the channel is closed or full. -/
theorem send_loop (w : World) (cmd : CmdInner) : (w.send cmd).line = w.line ∧
    (w.send cmd = w ∧ (w.phase.over = true ∨ w.channel.length = cmdChannelCap) ∨
      w.phase.over = false ∧
        (w.send cmd).loop = ⟨w.now, w.phase, w.closed, w.channel ++ [⟨w.next, cmd, w.now⟩], w.progress, w.ticked, w.stamped⟩) := by
  unfold World.send World.tryDispatch
  split
  · next hover => exact ⟨rfl, .inl ⟨rfl, .inl hover⟩⟩
  · next hover =>
    split
    · next hfull => exact ⟨rfl, .inl ⟨rfl, .inr hfull⟩⟩
    · exact ⟨rfl, .inr ⟨by simpa using hover, rfl⟩⟩

/-- A command picked up is held by the loop, or the loop is done with it at once. -/
theorem pickUp_loop (w : World) (job : Job) :
    (w.pickUp job).loop = ⟨w.now, .busy job, w.closed, w.channel, w.progress, w.ticked, w.stamped⟩ ∨
      (w.pickUp job).loop = ⟨w.now, w.phase, w.closed, w.channel, w.now / 1000 + 1, w.ticked, w.now⟩ := by
  unfold World.pickUp
  split
  · exact .inr rfl
  · exact .inl rfl
  · split <;> exact .inr rfl
  · exact .inr rfl
  · split <;> exact .inr rfl

theorem pickUp_line (w : World) (job : Job) : (w.pickUp job).line = w.line ∨
    (w.pickUp job).line = ⟨w.turns, w.gate, w.fresh ++ [job], w.searches ++ [job.ticket], w.received⟩ := by
  unfold World.pickUp
  split
  · exact .inl rfl
  · exact .inl rfl
  · split
    · exact .inl rfl
    · exact .inr rfl
  · exact .inl rfl
  · split <;> exact .inl rfl

/-- **The loop receives** the oldest command of its channel, while it awaits nothing. -/
theorem receive_loop (hw : w.receive = some w') : ∃ job rest, w.phase = .idle ∧ w.channel = job :: rest ∧
    w' = ({ w with channel := rest, received := w.received ++ [job.ticket] }.pickUp { job with since := w.now }) := by
  unfold World.receive at hw
  split at hw
  · next job rest hphase hchannel =>
    obtain rfl := Option.some.inj hw
    exact ⟨job, rest, hphase, hchannel, rfl⟩
  · cases hw

/-- The handler that the loop awaits comes to its end. -/
theorem complete_loop {o : Outcome} (hw : w.complete hash o = some w') : ∃ job, w.phase = .busy job ∧ w'.line = w.line ∧
    (w'.loop = ⟨w.now, .crashed, w.closed, w.channel, w.progress, w.ticked, w.stamped⟩ ∨
      w'.loop = ⟨w.now, .idle, w.closed, w.channel, w.now / 1000 + 1, w.ticked, w.now⟩) := by
  unfold World.complete at hw
  split at hw
  · next job hphase =>
    obtain rfl := Option.some.inj hw
    exact ⟨job, hphase, rfl, .inl rfl⟩
  · next _ job hphase _ =>
    obtain ⟨r, -, rfl⟩ := Option.map_eq_some_iff.mp hw
    cases r with
    | none => exact ⟨job, hphase, rfl, .inr rfl⟩
    | some r => exact ⟨job, hphase, rfl, .inr rfl⟩
  · cases hw

/-- A loop that has ended in order has left nothing in the channel. -/
def DrainsAll (w : World) : Prop := w.phase = .drained → w.channel = []

theorem drainsAll_of_loop (h : DrainsAll w) (hloop : w'.loop = w.loop) : DrainsAll w' := by
  have hphase : w'.phase = w.phase := congrArg Loop.phase hloop
  have hchannel : w'.channel = w.channel := congrArg Loop.channel hloop
  unfold DrainsAll
  rw [hphase, hchannel]
  exact h

theorem drainsAll_of_ne (h : w.phase ≠ .drained) : DrainsAll w := fun hphase => absurd hphase h

theorem drainsAll_send (h : DrainsAll w) (cmd : CmdInner) : DrainsAll (w.send cmd) := by
  rcases (send_loop w cmd).2 with ⟨hsame, -⟩ | ⟨hover, hloop⟩
  · rwa [hsame]
  · refine drainsAll_of_ne fun hphase => ?_
    have : w.phase = .drained := (congrArg Loop.phase hloop).symm.trans hphase
    rw [this] at hover
    cases hover

theorem drainsAll_step {e : Event} (h : DrainsAll w) (hstep : Step hash w e w') : DrainsAll w' := by
  by_cases he : e.aside = true
  · exact drainsAll_of_loop h (loop_aside he hstep)
  · cases e with
    | pass d =>
      obtain rfl := Option.some.inj hstep
      exact h
    | boot =>
      have hphase : w'.phase = .idle := congrArg Loop.phase (boot_loop hstep).2.1
      exact drainsAll_of_ne (hphase ▸ nofun)
    | send cmd =>
      change (if w.closed then none else some (w.send cmd)) = some w' at hstep
      split at hstep
      · cases hstep
      · obtain rfl := Option.some.inj hstep
        exact drainsAll_send h cmd
    | tick =>
      change (if w.closed then none else some { w.send .ping with ticked := w.now }) = some w' at hstep
      split at hstep
      · cases hstep
      · obtain rfl := Option.some.inj hstep
        exact drainsAll_send h .ping
    | receive =>
      obtain ⟨job, rest, hphase, -, rfl⟩ := receive_loop hstep
      rcases pickUp_loop { w with channel := rest, received := w.received ++ [job.ticket] }
        { job with since := w.now } with hloop | hloop
      · exact drainsAll_of_ne ((congrArg Loop.phase hloop).trans_ne nofun)
      · exact drainsAll_of_ne (((congrArg Loop.phase hloop).trans hphase).trans_ne nofun)
    | complete o =>
      obtain ⟨job, -, -, hloop | hloop⟩ := complete_loop hstep
      · exact drainsAll_of_ne ((congrArg Loop.phase hloop).trans_ne nofun)
      · exact drainsAll_of_ne ((congrArg Loop.phase hloop).trans_ne nofun)
    | drain =>
      obtain ⟨-, hchannel, hloop, -⟩ := drain_loop hstep
      exact fun _ => (congrArg Loop.channel hloop).trans hchannel
    | close =>
      obtain rfl := Option.some.inj hstep
      exact h
    | leave _ | reach _ | enter | leaveGate _ _ | tell _ _ | quit _ _ => exact absurd rfl he

/-- The searches had their turns, are at the gate and on their way to it in the order in which they were received. -/
structure InTurn (line : Line) : Prop where
  queue : line.turns ++ tickets line.gate ++ tickets line.fresh = line.searches
  sublist : line.searches.Sublist line.received

theorem inTurn_step {e : Event} (he : ∀ i, e = .reach i → i = 0) (h : InTurn w.line) (hstep : Step hash w e w') :
    InTurn w'.line := by
  cases e with
  | pass d =>
    obtain rfl := Option.some.inj hstep
    exact h
  | boot => exact (boot_loop hstep).2.2 ▸ h
  | send cmd =>
    change (if w.closed then none else some (w.send cmd)) = some w' at hstep
    split at hstep
    · cases hstep
    · obtain rfl := Option.some.inj hstep
      exact (send_loop w cmd).1 ▸ h
  | tick =>
    change (if w.closed then none else some { w.send .ping with ticked := w.now }) = some w' at hstep
    split at hstep
    · cases hstep
    · obtain rfl := Option.some.inj hstep
      change InTurn (w.send .ping).line
      exact (send_loop w .ping).1 ▸ h
  | leave n =>
    change (if n < w.next then some { w with gone := n :: w.gone } else none) = some w' at hstep
    split at hstep
    · obtain rfl := Option.some.inj hstep
      exact h
    · cases hstep
  | close =>
    obtain rfl := Option.some.inj hstep
    exact h
  | receive =>
    obtain ⟨job, rest, -, -, rfl⟩ := receive_loop hstep
    rcases pickUp_line { w with channel := rest, received := w.received ++ [job.ticket] }
      { job with since := w.now } with hline | hline <;> rw [hline]
    · exact ⟨h.queue, h.sublist.trans (List.sublist_append_left _ _)⟩
    · refine ⟨?_, h.sublist.append_right _⟩
      change w.turns ++ tickets w.gate ++ tickets (w.fresh ++ [_]) = w.searches ++ [job.ticket]
      have hqueue : w.turns ++ tickets w.gate ++ tickets w.fresh = w.searches := h.queue
      rw [tickets_append, ← List.append_assoc, hqueue]
      rfl
  | complete o =>
    obtain ⟨job, -, hline, -⟩ := complete_loop hstep
    exact hline ▸ h
  | reach i =>
    obtain rfl := he i rfl
    obtain ⟨-, job, hjob, hline⟩ := reach_frame hstep
    obtain ⟨rest, hfresh⟩ : ∃ rest, w.fresh = job :: rest := by
      cases hf : w.fresh with
      | nil => rw [hf] at hjob; cases hjob
      | cons a rest => rw [hf] at hjob; exact ⟨rest, by rw [Option.some.inj hjob]⟩
    have hqueue : w.turns ++ tickets w.gate ++ tickets w.fresh = w.searches := h.queue
    rw [hline]
    refine ⟨?_, h.sublist⟩
    change w.turns ++ tickets (w.gate ++ [job]) ++ tickets (w.fresh.eraseIdx 0) = w.searches
    rw [← hqueue, hfresh, tickets_append]
    simp [tickets]
  | enter =>
    obtain ⟨-, job, rest, hgate, hline⟩ := enter_frame hstep
    have hqueue : w.turns ++ tickets w.gate ++ tickets w.fresh = w.searches := h.queue
    rw [hline]
    refine ⟨?_, h.sublist⟩
    change w.turns ++ [job.ticket] ++ tickets rest ++ tickets w.fresh = w.searches
    rw [← hqueue, hgate, tickets_cons]
    simp
  | leaveGate i o => exact (leaveGate_frame hstep).2 ▸ h
  | tell i v => exact (tell_frame hstep).2 ▸ h
  | quit i o => exact (quit_frame hstep).2 ▸ h
  | drain => exact (drain_loop hstep).2.2.2 ▸ h

/-! ### Main results -/

/-- **Each command is served once.**  In every run each accepted command is in exactly one place; the commands are received
in the order in which they were accepted; no handler is begun twice and no reply sent twice; a refused command is never
begun; a command that ends without a reply panicked, or is a search whose caller had gone and that was not begun; and a loop
that ends in order has received every command.  What is still waiting or running then goes down with the loop, and has no
end. -/
theorem served_once (h : Run (Step hash) (.start t₀) tr w) :
    w.places.Perm (List.range w.next) ∧ w.received ++ tickets w.channel = List.range w.next ∧
    w.began.Nodup ∧ (w.answers.map Prod.fst).Nodup ∧
    (∀ n r, (n, r) ∈ w.answers → r.refuses = true → n ∉ w.began) ∧
    (∀ n e, (n, e) ∈ w.ended → n ∉ w.answers.map Prod.fst →
      e = .ran false ∨ e = .skipped ∧ n ∈ w.gone ∧ n ∉ w.began) ∧
    (w.phase = .drained → w.received = List.range w.next) := by
  have hcustody := custody_run h
  have hdrains : DrainsAll w := h.preserves _ (drainsAll_of_ne (by intro h; cases h)) fun _ _ _ hw hstep =>
    drainsAll_step hw hstep
  refine ⟨hcustody.perm_places, hcustody.received, hcustody.nodup_began, hcustody.nodup_answers,
    fun n r => hcustody.not_began_of_refused, fun n e => hcustody.unanswered, fun hphase => ?_⟩
  have hreceived := hcustody.received
  rw [hdrains hphase] at hreceived
  simpa [tickets] using hreceived

/-- **The bounds of the worker.**  In every run at most one search runs and at most `searchBacklogMax` are outstanding, a
free slot or permit being one that no search has; the channel holds no more than its capacity; at most one pass of a kind
runs, and its flag is set exactly while it does; and where the runtime polls new tasks in the order in which they were
spawned, the searches have their turns in the order in which they were received. -/
theorem worker_bounds (h : Run (Step hash) (.start t₀) tr w) :
    (w.running.length + w.permits = searchConcurrency ∧
      w.fresh.length + w.gate.length + w.running.length + w.slots = searchBacklogMax) ∧
    w.channel.length ≤ cmdChannelCap ∧
    (∀ f, flying f w.tasks ≤ 1 ∧ (w.flights f = true ↔ ∃ task ∈ w.tasks, task.job.cmd.arm = .flight f)) ∧
    ((∀ i, .reach i ∈ tr → i = 0) →
      w.turns ++ tickets w.gate ++ tickets w.fresh = w.searches ∧ w.searches.Sublist w.received) := by
  have hbounded := bounded_run h
  have hslots := hbounded.slots
  have hpermits := hbounded.permits
  refine ⟨⟨by omega, by omega⟩, hbounded.channel, fun f => ?_, fun hfifo => ?_⟩
  · have hflight := hbounded.flight f
    have hpos : 0 < flying f w.tasks ↔ ∃ task ∈ w.tasks, task.job.cmd.arm = .flight f := by
      simp [flying, List.countP_pos_iff]
    rw [← hpos, hflight]
    cases w.flights f <;> simp
  · have hturn : (∀ i, .reach i ∈ tr → i = 0) → InTurn w.line :=
      h.invariant (fun tr w => (∀ i, .reach i ∈ tr → i = 0) → InTurn w.line) (fun _ => ⟨rfl, List.Sublist.refl _⟩)
        fun tr w e w' _ ih hstep hfifo => inTurn_step (fun i hi => hfifo i (by simp [hi]))
          (ih fun i hi => hfifo i (List.mem_append_left _ hi)) hstep
    exact ⟨(hturn hfifo).queue, (hturn hfifo).sublist⟩

/-! ### A search that nobody waits for -/

namespace PassedOver

def request : SearchRequest where
  query := "q"
  mode := .hybrid
  page := 1
  pageSize := 10
  tags := none
  matchAll := false
  k := 10
  minSimilarity := none
  memoryType := none
  encodingContext := none
  includeSuperseded := false
  minTrustScore := none
  cursor := none

def search : CmdInner := .search request .full true none

/-- Two searches and a delete: the caller of the second search leaves while the first one runs. -/
def events : List Event :=
  [.boot, .send search, .send search, .send (.delete "h"), .receive, .reach 0, .enter, .receive, .leave 1, .reach 0,
    .receive, .complete (.made .null), .leaveGate 0 .panicked, .enter]

/-- The second search is passed over. -/
theorem run : ∃ w, Run (Step id) (.start 0) events w ∧ w.phase.over = false ∧ w.next = 3 ∧ (1, End.skipped) ∈ w.ended ∧
    1 ∉ w.answers.map Prod.fst ∧ w.turns = [0, 1] := by
  have hruns : ((events.foldlM (World.apply id) (.start 0)).map fun w => decide (w.phase.over = false ∧ w.next = 3 ∧
      (1, End.skipped) ∈ w.ended ∧ 1 ∉ w.answers.map Prod.fst ∧ w.turns = [0, 1])) = some true := by decide +kernel
  obtain ⟨w, hw, hends⟩ := Option.map_eq_some_iff.mp hruns
  exact ⟨w, run_of_foldlM (fun _ _ _ => id) hw, of_decide_eq_true hends⟩

theorem fifo : ∀ i, .reach i ∈ events → i = 0 := by simp [events]

end PassedOver

/-- What becomes of the three commands of that run. -/
theorem served_once_passedOver : ∃ w : World, w.turns = [0, 1] ∧ w.places.Perm [0, 1, 2] ∧ w.began.Nodup ∧ 1 ∉ w.began := by
  obtain ⟨w, hrun, -, hnext, hskipped, hno, hturns⟩ := PassedOver.run
  obtain ⟨hplaces, -, hbegan, -, -, hunanswered, -⟩ := served_once hrun
  rcases hunanswered 1 .skipped hskipped hno with hpanicked | ⟨-, -, hnot⟩
  · cases hpanicked
  · exact ⟨w, hturns, by rw [hnext] at hplaces; exact hplaces, hbegan, hnot⟩

/-- Both searches of that run had their turns in the order in which they were received. -/
theorem worker_bounds_passedOver : ∃ w : World, w.turns = [0, 1] ∧ w.running.length + w.permits = searchConcurrency ∧
    w.turns ++ tickets w.gate ++ tickets w.fresh = w.searches := by
  obtain ⟨w, hrun, -, -, -, -, hturns⟩ := PassedOver.run
  obtain ⟨⟨hpermits, -⟩, -, -, hturn⟩ := worker_bounds hrun
  exact ⟨w, hturns, hpermits, (hturn PassedOver.fifo).1⟩

end Alaya.Worker
