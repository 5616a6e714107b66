import Alaya.Server.Custody

/-!
# The watchdog of the loop

The health routes do not go through the loop.  They read when the loop was last done with a command, which a pinger keeps
fresh while nobody else sends one, and answer 503 once that is too long ago, so that the pod is restarted.  A loop whose
handlers are cut at their deadlines is never reported (`never_restarted`), one that hangs is (`hang_reported`).
-/

namespace Alaya.Worker

open Json Labelled

/-- In seconds. -/
def workerStallThreshold : ℕ := 180

def pingPeriod : ℕ := 30000

namespace World

variable (w : World)

/-- `worker_state`: its name, whether it is stalled, and how many seconds ago the loop was done with a command. -/
def workerState : String × Bool × ℕ :=
  if w.progress = 0 then ("starting", false, 0)
  else
    let age := w.now / 1000 + 1 - w.progress
    let stalled := decide (workerStallThreshold < age)
    (if stalled then "stalled" else "ok", stalled, age)

end World

def statusFrom (workerStalled qdrantOk : Bool) : String :=
  if workerStalled then "unhealthy" else if qdrantOk then "healthy" else "degraded"

/-- The bare probe: Qdrant's verdict is the one that the pinger last published. -/
def World.checkStatus (w : World) (qdrantOk : Bool) : Value :=
  .object [("status", .string (statusFrom w.workerState.2.1 qdrantOk))]

/-- The status of the detailed view. -/
def World.checkDetail (w : World) (qdrantOk embeddingOk selfcheckFailing : Bool) : Value :=
  let status := statusFrom w.workerState.2.1 qdrantOk
  .object [("status", .string (if (!embeddingOk || selfcheckFailing) && status = "healthy" then "degraded" else status))]

/-- The code of both surfaces. -/
def healthCode (health : Value) : ℕ :=
  if (memberOf "status" health).bind Value.asStr = some "unhealthy" then 503 else 200

/-- **The surfaces agree**: whatever the backends do, the code is that of the loop. -/
theorem healthCode_checkStatus (w : World) (qdrantOk : Bool) :
    healthCode (w.checkStatus qdrantOk) = if w.workerState.2.1 then 503 else 200 := by
  unfold World.checkStatus
  cases w.workerState.2.1 <;> cases qdrantOk <;> decide

theorem healthCode_checkDetail (w : World) (qdrantOk embeddingOk selfcheckFailing : Bool) :
    healthCode (w.checkDetail qdrantOk embeddingOk selfcheckFailing) = if w.workerState.2.1 then 503 else 200 := by
  unfold World.checkDetail
  cases w.workerState.2.1 <;> cases qdrantOk <;> cases embeddingOk <;> cases selfcheckFailing <;> decide

/-- No more time passes than the runtime lets: a handler that the loop awaits is cut, an idle loop receives and the pinger
ticks at most `lag` late. -/
structure Prompt (lag : ℕ) (w : World) (d : ℕ) : Prop where
  cut : ∀ job, w.phase = .busy job → w.now + d ≤ job.since + cmdDeadline + lag
  receive : ∀ job ∈ w.channel.head?, w.phase = .idle → w.now + d ≤ max job.since w.stamped + lag
  ping : w.closed = false → w.now + d ≤ w.ticked + pingPeriod + lag

/-- An event of a server that time does not outrun. -/
def Timed (hash : String → String) (lag : ℕ) (w : World) (e : Event) (w' : World) : Prop :=
  Step hash w e w' ∧ ∀ d, e = .pass d → Prompt lag w d

/-- **The heartbeat is fresh**: how long ago the loop was last done with a command. -/
structure Fresh (lag : ℕ) (loop : Loop) : Prop where
  ticked : loop.ticked ≤ loop.now
  tick : loop.now ≤ loop.ticked + pingPeriod + lag
  sent : ∀ job ∈ loop.channel, job.since ≤ loop.now
  /-- An idle loop with an empty channel has taken the last ping. -/
  quiet : loop.phase = .idle → loop.channel = [] → loop.ticked ≤ loop.stamped
  head : loop.phase = .idle → ∀ job ∈ loop.channel.head?, job.since ≤ loop.stamped + pingPeriod + lag
  idle : loop.phase = .idle → loop.now ≤ loop.stamped + pingPeriod + 2 * lag
  busy : ∀ job, loop.phase = .busy job →
    job.since ≤ loop.stamped + pingPeriod + 2 * lag ∧ loop.now ≤ job.since + cmdDeadline + lag

/-- The stamp of the heartbeat is that of its time. -/
def Stamped (loop : Loop) : Prop :=
  (loop.phase = .booting → loop.progress = 0) ∧ (loop.phase.serves = true → loop.progress = loop.stamped / 1000 + 1)

variable {hash : String → String} {lag t₀ : ℕ} {w w' : World} {loop : Loop} {tr : List Event}

namespace Fresh

/-- Time passes. -/
theorem pass {d : ℕ} (h : Fresh lag w.loop) (hclosed : w.closed = false) (hprompt : Prompt lag w d) :
    Fresh lag { w.loop with now := w.now + d } := by
  have htick := hprompt.ping hclosed
  refine ⟨h.ticked.trans (Nat.le_add_right _ _), htick, fun job hjob => (h.sent job hjob).trans (Nat.le_add_right _ _),
    h.quiet, h.head, fun hidle => ?_, fun job hbusy => ⟨(h.busy job hbusy).1, hprompt.cut job hbusy⟩⟩
  change w.now + d ≤ w.stamped + pingPeriod + 2 * lag
  cases hchannel : w.channel with
  | nil =>
    have hquiet : w.ticked ≤ w.stamped := h.quiet hidle hchannel
    omega
  | cons job rest =>
    have hhead : job.since ≤ w.stamped + pingPeriod + lag := h.head hidle job (by rw [World.loop, hchannel]; rfl)
    have hreceive := hprompt.receive job (by rw [hchannel]; rfl) hidle
    omega

/-- The loop is done with a command. -/
theorem done (h : Fresh lag loop) {phase : Phase} {progress : ℕ} {channel : List Job}
    (hsub : channel ⊆ loop.channel) (hphase : phase.hand = []) :
    Fresh lag ⟨loop.now, phase, loop.closed, channel, progress, loop.ticked, loop.now⟩ where
  ticked := h.ticked
  tick := h.tick
  sent job hjob := h.sent job (hsub hjob)
  quiet _ _ := h.ticked
  head _ job hjob := by
    have hsent : job.since ≤ loop.now := h.sent job (hsub (List.mem_of_mem_head? hjob))
    change job.since ≤ loop.now + pingPeriod + lag
    omega
  idle _ := by
    change loop.now ≤ loop.now + pingPeriod + 2 * lag
    omega
  busy job hbusy := by
    obtain rfl : phase = .busy job := hbusy
    cases hphase

/-- The loop goes from idle to a handler that it awaits. -/
theorem await (h : Fresh lag loop) (hidle : loop.phase = .idle) {job : Job} (hsince : job.since = loop.now)
    {channel : List Job} (hsub : channel ⊆ loop.channel) :
    Fresh lag ⟨loop.now, .busy job, loop.closed, channel, loop.progress, loop.ticked, loop.stamped⟩ where
  ticked := h.ticked
  tick := h.tick
  sent job hjob := h.sent job (hsub hjob)
  quiet hphase := nomatch hphase
  head hphase := nomatch hphase
  idle hphase := nomatch hphase
  busy job' hbusy := by
    obtain rfl := Phase.busy.inj hbusy
    have hnow := h.idle hidle
    exact ⟨hsince ▸ hnow, by change loop.now ≤ job.since + cmdDeadline + lag; omega⟩

/-- The loop has ended. -/
theorem ended (h : Fresh lag loop) {phase : Phase} (hover : phase.over = true) : Fresh lag { loop with phase } where
  ticked := h.ticked
  tick := h.tick
  sent := h.sent
  quiet hidle := by
    obtain rfl : phase = .idle := hidle
    cases hover
  head hidle := by
    obtain rfl : phase = .idle := hidle
    cases hover
  idle hidle := by
    obtain rfl : phase = .idle := hidle
    cases hover
  busy job hbusy := by
    obtain rfl : phase = .busy job := hbusy
    cases hover

/-- A command comes into the channel. -/
theorem accept (h : Fresh lag loop) {j : Job} (hsince : j.since = loop.now) :
    Fresh lag { loop with channel := loop.channel ++ [j] } where
  ticked := h.ticked
  tick := h.tick
  sent job' hjob := by
    rcases List.mem_append.mp hjob with hold | hnew
    · exact h.sent job' hold
    · obtain rfl := List.mem_singleton.mp hnew
      exact hsince.le
  quiet _ hnil := absurd hnil (by simp)
  head hidle job' hjob := by
    change job' ∈ (loop.channel ++ [j]).head? at hjob
    change job'.since ≤ loop.stamped + pingPeriod + lag
    cases hchannel : loop.channel with
    | nil =>
      -- The channel was empty, so the last ping has been taken and the next one is not due yet.
      rw [hchannel] at hjob
      obtain rfl := Option.some.inj hjob
      have hquiet := h.quiet hidle hchannel
      have htick := h.tick
      omega
    | cons first rest =>
      rw [hchannel] at hjob
      exact h.head hidle job' (by rw [hchannel]; exact hjob)
  idle := h.idle
  busy := h.busy

/-- The pinger ticks: its ping is in the channel, or other commands are. -/
theorem pinged (h : Fresh lag loop) (hchannel : loop.phase = .idle → loop.channel ≠ []) {t : ℕ} (ht : t = loop.now) :
    Fresh lag { loop with ticked := t } where
  ticked := ht.le
  tick := by
    change loop.now ≤ t + pingPeriod + lag
    omega
  sent := h.sent
  quiet hidle hnil := absurd hnil (hchannel hidle)
  head := h.head
  idle := h.idle
  busy := h.busy

theorem send (h : Fresh lag w.loop) (cmd : CmdInner) : Fresh lag (w.send cmd).loop := by
  rcases (send_loop w cmd).2 with ⟨hsame, -⟩ | ⟨-, hloop⟩
  · rwa [hsame]
  · rw [hloop]
    exact h.accept (j := ⟨w.next, cmd, w.now⟩) rfl

/-- How long ago a loop that serves was done with a command. -/
theorem age (h : Fresh lag loop) (hserves : loop.phase.serves = true) :
    loop.now ≤ loop.stamped + (pingPeriod + cmdDeadline) + 3 * lag := by
  cases hphase : loop.phase with
  | idle =>
    have hidle := h.idle hphase
    omega
  | busy job =>
    obtain ⟨hsince, hnow⟩ := h.busy job hphase
    omega
  | booting => rw [hphase] at hserves; cases hserves
  | drained => rw [hphase] at hserves; cases hserves
  | crashed => rw [hphase] at hserves; cases hserves

end Fresh

/-- After a send an idle loop has a command to receive. -/
theorem channel_send (w : World) (cmd : CmdInner) (hidle : (w.send cmd).phase = .idle) : (w.send cmd).channel ≠ [] := by
  rcases (send_loop w cmd).2 with ⟨hsame, hover | hfull⟩ | ⟨-, hloop⟩
  · rw [hsame] at hidle
    rw [hidle] at hover
    cases hover
  · rw [hsame]
    intro hnil
    rw [hnil] at hfull
    cases hfull
  · rw [show (w.send cmd).channel = w.channel ++ [⟨w.next, cmd, w.now⟩] from congrArg Loop.channel hloop]
    simp

theorem fresh_start (lag t₀ : ℕ) : Fresh lag (World.start t₀).loop := by
  have hloop : (World.start t₀).loop = ⟨t₀, .booting, false, [], 0, t₀, t₀⟩ := rfl
  rw [hloop]
  exact
    { ticked := le_rfl
      tick := (Nat.le_add_right t₀ pingPeriod).trans (Nat.le_add_right _ lag)
      sent := fun _ hjob => nomatch hjob
      quiet := fun h => nomatch h
      head := fun h => nomatch h
      idle := fun h => nomatch h
      busy := fun _ h => nomatch h }

theorem closed_send (w : World) (cmd : CmdInner) : (w.send cmd).closed = w.closed := by
  rcases (send_loop w cmd).2 with ⟨hsame, -⟩ | ⟨-, hloop⟩
  · rw [hsame]
  · exact congrArg Loop.closed hloop

/-- A closed channel is not opened again. -/
theorem closed_step {e : Event} (hstep : Step hash w e w') (hclosed : w'.closed = false) : w.closed = false := by
  by_cases he : e.aside = true
  · exact (congrArg Loop.closed (loop_aside he hstep)).symm.trans hclosed
  · cases e with
    | pass d =>
      obtain rfl := Option.some.inj hstep
      exact hclosed
    | boot => exact (congrArg Loop.closed (boot_loop hstep).2.1).symm.trans hclosed
    | send cmd =>
      change (if w.closed then none else some (w.send cmd)) = some w' at hstep
      split at hstep
      · cases hstep
      · obtain rfl := Option.some.inj hstep
        exact (closed_send w cmd).symm.trans hclosed
    | tick =>
      change (if w.closed then none else some { w.send .ping with ticked := w.now }) = some w' at hstep
      split at hstep
      · cases hstep
      · obtain rfl := Option.some.inj hstep
        exact (closed_send w .ping).symm.trans hclosed
    | receive =>
      obtain ⟨job, rest, -, -, rfl⟩ := receive_loop hstep
      rcases pickUp_loop { w with channel := rest, received := w.received ++ [job.ticket] }
        { job with since := w.now } with hloop | hloop
      · exact (congrArg Loop.closed hloop).symm.trans hclosed
      · exact (congrArg Loop.closed hloop).symm.trans hclosed
    | complete o =>
      obtain ⟨job, -, -, hloop | hloop⟩ := complete_loop hstep
      · exact (congrArg Loop.closed hloop).symm.trans hclosed
      · exact (congrArg Loop.closed hloop).symm.trans hclosed
    | close =>
      obtain rfl := Option.some.inj hstep
      cases hclosed
    | drain => exact (congrArg Loop.closed (drain_loop hstep).2.2.1).symm.trans hclosed
    | leave _ | reach _ | enter | leaveGate _ _ | tell _ _ | quit _ _ => exact absurd rfl he

/-- **An event keeps the heartbeat fresh**, as long as there are senders. -/
theorem fresh_step {e : Event} (h : Fresh lag w.loop) (hstep : Timed hash lag w e w') (hclosed : w'.closed = false) :
    Fresh lag w'.loop := by
  obtain ⟨hstep, hprompt⟩ := hstep
  by_cases he : e.aside = true
  · rwa [loop_aside he hstep]
  · cases e with
    | pass d =>
      obtain rfl := Option.some.inj hstep
      exact h.pass hclosed (hprompt d rfl)
    | boot =>
      rw [(boot_loop hstep).2.1]
      exact h.done (List.Subset.refl _) rfl
    | send cmd =>
      change (if w.closed then none else some (w.send cmd)) = some w' at hstep
      split at hstep
      · cases hstep
      · obtain rfl := Option.some.inj hstep
        exact h.send cmd
    | tick =>
      change (if w.closed then none else some { w.send .ping with ticked := w.now }) = some w' at hstep
      split at hstep
      · cases hstep
      · obtain rfl := Option.some.inj hstep
        refine (h.send .ping).pinged (channel_send w .ping) ?_
        rcases (send_loop w .ping).2 with ⟨hsame, -⟩ | ⟨-, hloop⟩
        · rw [hsame]
          rfl
        · rw [hloop]
    | receive =>
      obtain ⟨job, rest, hidle, hchannel, rfl⟩ := receive_loop hstep
      have hsub : rest ⊆ w.loop.channel := by
        change rest ⊆ w.channel
        rw [hchannel]
        exact List.subset_cons_self job rest
      rcases pickUp_loop { w with channel := rest, received := w.received ++ [job.ticket] }
        { job with since := w.now } with hloop | hloop
      · rw [hloop]
        exact h.await hidle rfl hsub
      · rw [hloop]
        exact h.done hsub (by rw [hidle]; rfl)
    | complete o =>
      obtain ⟨job, -, -, hloop | hloop⟩ := complete_loop hstep
      · rw [hloop]
        exact h.ended rfl
      · rw [hloop]
        exact h.done (List.Subset.refl _) rfl
    | close =>
      obtain rfl := Option.some.inj hstep
      cases hclosed
    | drain =>
      rw [(drain_loop hstep).2.2.1]
      exact h.ended rfl
    | leave _ | reach _ | enter | leaveGate _ _ | tell _ _ | quit _ _ => exact absurd rfl he

theorem stamped_step {e : Event} (h : Stamped w.loop) (hstep : Step hash w e w') : Stamped w'.loop := by
  by_cases he : e.aside = true
  · rwa [loop_aside he hstep]
  · cases e with
    | pass d =>
      obtain rfl := Option.some.inj hstep
      exact h
    | boot =>
      rw [(boot_loop hstep).2.1]
      exact ⟨nofun, fun _ => rfl⟩
    | send cmd =>
      change (if w.closed then none else some (w.send cmd)) = some w' at hstep
      split at hstep
      · cases hstep
      · obtain rfl := Option.some.inj hstep
        rcases (send_loop w cmd).2 with ⟨hsame, -⟩ | ⟨-, hloop⟩
        · rwa [hsame]
        · rw [hloop]
          exact h
    | tick =>
      change (if w.closed then none else some { w.send .ping with ticked := w.now }) = some w' at hstep
      split at hstep
      · cases hstep
      · obtain rfl := Option.some.inj hstep
        change Stamped { (w.send .ping).loop with ticked := w.now }
        rcases (send_loop w .ping).2 with ⟨hsame, -⟩ | ⟨-, hloop⟩
        · rw [hsame]
          exact h
        · rw [hloop]
          exact h
    | receive =>
      obtain ⟨job, rest, hidle, -, rfl⟩ := receive_loop hstep
      rcases pickUp_loop { w with channel := rest, received := w.received ++ [job.ticket] }
        { job with since := w.now } with hloop | hloop
      · rw [hloop]
        exact ⟨nofun, fun _ => h.2 (by change w.phase.serves = true; rw [hidle]; rfl)⟩
      · rw [hloop]
        exact ⟨fun hbooting => (nomatch hidle.symm.trans hbooting), fun _ => rfl⟩
    | complete o =>
      obtain ⟨job, -, -, hloop | hloop⟩ := complete_loop hstep
      · rw [hloop]
        exact ⟨nofun, nofun⟩
      · rw [hloop]
        exact ⟨nofun, fun _ => rfl⟩
    | close =>
      obtain rfl := Option.some.inj hstep
      exact h
    | drain =>
      rw [(drain_loop hstep).2.2.1]
      exact ⟨nofun, nofun⟩
    | leave _ | reach _ | enter | leaveGate _ _ | tell _ _ | quit _ _ => exact absurd rfl he

/-! ### Main results -/

theorem stamped_run (h : Run (Step hash) (.start t₀) tr w) : Stamped w.loop :=
  h.preserves (fun w => Stamped w.loop) ⟨fun _ => rfl, fun hserves => by cases hserves⟩ fun _ _ _ hw hstep => stamped_step hw hstep

theorem step_of_timed (h : Run (Timed hash lag) (.start t₀) tr w) : Run (Step hash) (.start t₀) tr w := by
  induction h with
  | start => exact .start
  | step _ hstep ih => exact ih.step hstep.1

/-- **A loop that drains is never reported.**  As long as the process has not gone down and there are senders, in every run
in which handlers are cut, commands received and pings sent no more than ten seconds late, both health surfaces answer 200:
the period of the pinger and the deadline of a handler together stay below the threshold. -/
theorem never_restarted (hlag : lag ≤ 10000) (h : Run (Timed hash lag) (.start t₀) tr w) (hclosed : w.closed = false)
    (hphase : w.phase.over = false) (qdrantOk embeddingOk selfcheckFailing : Bool) :
    healthCode (w.checkStatus qdrantOk) = 200 ∧
      healthCode (w.checkDetail qdrantOk embeddingOk selfcheckFailing) = 200 := by
  have hfresh : w.closed = false → Fresh lag w.loop :=
    h.preserves (fun w => w.closed = false → Fresh lag w.loop) (fun _ => fresh_start lag t₀) fun _ _ _ hw hstep hclosed =>
      fresh_step (hw (closed_step hstep.1 hclosed)) hstep hclosed
  have hfresh := hfresh hclosed
  have hstamped := stamped_run (step_of_timed h)
  have hok : w.workerState.2.1 = false := by
    unfold World.workerState
    split
    · rfl
    · next hprogress =>
      have hserves : w.phase.serves = true := by
        cases hp : w.phase with
        | booting => exact absurd (hstamped.1 hp) hprogress
        | idle => rfl
        | busy job => rfl
        | drained => rw [hp] at hphase; cases hphase
        | crashed => rw [hp] at hphase; cases hphase
      have hage : w.now ≤ w.stamped + (pingPeriod + cmdDeadline) + 3 * lag := hfresh.age hserves
      have hprogress : w.progress = w.stamped / 1000 + 1 := hstamped.2 hserves
      refine decide_eq_false ?_
      rw [hprogress]
      unfold pingPeriod cmdDeadline at hage
      unfold workerStallThreshold
      omega
  rw [healthCode_checkStatus, healthCode_checkDetail, hok]
  exact ⟨rfl, rfl⟩

/-- **A loop that hangs is reported.**  In every run, however time passes, once a loop that was entered has not been done
with a command for 181 seconds both health surfaces answer 503, whatever the backends do. -/
theorem hang_reported (h : Run (Step hash) (.start t₀) tr w) (hphase : w.phase.serves = true)
    (hhangs : w.stamped + 181000 ≤ w.now) (qdrantOk embeddingOk selfcheckFailing : Bool) :
    healthCode (w.checkStatus qdrantOk) = 503 ∧
      healthCode (w.checkDetail qdrantOk embeddingOk selfcheckFailing) = 503 := by
  have hprogress : w.progress = w.stamped / 1000 + 1 := (stamped_run h).2 hphase
  have hstalled : w.workerState.2.1 = true := by
    unfold World.workerState
    rw [if_neg (by rw [hprogress]; exact Nat.succ_ne_zero _)]
    refine decide_eq_true ?_
    rw [hprogress]
    unfold workerStallThreshold
    omega
  rw [healthCode_checkStatus, healthCode_checkDetail, hstalled]
  exact ⟨rfl, rfl⟩

/-! ### A long delete -/

namespace LongDelete

/-- What `Prompt` asks for, as it is checked. -/
def prompt (lag : ℕ) (w : World) (d : ℕ) : Bool :=
  w.phase.hand.all (fun job => w.now + d ≤ job.since + cmdDeadline + lag) &&
    (w.channel.head?.all fun job => !w.phase.hand.isEmpty || w.now + d ≤ max job.since w.stamped + lag) &&
    (w.closed || w.now + d ≤ w.ticked + pingPeriod + lag)

theorem prompt_of {lag : ℕ} {w : World} {d : ℕ} (h : prompt lag w d = true) : Prompt lag w d := by
  simp only [prompt, Bool.and_eq_true, Bool.or_eq_true, List.all_eq_true, Option.all_eq_true, decide_eq_true_eq] at h
  obtain ⟨⟨hcut, hreceive⟩, hping⟩ := h
  refine ⟨fun job hbusy => hcut job (by rw [hbusy]; exact List.mem_singleton_self job), fun job hjob hidle => ?_,
    fun hclosed => hping.resolve_left (by rw [hclosed]; exact Bool.false_ne_true)⟩
  exact (hreceive job hjob).resolve_left (by rw [hidle]; exact Bool.false_ne_true)

/-- An event that time does not outrun by more than a second. -/
def inTime (w : World) : Event → Bool
  | .pass d => prompt 1000 w d
  | _ => true

def next (w : World) (e : Event) : Option World := if inTime w e then w.apply id e else none

theorem timed_of_next {w w' : World} {e : Event} (h : next w e = some w') : Timed id 1000 w e w' := by
  unfold next at h
  by_cases htime : inTime w e = true
  · rw [if_pos htime] at h
    exact ⟨h, fun d hd => by subst hd; exact prompt_of htime⟩
  · rw [if_neg htime] at h
    cases h

/-- A delete comes just before a ping and runs for its whole deadline. -/
def events : List Event :=
  [.boot, .tick, .receive, .pass 30500, .send (.delete "h"), .receive, .tick, .pass 30500, .tick, .pass 30500, .tick,
    .pass 30000, .tick, .pass 29000]

theorem run : ∃ w, Run (Timed id 1000) (.start 0) events w ∧ w.closed = false ∧ w.phase.over = false ∧
    w.workerState = ("ok", false, 150) := by
  have hruns : ((events.foldlM next (.start 0)).map fun w => decide (w.closed = false ∧ w.phase.over = false ∧
      w.workerState = ("ok", false, 150))) = some true := by decide +kernel
  obtain ⟨w, hw, hends⟩ := Option.map_eq_some_iff.mp hruns
  exact ⟨w, run_of_foldlM (fun _ _ _ => timed_of_next) hw, of_decide_eq_true hends⟩

/-- The delete does not end. -/
theorem hangs : ∃ w, Run (Step id) (.start 0) [.boot, .send (.delete "h"), .receive, .pass 181000] w ∧
    w.phase.serves = true ∧ w.stamped + 181000 ≤ w.now := by
  have hruns : (([.boot, .send (.delete "h"), .receive, .pass 181000].foldlM (World.apply id) (.start 0)).map fun w =>
      decide (w.phase.serves = true ∧ w.stamped + 181000 ≤ w.now)) = some true := by decide +kernel
  obtain ⟨w, hw, hends⟩ := Option.map_eq_some_iff.mp hruns
  exact ⟨w, run_of_foldlM (fun _ _ _ => id) hw, of_decide_eq_true hends⟩

end LongDelete

/-- A delete that takes its whole deadline does not get the pod restarted. -/
theorem never_restarted_longDelete : ∃ w : World, w.workerState = ("ok", false, 150) ∧
    healthCode (w.checkStatus true) = 200 := by
  obtain ⟨w, hrun, hclosed, hover, hstate⟩ := LongDelete.run
  exact ⟨w, hstate, (never_restarted (by decide) hrun hclosed hover true true false).1⟩

/-- One that hangs does. -/
theorem hang_reported_longDelete : ∃ w : World, w.phase.serves = true ∧ healthCode (w.checkStatus true) = 503 := by
  obtain ⟨w, hrun, hserves, hhangs⟩ := LongDelete.hangs
  exact ⟨w, hserves, (hang_reported hrun hserves hhangs true true false).1⟩

end Alaya.Worker
