import Alaya.Bridge.Hebbian
import Alaya.Lib.Windows

/-!
# The consumer of the write queue

One task of the bridge takes the co-access pairs off the right end of the queue and runs a query for each, at most
`maxOpsPerSec` of them from the start of its window on.  Meanwhile the handlers push pairs and change the edges, at any
moment.  A pair that was taken off the queue is in the consumer's hand until its query is over; with that pair put back,
the bridge takes the steps of `Hebbian.Step`, where an item is drained at once.

A pair whose reply is lost on its way from Redis, or whose query fails, is not tried again.
-/

namespace Alaya.Queue

open Labelled Hebbian

/-- Times are in nanoseconds. -/
def second : ℕ := 1000000000

def maxOpsPerSec : ℕ := 100

/-- Where the consumer is in its loop. -/
inductive Phase where
  | top
  /-- It sleeps out the second. -/
  | throttled (wakeAt : ℕ)
  /-- In `BRPOP`. -/
  | waiting
  | executing (pair : CoAccessPair)
  /-- It sleeps after an error of `BRPOP`. -/
  | pausing (wakeAt : ℕ)

/-- The pair in the consumer's hand. -/
def Phase.hand : Phase → List CoAccessPair
  | .executing pair => [pair]
  | _ => []

/-- The consumer is past the rate limit of its iteration. -/
def Phase.admitted : Phase → Bool
  | .waiting | .executing _ => true
  | _ => false

/-- The bridge and its consumer, with the pairs taken off the queue, those whose query was begun, and the window and the
time of each query, the newest first. -/
structure World where
  graph : Hebbian
  now : ℕ
  opsThisSecond : ℕ
  secondStart : ℕ
  phase : Phase
  taken : List CoAccessPair
  asked : List CoAccessPair
  begun : List (ℕ × ℕ)

namespace World

/-- The consumer is spawned. -/
def start (graph : Hebbian) (now : ℕ) : World := ⟨graph, now, 0, now, .top, [], [], []⟩

/-- Another window starts. -/
def restart (w : World) : World := { w with opsThisSecond := 0, secondStart := w.now }

/-- Reset the counter each second. -/
def roll (w : World) : World := if second ≤ w.now - w.secondStart then w.restart else w

/-- On to `BRPOP`. -/
def await (w : World) : World := { w with phase := .waiting }

/-- The head of the loop, up to `BRPOP` or to the sleep of the rate limit. -/
def iterate (w : World) : World :=
  if maxOpsPerSec ≤ w.opsThisSecond then
    if w.now - w.secondStart < second then { w with phase := .throttled (w.now + (second - (w.now - w.secondStart))) }
    else w.restart.roll.await
  else w.roll.await

/-- `BRPOP` hands over an item, whose query is begun. -/
def pop (w : World) (queue : List CoAccessPair) (pair : CoAccessPair) : World :=
  { w with
    graph := { w.graph with queue }
    phase := .executing pair
    taken := pair :: w.taken
    asked := pair :: w.asked
    begun := (w.secondStart, w.now) :: w.begun }

/-- The queue with the pair in the consumer's hand put back. -/
def undrained (w : World) : Hebbian := { w.graph with queue := w.graph.queue ++ w.phase.hand }

end World

/-- What can happen.  Of a query the model knows whether it was executed, also where its reply was an error. -/
inductive Event where
  | tick (dt : ℕ)
  | iterate
  | wake
  | pop
  | popLost
  | popFails
  | timeout
  | resume
  | execute (executed : Bool)
  | other (op : Op)

/-- What an event is to the edges and the queue, once an item is drained at once. -/
def Event.op : Event → Option Op
  | .popLost => some (.drain false)
  | .execute executed => some (.drain executed)
  | .other op => some op
  | _ => none

/-- The pairs an event pushes, in the order of the pushes. -/
def Event.pushed : Event → List CoAccessPair
  | .other (.strengthen pairs pushed) => pairs.take pushed
  | _ => []

inductive Step : World → Event → World → Prop
  | tick {w : World} (dt : ℕ) : Step w (.tick dt) { w with now := w.now + dt }
  | iterate {w : World} : w.phase = .top → Step w .iterate w.iterate
  | wake {w : World} {wakeAt : ℕ} : w.phase = .throttled wakeAt → wakeAt ≤ w.now →
      Step w .wake w.restart.roll.await
  | pop {w : World} {queue : List CoAccessPair} {pair : CoAccessPair} : w.phase = .waiting →
      w.graph.queue = queue ++ [pair] → Step w .pop (w.pop queue pair)
  -- Redis has removed the item, but the connection breaks before the reply is there.
  | popLost {w : World} {queue : List CoAccessPair} {pair : CoAccessPair} : w.phase = .waiting →
      w.graph.queue = queue ++ [pair] →
      Step w .popLost { w with
        graph := { w.graph with queue }
        taken := pair :: w.taken
        phase := .pausing (w.now + second) }
  | popFails {w : World} : w.phase = .waiting → Step w .popFails { w with phase := .pausing (w.now + second) }
  | timeout {w : World} : w.phase = .waiting → Step w .timeout { w with phase := .top }
  | resume {w : World} {wakeAt : ℕ} : w.phase = .pausing wakeAt → wakeAt ≤ w.now → Step w .resume { w with phase := .top }
  | execute {w : World} {pair : CoAccessPair} (executed : Bool) : w.phase = .executing pair →
      Step w (.execute executed) { w with
        graph := if executed then w.graph.applyPair pair else w.graph
        opsThisSecond := w.opsThisSecond + 1
        phase := .top }
  | other {w : World} {op : Op} {graph : Hebbian} : (∀ executed, op ≠ .drain executed) → Hebbian.Step w.graph op graph →
      Step w (.other op) { w with graph }

/-! ## The rate -/

/-- What the counter knows of the queries that were begun. -/
structure Paced (w : World) : Prop where
  spaced : Windows.Spaced second w.begun
  past : ∀ b ∈ w.begun, b.2 ≤ w.now
  started : w.secondStart ≤ w.now
  current : ∀ b ∈ w.begun, w.secondStart = b.1 ∨ b.1 + second ≤ w.secondStart ∧ b.2 ≤ w.secondStart
  few : ∀ s, (w.begun.filter fun b => b.1 = s).length ≤ maxOpsPerSec
  counted : (w.begun.filter fun b => b.1 = w.secondStart).length ≤ w.opsThisSecond + w.phase.hand.length
  full : w.opsThisSecond ≤ maxOpsPerSec
  room : w.phase.admitted = true → w.opsThisSecond < maxOpsPerSec
  throttle : ∀ wakeAt, w.phase = .throttled wakeAt → w.secondStart + second ≤ wakeAt

namespace Paced

variable {w : World}

theorem start (graph : Hebbian) (now : ℕ) : Paced (.start graph now) where
  spaced := ⟨nofun, .nil⟩
  past := nofun
  started := le_rfl
  current := nofun
  few _ := Nat.zero_le _
  counted := Nat.zero_le _
  full := Nat.zero_le _
  room := nofun
  throttle := nofun

/-- A phase that neither is past the rate limit nor sleeps for it. -/
theorem rephase (h : Paced w) {p : Phase} (hhand : w.phase.hand = []) (hroom : p.admitted = false)
    (hthrottle : ∀ wakeAt, p ≠ .throttled wakeAt) : Paced { w with phase := p } where
  spaced := h.spaced
  past := h.past
  started := h.started
  current := h.current
  few := h.few
  counted := by
    have hcounted := h.counted
    rw [hhand] at hcounted
    exact hcounted.trans (Nat.add_le_add_left (Nat.zero_le _) _)
  full := h.full
  room hp := absurd hp (by rw [hroom]; exact Bool.false_ne_true)
  throttle wakeAt hp := absurd hp (hthrottle wakeAt)

/-- **A window that is over** leaves none of its queries to the next one. -/
theorem restart (h : Paced w) (hover : w.secondStart + second ≤ w.now) : Paced w.restart.await where
  spaced := h.spaced
  past := h.past
  started := le_rfl
  current b hb := by
    right
    have hpast := h.past b hb
    rcases h.current b hb with heq | ⟨hle, -⟩
    · exact ⟨by change b.1 + second ≤ w.now; omega, hpast⟩
    · exact ⟨by change b.1 + second ≤ w.now; omega, hpast⟩
  few := h.few
  counted := by
    have hnone : (w.begun.filter fun b => b.1 = w.now) = [] := by
      refine List.filter_eq_nil_iff.mpr fun b hb heq => ?_
      have heq' : b.1 = w.now := of_decide_eq_true heq
      have hsecond : 0 < second := by decide
      rcases h.current b hb with hcur | ⟨hle, -⟩ <;> omega
    exact le_of_eq_of_le (congrArg List.length hnone) (Nat.zero_le _)
  full := Nat.zero_le _
  room _ := show 0 < maxOpsPerSec by decide
  throttle := nofun

/-- The consumer goes on to `BRPOP` in the window it is in. -/
theorem goOn (h : Paced w) (hhand : w.phase.hand = []) (hroom : w.opsThisSecond < maxOpsPerSec) :
    Paced w.await where
  spaced := h.spaced
  past := h.past
  started := h.started
  current := h.current
  few := h.few
  counted := by
    have hcounted := h.counted
    rw [hhand] at hcounted
    exact hcounted
  full := h.full
  room _ := hroom
  throttle := nofun

end Paced

@[simp] theorem roll_restart (w : World) : w.restart.roll = w.restart := by
  have hnot : ¬ second ≤ w.restart.now - w.restart.secondStart := by
    change ¬ second ≤ w.now - w.now
    rw [Nat.sub_self]
    decide
  exact if_neg hnot

theorem paced_iterate {w : World} (h : Paced w) (htop : w.phase = .top) : Paced w.iterate := by
  have hhand : w.phase.hand = [] := by rw [htop]; rfl
  have hstarted := h.started
  unfold World.iterate
  split_ifs with hfull hearly
  · have hthrottled := h.rephase (p := .top) hhand rfl nofun
    exact { hthrottled with
      room := nofun
      throttle := fun wakeAt hp => by
        obtain rfl : w.now + (second - (w.now - w.secondStart)) = wakeAt := Phase.throttled.inj hp
        change w.secondStart + second ≤ _
        omega }
  · rw [roll_restart]
    exact h.restart (by omega)
  · unfold World.roll
    split_ifs with hover
    · exact h.restart (by omega)
    · exact h.goOn hhand (not_le.mp hfull)

/-- A query is begun in a window that has room for it. -/
theorem paced_pop {w : World} (h : Paced w) (hwaiting : w.phase = .waiting) (queue : List CoAccessPair)
    (pair : CoAccessPair) : Paced (w.pop queue pair) := by
  have hroom : w.opsThisSecond < maxOpsPerSec := h.room (by rw [hwaiting]; rfl)
  have hcounted : (w.begun.filter fun b => b.1 = w.secondStart).length ≤ w.opsThisSecond := by
    have hcounted := h.counted
    rw [hwaiting] at hcounted
    exact hcounted
  have hself : (((w.secondStart, w.now) :: w.begun).filter fun b => b.1 = w.secondStart).length =
      (w.begun.filter fun b => b.1 = w.secondStart).length + 1 := by
    rw [List.filter_cons_of_pos (by exact decide_eq_true rfl), List.length_cons]
  refine ⟨⟨fun b hb => ?_, List.pairwise_cons.mpr ⟨h.current, h.spaced.apart⟩⟩, fun b hb => ?_, h.started, fun b hb => ?_,
    fun s => ?_, ?_, h.full, fun _ => hroom, nofun⟩
  · rcases List.mem_cons.mp hb with rfl | hb
    · exact h.started
    · exact h.spaced.within b hb
  · rcases List.mem_cons.mp hb with rfl | hb
    · exact le_rfl
    · exact h.past b hb
  · rcases List.mem_cons.mp hb with rfl | hb
    · exact .inl rfl
    · exact h.current b hb
  · change (((w.secondStart, w.now) :: w.begun).filter fun b => b.1 = s).length ≤ maxOpsPerSec
    by_cases hs : w.secondStart = s
    · rw [← hs, hself]
      omega
    · rw [List.filter_cons_of_neg (by simpa using hs)]
      exact h.few s
  · change (((w.secondStart, w.now) :: w.begun).filter fun b => b.1 = w.secondStart).length ≤ w.opsThisSecond + 1
    rw [hself]
    exact Nat.add_le_add_right hcounted 1

theorem paced_step {w w' : World} {e : Event} (h : Paced w) (hstep : Step w e w') : Paced w' := by
  cases hstep with
  | tick dt => exact { h with
      past := fun b hb => (h.past b hb).trans (Nat.le_add_right _ _)
      started := h.started.trans (Nat.le_add_right _ _) }
  | iterate htop => exact paced_iterate h htop
  | wake hphase hlate =>
    rw [roll_restart]
    exact h.restart ((h.throttle _ hphase).trans hlate)
  | pop hwaiting _ => exact paced_pop h hwaiting _ _
  | popLost hwaiting _ =>
    have hpaused := h.rephase (p := .pausing (w.now + second)) (by rw [hwaiting]; rfl) rfl nofun
    exact { hpaused with }
  | popFails hwaiting => exact h.rephase (by rw [hwaiting]; rfl) rfl nofun
  | timeout hwaiting => exact h.rephase (by rw [hwaiting]; rfl) rfl nofun
  | resume hphase _ => exact h.rephase (by rw [hphase]; rfl) rfl nofun
  | execute executed hphase =>
    have hroom : w.opsThisSecond < maxOpsPerSec := h.room (by rw [hphase]; rfl)
    have hcounted := h.counted
    rw [hphase] at hcounted
    exact { spaced := h.spaced, past := h.past, started := h.started, current := h.current, few := h.few
            counted := hcounted, full := hroom, room := nofun, throttle := nofun }
  | other _ _ => exact { h with }

/-! ## The order -/

/-- **What is on the queue, and what was taken off it**, after the pushes of a run. -/
structure InOrder (initial : List CoAccessPair) (tr : List Event) (w : World) : Prop where
  order : (w.graph.queue ++ w.taken).reverse = initial.reverse ++ tr.flatMap Event.pushed
  asked : w.asked.Sublist w.taken
  all : Event.popLost ∉ tr → w.asked = w.taken

theorem queue_applyPair (h : Hebbian) (pair : CoAccessPair) : (h.applyPair pair).queue = h.queue := by
  unfold applyPair strengthenEdge
  split_ifs <;> rfl

/-- What another operation leaves of the queue. -/
theorem queue_other {h h' : Hebbian} {op : Op} (hop : ∀ executed, op ≠ .drain executed) (hstep : Hebbian.Step h op h') :
    h'.queue = (Event.other op).pushed.reverse ++ h.queue := by
  cases hstep with
  | drain executed _ => exact absurd rfl (hop executed)
  | strengthen pushed _ => rfl
  | ensureNode _ | decayAll _ _ | decayStale _ _ | prune _ => rfl

theorem queue_roll (w : World) : w.roll.graph = w.graph ∧ w.roll.taken = w.taken ∧ w.roll.asked = w.asked := by
  unfold World.roll
  split_ifs <;> exact ⟨rfl, rfl, rfl⟩

theorem queue_iterate (w : World) : w.iterate.graph = w.graph ∧ w.iterate.taken = w.taken ∧ w.iterate.asked = w.asked ∧
    w.iterate.phase.hand = [] := by
  obtain ⟨hgraph, htaken, hasked⟩ := queue_roll w
  unfold World.iterate
  rw [roll_restart]
  split_ifs
  · exact ⟨rfl, rfl, rfl, rfl⟩
  · exact ⟨rfl, rfl, rfl, rfl⟩
  · exact ⟨hgraph, htaken, hasked, rfl⟩

theorem inOrder_step {initial : List CoAccessPair} {tr : List Event} {w w' : World} {e : Event}
    (h : InOrder initial tr w) (hstep : Step w e w') : InOrder initial (tr ++ [e]) w' := by
  have hbefore : Event.popLost ∉ tr ++ [e] → Event.popLost ∉ tr := fun hno hin => hno (List.mem_append_left _ hin)
  -- A step that neither pushes nor takes.
  have hquiet : ∀ v : World, v.graph.queue = w.graph.queue → v.taken = w.taken → v.asked = w.asked → e.pushed = [] →
      InOrder initial (tr ++ [e]) v := by
    intro v hqueue htaken hasked hpushed
    refine ⟨?_, by rw [hasked, htaken]; exact h.asked, fun hno => by rw [hasked, htaken]; exact h.all (hbefore hno)⟩
    rw [hqueue, htaken, h.order, List.flatMap_append, List.flatMap_singleton, hpushed, List.append_nil]
  -- A step that takes the last item of the queue.
  have htake : ∀ {queue : List CoAccessPair} {pair : CoAccessPair}, w.graph.queue = queue ++ [pair] → e.pushed = [] →
      (queue ++ pair :: w.taken).reverse = initial.reverse ++ (tr ++ [e]).flatMap Event.pushed := by
    intro queue pair hqueue hpushed
    have horder := h.order
    rw [hqueue, List.append_assoc, List.singleton_append] at horder
    rw [horder, List.flatMap_append, List.flatMap_singleton, hpushed, List.append_nil]
  cases hstep with
  | tick dt => exact hquiet _ rfl rfl rfl rfl
  | iterate _ =>
    obtain ⟨hgraph, htaken, hasked, -⟩ := queue_iterate w
    exact hquiet _ (congrArg _ hgraph) htaken hasked rfl
  | wake _ _ =>
    rw [roll_restart]
    exact hquiet _ rfl rfl rfl rfl
  | pop _ hqueue =>
    exact ⟨htake hqueue rfl, h.asked.cons_cons _, fun hno => congrArg _ (h.all (hbefore hno))⟩
  | popLost _ hqueue =>
    exact ⟨htake hqueue rfl, h.asked.cons _, fun hno => absurd (List.mem_append_right _ (List.mem_singleton_self _)) hno⟩
  | popFails _ => exact hquiet _ rfl rfl rfl rfl
  | timeout _ => exact hquiet _ rfl rfl rfl rfl
  | resume _ _ => exact hquiet _ rfl rfl rfl rfl
  | execute executed _ =>
    refine hquiet _ ?_ rfl rfl rfl
    cases executed with
    | false => rfl
    | true => exact queue_applyPair _ _
  | @other op graph hop hother =>
    refine ⟨?_, h.asked, fun hno => h.all (hbefore hno)⟩
    change (graph.queue ++ w.taken).reverse = _
    rw [queue_other hop hother, List.append_assoc, List.reverse_append, List.reverse_reverse, h.order,
      List.flatMap_append, List.flatMap_singleton, List.append_assoc]

/-! ## The refinement -/

/-- An operation of the handlers does not look at the right end of the queue. -/
theorem step_append {h h' : Hebbian} {op : Op} (hop : ∀ executed, op ≠ .drain executed) (hstep : Hebbian.Step h op h')
    (hand : List CoAccessPair) :
    Hebbian.Step { h with queue := h.queue ++ hand } op { h' with queue := h'.queue ++ hand } := by
  have hlimited : ∀ {matching : HebbianEdge → Prop} {lim : ℕ} {picked : Finset (String × String)},
      h.Limited matching lim picked → Limited { h with queue := h.queue ++ hand } matching lim picked :=
    fun hpicked => ⟨hpicked.le, hpicked.matched, hpicked.all⟩
  cases hstep with
  | drain executed _ => exact absurd rfl (hop executed)
  | ensureNode hash => exact .ensureNode hash
  | strengthen pushed hfew =>
    rw [List.append_assoc]
    exact .strengthen pushed hfew
  | decayAll decayFactor hpicked => exact .decayAll decayFactor (hlimited hpicked)
  | decayStale decayFactor hpicked => exact .decayStale decayFactor (hlimited hpicked)
  | prune hpicked => exact .prune (hlimited hpicked)

theorem undrained_idle {w : World} (hhand : w.phase.hand = []) : w.undrained = w.graph := by
  rw [World.undrained, hhand, List.append_nil]

/-- A step that leaves the graph and takes nothing in hand. -/
theorem undrained_eq {w w' : World} (hgraph : w'.graph = w.graph) (hhand : w.phase.hand = [])
    (hhand' : w'.phase.hand = []) : w'.undrained = w.undrained := by
  rw [undrained_idle hhand, undrained_idle hhand', hgraph]

/-- **A step of the bridge with its consumer** is a step on the edges and the queue, or none. -/
theorem undrained_step {w w' : World} {e : Event} (hstep : Step w e w') :
    (∀ op, e.op = some op → Hebbian.Step w.undrained op w'.undrained) ∧ (e.op = none → w'.undrained = w.undrained) := by
  cases hstep with
  | tick dt => exact ⟨nofun, fun _ => rfl⟩
  | iterate htop =>
    obtain ⟨hgraph, -, -, hhand⟩ := queue_iterate w
    exact ⟨nofun, fun _ => undrained_eq hgraph (by rw [htop]; rfl) hhand⟩
  | wake hphase _ =>
    rw [roll_restart]
    exact ⟨nofun, fun _ => undrained_eq rfl (by rw [hphase]; rfl) rfl⟩
  | @pop queue pair hwaiting hqueue =>
    refine ⟨nofun, fun _ => ?_⟩
    rw [World.undrained, World.undrained, hwaiting, hqueue]
    simp [World.pop, Phase.hand]
  | @popLost queue pair hwaiting hqueue =>
    refine ⟨fun op hop => ?_, nofun⟩
    obtain rfl := Option.some.inj hop
    have hidle : w.undrained = w.graph := undrained_idle (by rw [hwaiting]; rfl)
    rw [hidle, undrained_idle rfl]
    exact .drain false hqueue
  | popFails hwaiting => exact ⟨nofun, fun _ => undrained_eq rfl (by rw [hwaiting]; rfl) rfl⟩
  | timeout hwaiting => exact ⟨nofun, fun _ => undrained_eq rfl (by rw [hwaiting]; rfl) rfl⟩
  | resume hphase _ => exact ⟨nofun, fun _ => undrained_eq rfl (by rw [hphase]; rfl) rfl⟩
  | @execute pair executed hphase =>
    refine ⟨fun op hop => ?_, nofun⟩
    obtain rfl := Option.some.inj hop
    have hbefore : w.undrained.queue = w.graph.queue ++ [pair] := by rw [World.undrained, hphase]; rfl
    have hafter : ∀ graph ops, World.undrained { w with graph, opsThisSecond := ops, phase := .top } = graph :=
      fun _ _ => undrained_idle rfl
    rw [hafter]
    exact .drain executed hbefore
  | other hop hother =>
    refine ⟨fun op heq => ?_, nofun⟩
    obtain rfl := Option.some.inj heq
    exact step_append hop hother _

/-! ## Runs -/

/-- **The queue is consumed in order, once and at its rate**, whatever the handlers do meanwhile.  In any time the
consumer begins at most as many queries as the windows in it hold; what is on the queue and what was taken off it are the
pairs that were pushed, in their order; a query is begun for what was taken, once and in that order, and for all of it
unless a reply of Redis was lost; and with the pair in the consumer's hand put back the run is one of `Hebbian.Step`. -/
theorem queue_consumed {graph : Hebbian} {now : ℕ} {tr : List Event} {w : World}
    (hrun : Run Step (.start graph now) tr w) :
    (∀ t span, (w.begun.filter fun b => t ≤ b.2 ∧ b.2 ≤ t + span).length ≤ maxOpsPerSec * (span / second + 2)) ∧
    (w.graph.queue ++ w.taken).reverse = graph.queue.reverse ++ tr.flatMap Event.pushed ∧
    w.asked.Sublist w.taken ∧ (Event.popLost ∉ tr → w.asked = w.taken) ∧
    Run Hebbian.Step graph (tr.filterMap Event.op) w.undrained := by
  have hpaced : Paced w := hrun.preserves Paced (Paced.start graph now) fun _ _ _ h hstep => paced_step h hstep
  have hstart : InOrder graph.queue [] (.start graph now) := ⟨by simp [World.start], .slnil, fun _ => rfl⟩
  have horder := hrun.invariant (InOrder graph.queue) hstart fun _ _ _ _ _ h hstep => inOrder_step h hstep
  have hrefines := hrun.project World.undrained Event.op (fun _ _ _ _ op _ hstep hop => (undrained_step hstep).1 op hop)
    (fun _ _ _ _ _ hstep hop => (undrained_step hstep).2 hop)
  rw [undrained_idle (rfl : (World.start graph now).phase.hand = [])] at hrefines
  exact ⟨Windows.count_le hpaced.spaced (by decide) hpaced.few, horder.order, horder.asked, horder.all, hrefines⟩

/-- A query that fails. -/
def failedOp : List Event := [.iterate, .pop, .execute false]

/-- After `n` queries of one pair that failed, all of them within the window. -/
def World.afterFailed (w : World) (n : ℕ) (queue : List CoAccessPair) : World :=
  { w with
    graph := { w.graph with queue }
    opsThisSecond := w.opsThisSecond + n
    taken := List.replicate n coAccess ++ w.taken
    asked := List.replicate n coAccess ++ w.asked
    begun := List.replicate n (w.secondStart, w.now) ++ w.begun }

/-- By induction on the queries: the first one leaves a world that has the others to come. -/
theorem run_failed (n : ℕ) {w : World} {queue : List CoAccessPair} (htop : w.phase = .top)
    (hqueue : w.graph.queue = queue ++ List.replicate n coAccess) (hroom : w.opsThisSecond + n ≤ maxOpsPerSec)
    (hearly : w.now - w.secondStart < second) :
    Run Step w (List.replicate n failedOp).flatten (w.afterFailed n queue) := by
  induction n generalizing w with
  | zero =>
    obtain ⟨⟨nodes, edges, queue'⟩, now, ops, secondStart, phase, taken, asked, begun⟩ := w
    obtain rfl : queue' = queue := by simpa using hqueue
    exact .start
  | succ n ih =>
    have hiterate : w.iterate = w.await := by
      unfold World.iterate World.roll
      rw [if_neg (by omega), if_neg (by omega)]
    have hlast : w.graph.queue = (queue ++ List.replicate n coAccess) ++ [coAccess] := by
      rw [hqueue, List.replicate_succ', List.append_assoc]
    have hop : Run Step w failedOp { w.await.pop (queue ++ List.replicate n coAccess) coAccess with
        opsThisSecond := w.opsThisSecond + 1
        phase := .top } :=
      ((hiterate ▸ Run.single (Step.iterate htop)).step (.pop rfl hlast)).step (.execute false rfl)
    have hmore : ∀ {α : Type} (a : α) (l : List α), List.replicate n a ++ a :: l = List.replicate (n + 1) a ++ l := by
      intro α a l
      rw [List.replicate_succ', List.append_assoc]
      rfl
    have hafter : World.afterFailed { w.await.pop (queue ++ List.replicate n coAccess) coAccess with
        opsThisSecond := w.opsThisSecond + 1
        phase := .top } n queue = w.afterFailed (n + 1) queue := by
      simp only [World.afterFailed, World.pop, World.await, hmore, htop, Nat.add_assoc, Nat.add_comm 1 n]
    rw [List.replicate_succ, List.flatten_cons, ← hafter]
    exact hop.append (ih rfl rfl (by show w.opsThisSecond + 1 + n ≤ _; omega) hearly)

/-- Two pairs behind as many as a window takes. -/
def crowded : Hebbian := { apart with queue := [coAccess, coAccess] ++ List.replicate maxOpsPerSec coAccess }

/-- The consumer sleeps; a handler pushes a pair; the reply for the next pair is lost; and the query of the one behind it
is executed. -/
def woken : List Event :=
  [.iterate, .other (.strengthen [coAccess] 1), .tick second, .wake, .popLost, .tick second, .resume, .iterate, .pop,
    .execute true]

/-- So after as many failed queries as the window takes. -/
def throttled : List Event := (List.replicate maxOpsPerSec failedOp).flatten ++ woken

theorem run_throttled : ∃ w, Run Step (.start crowded 0) throttled w ∧ w.phase = .top ∧ w.graph.queue = [coAccess] ∧
    w.taken.length = 102 ∧ w.asked.length = 101 ∧
    w.begun = (2 * second, 2 * second) :: List.replicate maxOpsPerSec (0, 0) := by
  have hfailed := @run_failed maxOpsPerSec (.start crowded 0) [coAccess, coAccess] rfl rfl (by decide) (by decide)
  have hslept := ((Run.single (Step.iterate (w := (World.start crowded 0).afterFailed maxOpsPerSec
    [coAccess, coAccess]) rfl)).step (@Step.other _ (.strengthen [coAccess] 1) _ nofun (.strengthen 1 (by decide)))).step
    (.tick second)
  have hlost := (hslept.step (@Step.wake _ second rfl (by decide))).step
    (@Step.popLost _ [coAccess, coAccess] coAccess rfl rfl)
  have hbegun := (((hlost.step (.tick second)).step (@Step.resume _ (2 * second) rfl (by decide))).step
    (.iterate rfl)).step (@Step.pop _ [coAccess] coAccess rfl rfl)
  exact ⟨_, hfailed.append (hbegun.step (.execute true rfl)), rfl, rfl, rfl, rfl, rfl⟩

/-- One pair is pushed in that run. -/
theorem pushed_throttled : throttled.flatMap Event.pushed = [coAccess] := by
  have hquiet : (List.replicate maxOpsPerSec failedOp).flatten.flatMap Event.pushed = [] := by
    refine List.flatMap_eq_nil_iff.mpr fun e he => ?_
    obtain ⟨l, hl, he⟩ := List.mem_flatten.mp he
    obtain rfl := List.eq_of_mem_replicate hl
    rcases List.mem_cons.mp he with rfl | he
    · rfl
    · rcases List.mem_cons.mp he with rfl | he
      · rfl
      · obtain rfl := List.mem_singleton.mp he
        rfl
  rw [throttled, List.flatMap_append, hquiet]
  rfl

/-- The window bounds what was begun; one pair was taken for nothing, and the rest is a run on the edges and the
queue. -/
theorem queue_consumed_throttled : ∃ w, Run Step (.start crowded 0) throttled w ∧
    w.taken.length = 102 ∧ w.asked.length = 101 ∧ w.asked.Sublist w.taken ∧
    (∀ t span, (w.begun.filter fun b => t ≤ b.2 ∧ b.2 ≤ t + span).length ≤ maxOpsPerSec * (span / second + 2)) ∧
    (w.begun.filter fun b => 0 ≤ b.2 ∧ b.2 ≤ 0 + second).length = maxOpsPerSec ∧
    ([coAccess] ++ w.taken).reverse = crowded.queue.reverse ++ [coAccess] ∧
    Run Hebbian.Step crowded (throttled.filterMap Event.op) w.graph := by
  obtain ⟨w, hrun, htop, hqueue, htaken, hasked, hbegun⟩ := run_throttled
  obtain ⟨hrate, horder, hsublist, -, hrefines⟩ := queue_consumed hrun
  have hidle : w.undrained = w.graph := undrained_idle (by rw [htop]; rfl)
  rw [hqueue, pushed_throttled] at horder
  refine ⟨w, hrun, htaken, hasked, hsublist, hrate, ?_, horder, hidle ▸ hrefines⟩
  rw [hbegun]
  decide

end Alaya.Queue
