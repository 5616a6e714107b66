import Alaya.Core.Contradictions
import Alaya.Core.Judge
import Alaya.Lib.Run
import Mathlib.Data.List.Count

/-!
# The daily cap of the store path's judge

Every contradicted pair of a store asks `JudgeDailyCap` for a slot, and the task that holds the slot
bills the day's budget just before its call and gives the unit back when the call spent nothing.  Tasks
of all stores interleave, and every operation reads the clock itself; the clock does not go back.
-/

namespace Alaya

open Labelled

def u64Max : ℕ := 2 ^ 64 - 1

def secsPerDay : ℕ := 86400

/-- No reading falls in the day the counter starts with. -/
theorem day_lt {now : ℕ} (h : now ≤ u64Max) : now / secsPerDay < u64Max := by
  unfold u64Max secsPerDay at *
  omega

/-- The tasks of store paths that may be outstanding at once. -/
def judgeStoreBacklogMax : ℕ := 64

/-- The counter of a process. -/
structure JudgeDailyCap where
  cap : ℕ
  currentDay : ℕ
  count : ℕ
  warnedBudget : Bool
  warnedBacklog : Bool
  /-- The free permits of the semaphore. -/
  slots : ℕ
  deriving DecidableEq

namespace JudgeDailyCap

def new (cap : ℕ) : JudgeDailyCap where
  cap
  currentDay := u64Max
  count := 0
  warnedBudget := false
  warnedBacklog := false
  slots := judgeStoreBacklogMax

/-- Start a new day when a reading has crossed into one. -/
def rollDay (l : JudgeDailyCap) (now : ℕ) : JudgeDailyCap :=
  if l.currentDay ≠ now / secsPerDay then
    { l with currentDay := now / secsPerDay, count := 0, warnedBudget := false, warnedBacklog := false }
  else l

/-- Reserve a slot for one task.  The clock is read for a refusal only. -/
def trySlot (l : JudgeDailyCap) (now : ℕ) : Bool × JudgeDailyCap :=
  if 0 < l.slots then (true, { l with slots := l.slots - 1 })
  else (false, { l.rollDay now with warnedBacklog := true })

/-- Bill the day of a reading for one call; `none` is an overflow of the counter. -/
def tryAdmitAt (l : JudgeDailyCap) (now : ℕ) : Option (Option ℕ × JudgeDailyCap) :=
  let l := l.rollDay now
  if l.count < l.cap then
    (checkedAdd l.count 1).map fun count => (some (now / secsPerDay), { l with count })
  else some (none, { l with warnedBudget := true })

/-- The calls billed on the day of a reading. -/
def admittedOn (l : JudgeDailyCap) (now : ℕ) : ℕ :=
  if l.currentDay = now / secsPerDay then l.count else 0

/-- Give a unit back; `none` is a counter below zero. -/
def refund (l : JudgeDailyCap) (day : ℕ) : Option JudgeDailyCap :=
  if l.currentDay = day ∧ 0 < l.count then
    (Bridge.checkedSub l.count 1).map fun count => { l with count }
  else some l

section

variable (l : JudgeDailyCap) (now : ℕ)

@[simp] theorem currentDay_rollDay : (l.rollDay now).currentDay = now / secsPerDay := by
  unfold rollDay
  split
  · rfl
  · next h => exact not_not.mp h

/-- A new day starts with what was billed on it. -/
@[simp] theorem count_rollDay : (l.rollDay now).count = l.admittedOn now := by
  unfold rollDay admittedOn
  by_cases h : l.currentDay = now / secsPerDay
  · rw [if_neg (not_not.mpr h), if_pos h]
  · rw [if_pos h, if_neg h]

@[simp] theorem cap_rollDay : (l.rollDay now).cap = l.cap := by
  unfold rollDay
  split <;> rfl

@[simp] theorem slots_rollDay : (l.rollDay now).slots = l.slots := by
  unfold rollDay
  split <;> rfl

theorem admittedOn_of_ne {l : JudgeDailyCap} {now : ℕ} (h : l.currentDay ≠ now / secsPerDay) :
    l.admittedOn now = 0 := if_neg h

/-- Billing never overflows: the counter stays at most the cap. -/
theorem tryAdmitAt_eq {l : JudgeDailyCap} (hcap : l.cap < usizeSize) (now : ℕ) :
    l.tryAdmitAt now = some (if l.admittedOn now < l.cap then
      (some (now / secsPerDay), { l.rollDay now with count := l.admittedOn now + 1 })
      else (none, { l.rollDay now with warnedBudget := true })) := by
  unfold tryAdmitAt
  dsimp only
  rw [count_rollDay, cap_rollDay]
  split
  · next h =>
    rw [checkedAdd, if_pos (by omega), Option.map_some]
  · rfl

/-- A refund never takes the counter below zero. -/
theorem refund_eq (day : ℕ) : l.refund day = some (if l.currentDay = day then
    { l with count := l.count - 1 } else l) := by
  unfold refund Bridge.checkedSub
  by_cases hday : l.currentDay = day
  · rw [if_pos hday]
    by_cases hcount : 0 < l.count
    · rw [if_pos ⟨hday, hcount⟩, if_pos (by omega), Option.map_some]
    · rw [if_neg fun h => hcount h.2]
      have hzero : l.count - 1 = l.count := by omega
      rw [hzero]
  · rw [if_neg hday, if_neg fun h => hday h.1]

/-- **A refund frees no slot of another day.** -/
theorem refund_other {day now : ℕ} (hday : now / secsPerDay ≠ day) {l' : JudgeDailyCap}
    (h : l.refund day = some l') :
    l'.admittedOn now = l.admittedOn now ∧ l'.tryAdmitAt now = l.tryAdmitAt now := by
  rw [refund_eq] at h
  by_cases hcurrent : l.currentDay = day
  · have hne : l.currentDay ≠ now / secsPerDay := fun heq => hday (heq.symm.trans hcurrent)
    rw [if_pos hcurrent] at h
    obtain rfl := Option.some.inj h
    have hroll : ({ l with count := l.count - 1 } : JudgeDailyCap).rollDay now = l.rollDay now := by
      unfold rollDay
      rw [if_pos hne, if_pos hne]
    refine ⟨?_, ?_⟩
    · have hnone : ({ l with count := l.count - 1 } : JudgeDailyCap).admittedOn now = 0 := if_neg hne
      rw [hnone, admittedOn_of_ne hne]
    · unfold tryAdmitAt
      rw [hroll]
  · rw [if_neg hcurrent] at h
    obtain rfl := Option.some.inj h
    exact ⟨rfl, rfl⟩

/-- **A refusal for lack of a slot bills nothing**: neither on the day of its reading nor on a later
one. -/
theorem trySlot_admittedOn {l : JudgeDailyCap} {now later : ℕ} (hle : now ≤ later)
    (hday : l.currentDay ≤ now / secsPerDay ∨ l.currentDay = u64Max) (hlater : later ≤ u64Max) :
    (l.trySlot now).2.admittedOn later = l.admittedOn later := by
  have hdays : now / secsPerDay ≤ later / secsPerDay := Nat.div_le_div_right hle
  have hlast := day_lt hlater
  unfold trySlot
  split
  · rfl
  · show (if (l.rollDay now).currentDay = _ then (l.rollDay now).count else 0) = _
    rw [currentDay_rollDay, count_rollDay]
    by_cases hsame : now / secsPerDay = later / secsPerDay
    · rw [if_pos hsame]
      unfold admittedOn
      rw [hsame]
    · rw [if_neg hsame, admittedOn_of_ne]
      omega

end

end JudgeDailyCap

/-! ### The worker -/

/-- Whether a call may have been billed. -/
def JudgeOutcome.spent : JudgeOutcome → Bool
  | .judged .. => true
  | .unjudged _ spent => spent
  | .rateLimited _ => false

/-- A task that holds a slot: it waits for the gate, or its call was billed to a day. -/
inductive JudgeTask where
  | queued
  | judging (day : ℕ)
  deriving DecidableEq

/-- The counter, the tasks that hold a slot, and the last reading of the clock. -/
structure JudgeWorker where
  limiter : JudgeDailyCap
  tasks : List JudgeTask
  clock : ℕ
  deriving DecidableEq

/-- What happens next. -/
inductive JudgeEvent where
  /-- A store has a contradicted pair; its request for a slot reads `now` if it is refused. -/
  | store (now : ℕ)
  /-- A task passes the gate and asks for a unit of the day. -/
  | tryAdmit (i now : ℕ)
  /-- The gate of a task is closed. -/
  | gateClosed (i : ℕ)
  /-- The call of a task ends. -/
  | finish (i : ℕ) (outcome : JudgeOutcome)
  /-- A task is dropped where it stands. -/
  | drop (i : ℕ)
  /-- `GET /stats`. -/
  | stats (now : ℕ)

/-- What an event did. -/
inductive JudgeRecord where
  | slot (granted : Bool)
  | admitted (day : ℕ)
  | refused
  /-- A refund, and whether the counter was credited. -/
  | refunded (day : ℕ) (credited : Bool)
  | ended
  | answered (count : ℕ)
  /-- The counter wrapped. -/
  | overflow
  deriving DecidableEq

namespace JudgeWorker

def start (cap : ℕ) : JudgeWorker := ⟨.new cap, [], 0⟩

/-- A task ends and its slot is free again. -/
def endTask (w : JudgeWorker) (i : ℕ) : JudgeWorker :=
  { w with
    limiter := { w.limiter with slots := w.limiter.slots + 1 }
    tasks := w.tasks.eraseIdx i }

/-- A reading of the clock that does not go back. -/
def Reads (w : JudgeWorker) (now : ℕ) : Prop := w.clock ≤ now ∧ now ≤ u64Max

instance (w : JudgeWorker) (now : ℕ) : Decidable (w.Reads now) :=
  inferInstanceAs (Decidable (_ ∧ _))

/-- The unit of a call that ended is given back unless it was spent. -/
def settle (w : JudgeWorker) (i day : ℕ) (outcome : JudgeOutcome) : JudgeRecord × JudgeWorker :=
  if outcome.spent then (.ended, w.endTask i)
  else
    match w.limiter.refund day with
    | none => (.overflow, w)
    | some limiter =>
      (.refunded day (limiter.count < w.limiter.count), { w with limiter }.endTask i)

def step (w : JudgeWorker) : JudgeEvent → Option (JudgeRecord × JudgeWorker)
  | .store now =>
    if w.Reads now then
      match w.limiter.trySlot now with
      | (true, limiter) => some (.slot true, { w with limiter, tasks := w.tasks ++ [.queued] })
      | (false, limiter) => some (.slot false, { w with limiter, clock := now })
    else none
  | .tryAdmit i now =>
    if w.Reads now ∧ w.tasks[i]? = some .queued then
      match w.limiter.tryAdmitAt now with
      | none => some (.overflow, w)
      | some (some day, limiter) =>
        some (.admitted day, { limiter, tasks := w.tasks.set i (.judging day), clock := now })
      | some (none, limiter) => some (.refused, { w with limiter, clock := now }.endTask i)
    else none
  | .gateClosed i => if w.tasks[i]? = some .queued then some (.ended, w.endTask i) else none
  | .finish i outcome =>
    match w.tasks[i]? with
    | some (.judging day) => some (w.settle i day outcome)
    | _ => none
  | .drop i => if i < w.tasks.length then some (.ended, w.endTask i) else none
  | .stats now =>
    if w.Reads now then some (.answered (w.limiter.admittedOn now), { w with clock := now }) else none

end JudgeWorker

/-! ### What was billed -/

/-- The calls admitted on a day. -/
def admittedIn (day : ℕ) (tr : List JudgeRecord) : ℕ := tr.count (.admitted day)

/-- The units of a day that its counter was credited with. -/
def creditedIn (day : ℕ) (tr : List JudgeRecord) : ℕ := tr.count (.refunded day true)

/-- The counter agrees with what was admitted and refunded so far. -/
structure Billed (cap : ℕ) (tr : List JudgeRecord) (w : JudgeWorker) : Prop where
  cap_eq : w.limiter.cap = cap
  day_le : w.limiter.currentDay = u64Max ∨ w.limiter.currentDay ≤ w.clock / secsPerDay
  count_le : w.limiter.count ≤ cap
  today : admittedIn w.limiter.currentDay tr = creditedIn w.limiter.currentDay tr + w.limiter.count
  /-- Nothing was billed to a day that the counter has not reached. -/
  fresh : ∀ day, w.limiter.currentDay = u64Max ∨ w.limiter.currentDay < day →
    admittedIn day tr = 0 ∧ creditedIn day tr = 0
  within : ∀ day, admittedIn day tr ≤ cap + creditedIn day tr
  slots : w.limiter.slots + w.tasks.length = judgeStoreBacklogMax
  sound : .overflow ∉ tr

section

variable {cap now i : ℕ} {tr : List JudgeRecord} {w : JudgeWorker} {r : JudgeRecord}

theorem admittedIn_append (day : ℕ) :
    admittedIn day (tr ++ [r]) = admittedIn day tr + if r = .admitted day then 1 else 0 := by
  unfold admittedIn
  rw [List.count_append, List.count_singleton]
  simp

theorem creditedIn_append (day : ℕ) :
    creditedIn day (tr ++ [r]) = creditedIn day tr + if r = .refunded day true then 1 else 0 := by
  unfold creditedIn
  rw [List.count_append, List.count_singleton]
  simp

theorem billed_start (cap : ℕ) : Billed cap [] (.start cap) where
  cap_eq := rfl
  day_le := .inl rfl
  count_le := Nat.zero_le _
  today := rfl
  fresh _ _ := ⟨rfl, rfl⟩
  within _ := Nat.zero_le _
  slots := rfl
  sound := List.not_mem_nil

/-- A record that bills nothing. -/
theorem Billed.append (h : Billed cap tr w) (hadmitted : ∀ day, r ≠ .admitted day)
    (hrefunded : ∀ day, r ≠ .refunded day true) (hsound : r ≠ .overflow) : Billed cap (tr ++ [r]) w := by
  have hsame : ∀ day, admittedIn day (tr ++ [r]) = admittedIn day tr ∧
      creditedIn day (tr ++ [r]) = creditedIn day tr := by
    intro day
    rw [admittedIn_append, creditedIn_append, if_neg (hadmitted day), if_neg (hrefunded day)]
    exact ⟨rfl, rfl⟩
  constructor
  · exact h.cap_eq
  · exact h.day_le
  · exact h.count_le
  · rw [(hsame _).1, (hsame _).2]
    exact h.today
  · intro day hday
    rw [(hsame day).1, (hsame day).2]
    exact h.fresh day hday
  · intro day
    rw [(hsame day).1, (hsame day).2]
    exact h.within day
  · exact h.slots
  · simpa using ⟨h.sound, hsound.symm⟩

/-- The counter at a reading: it moves to the day of the reading, which nothing was billed to unless
it was there. -/
theorem Billed.roll (h : Billed cap tr w) (hreads : w.Reads now) :
    Billed cap tr { w with limiter := w.limiter.rollDay now, clock := now } := by
  have hdays : w.clock / secsPerDay ≤ now / secsPerDay := Nat.div_le_div_right hreads.1
  have hday := day_lt hreads.2
  by_cases hsame : w.limiter.currentDay = now / secsPerDay
  · have hroll : w.limiter.rollDay now = w.limiter := if_neg (not_not.mpr hsame)
    rw [hroll]
    exact ⟨h.cap_eq, .inr hsame.le, h.count_le, h.today, h.fresh, h.within, h.slots, h.sound⟩
  · have hbefore : w.limiter.currentDay = u64Max ∨ w.limiter.currentDay < now / secsPerDay := by
      rcases h.day_le with hstart | hle
      · exact .inl hstart
      · right
        omega
    obtain ⟨hadmitted, hcredited⟩ := h.fresh _ hbefore
    have hcount : (w.limiter.rollDay now).count = 0 := by
      rw [JudgeDailyCap.count_rollDay, JudgeDailyCap.admittedOn_of_ne hsame]
    constructor
    · show (w.limiter.rollDay now).cap = cap
      rw [JudgeDailyCap.cap_rollDay, h.cap_eq]
    · right
      show (w.limiter.rollDay now).currentDay ≤ now / secsPerDay
      rw [JudgeDailyCap.currentDay_rollDay]
    · show (w.limiter.rollDay now).count ≤ cap
      rw [hcount]
      exact Nat.zero_le _
    · show admittedIn (w.limiter.rollDay now).currentDay tr =
        creditedIn (w.limiter.rollDay now).currentDay tr + (w.limiter.rollDay now).count
      rw [JudgeDailyCap.currentDay_rollDay, hcount, hadmitted, hcredited]
    · intro day hlater
      dsimp only at hlater
      rw [JudgeDailyCap.currentDay_rollDay] at hlater
      refine h.fresh day ?_
      omega
    · exact h.within
    · show (w.limiter.rollDay now).slots + w.tasks.length = judgeStoreBacklogMax
      rw [JudgeDailyCap.slots_rollDay, h.slots]
    · exact h.sound

theorem Billed.endTask (h : Billed cap tr w) (hi : i < w.tasks.length) : Billed cap tr (w.endTask i) := by
  refine ⟨h.cap_eq, h.day_le, h.count_le, h.today, h.fresh, h.within, ?_, h.sound⟩
  show w.limiter.slots + 1 + (w.tasks.eraseIdx i).length = judgeStoreBacklogMax
  have hslots := h.slots
  rw [List.length_eraseIdx_of_lt hi]
  omega

/-- A call is admitted on the day of its reading. -/
theorem Billed.tryAdmit (h : Billed cap tr w) (hreads : w.Reads now)
    (hbudget : w.limiter.admittedOn now < cap) : Billed cap (tr ++ [.admitted (now / secsPerDay)])
      { limiter := { w.limiter.rollDay now with count := w.limiter.admittedOn now + 1 }
        tasks := w.tasks.set i (.judging (now / secsPerDay))
        clock := now } := by
  have hroll := h.roll hreads
  have htoday := hroll.today
  have hday := hroll.day_le
  dsimp only at htoday hday
  rw [JudgeDailyCap.currentDay_rollDay, JudgeDailyCap.count_rollDay] at htoday
  have hcredited : ∀ day, creditedIn day (tr ++ [.admitted (now / secsPerDay)]) = creditedIn day tr := by
    intro day
    rw [creditedIn_append, if_neg nofun]
    rfl
  constructor
  · exact hroll.cap_eq
  · exact hday
  · exact hbudget
  · show admittedIn (w.limiter.rollDay now).currentDay _ =
      creditedIn (w.limiter.rollDay now).currentDay _ + (w.limiter.admittedOn now + 1)
    rw [JudgeDailyCap.currentDay_rollDay, admittedIn_append, if_pos rfl, hcredited]
    omega
  · intro day hlater
    have hfresh := hroll.fresh day hlater
    dsimp only at hlater
    rw [JudgeDailyCap.currentDay_rollDay] at hlater
    have hother : now / secsPerDay ≠ day := by
      have := day_lt hreads.2
      omega
    rw [admittedIn_append, hcredited, if_neg fun heq => hother (JudgeRecord.admitted.inj heq)]
    exact hfresh
  · intro day
    rw [admittedIn_append, hcredited]
    by_cases hsame : now / secsPerDay = day
    · subst hsame
      rw [if_pos rfl]
      omega
    · rw [if_neg fun heq => hsame (JudgeRecord.admitted.inj heq)]
      exact h.within day
  · show (w.limiter.rollDay now).slots + (w.tasks.set i _).length = judgeStoreBacklogMax
    rw [List.length_set]
    exact hroll.slots
  · simpa using h.sound

/-- A unit is given back while its day is the counter's day, and ignored afterwards. -/
theorem Billed.refund (h : Billed cap tr w) {day : ℕ} {limiter : JudgeDailyCap}
    (hrefund : w.limiter.refund day = some limiter) :
    Billed cap (tr ++ [.refunded day (limiter.count < w.limiter.count)]) { w with limiter } := by
  rw [JudgeDailyCap.refund_eq] at hrefund
  have hignored : limiter = w.limiter →
      Billed cap (tr ++ [.refunded day (limiter.count < w.limiter.count)]) { w with limiter } := by
    rintro rfl
    refine h.append nofun (fun day' heq => ?_) nofun
    exact lt_irrefl _ (of_decide_eq_true (JudgeRecord.refunded.inj heq).2)
  by_cases hday : w.limiter.currentDay = day
  · rw [if_pos hday] at hrefund
    by_cases hcount : 0 < w.limiter.count
    · obtain rfl := Option.some.inj hrefund
      subst hday
      have hless : w.limiter.count - 1 < w.limiter.count := by omega
      have htoday := h.today
      have hle := h.count_le
      dsimp only
      rw [decide_eq_true hless]
      have hadmitted : ∀ day, admittedIn day (tr ++ [.refunded w.limiter.currentDay true]) =
          admittedIn day tr := by
        intro day
        rw [admittedIn_append, if_neg nofun]
        rfl
      constructor
      · exact h.cap_eq
      · exact h.day_le
      · show w.limiter.count - 1 ≤ cap
        omega
      · show admittedIn w.limiter.currentDay _ = creditedIn w.limiter.currentDay _ + (w.limiter.count - 1)
        rw [hadmitted, creditedIn_append, if_pos rfl]
        omega
      · intro day hlater
        have hfresh := h.fresh day hlater
        have hother : w.limiter.currentDay ≠ day := by
          intro heq
          rw [← heq] at hfresh
          omega
        rw [hadmitted, creditedIn_append, if_neg fun heq => hother (JudgeRecord.refunded.inj heq).1]
        exact hfresh
      · intro day
        have hwithin := h.within day
        rw [hadmitted, creditedIn_append]
        omega
      · exact h.slots
      · simpa using h.sound
    · have hzero : w.limiter.count - 1 = w.limiter.count := by omega
      rw [hzero] at hrefund
      exact hignored (Option.some.inj hrefund).symm
  · rw [if_neg hday] at hrefund
    exact hignored (Option.some.inj hrefund).symm

/-- **What one event keeps.** -/
theorem Billed.step (hcap : cap < usizeSize) (h : Billed cap tr w) {event : JudgeEvent}
    {w' : JudgeWorker} (hstep : w.step event = some (r, w')) : Billed cap (tr ++ [r]) w' := by
  have hended : ∀ {j : ℕ}, j < w.tasks.length → Billed cap (tr ++ [.ended]) (w.endTask j) :=
    fun hj => (h.endTask hj).append nofun nofun nofun
  cases event with
  | store now =>
    simp only [JudgeWorker.step] at hstep
    split at hstep
    · next hreads =>
      by_cases hfree : 0 < w.limiter.slots
      · have hslot : w.limiter.trySlot now = (true, { w.limiter with slots := w.limiter.slots - 1 }) :=
          if_pos hfree
        rw [hslot] at hstep
        obtain ⟨rfl, rfl⟩ := Prod.mk.inj (Option.some.inj hstep)
        refine Billed.append ⟨h.cap_eq, h.day_le, h.count_le, h.today, h.fresh, h.within, ?_, h.sound⟩
          nofun nofun nofun
        have hslots := h.slots
        show w.limiter.slots - 1 + (w.tasks ++ [JudgeTask.queued]).length = judgeStoreBacklogMax
        rw [List.length_append, List.length_singleton]
        omega
      · have hslot : w.limiter.trySlot now =
            (false, { w.limiter.rollDay now with warnedBacklog := true }) := if_neg hfree
        rw [hslot] at hstep
        obtain ⟨rfl, rfl⟩ := Prod.mk.inj (Option.some.inj hstep)
        obtain ⟨hcap, hday, hcount, htoday, hfresh, hwithin, hslots, hsound⟩ := h.roll hreads
        exact Billed.append ⟨hcap, hday, hcount, htoday, hfresh, hwithin, hslots, hsound⟩
          nofun nofun nofun
    · cases hstep
  | tryAdmit i now =>
    simp only [JudgeWorker.step] at hstep
    split at hstep
    · next hready =>
      obtain ⟨hreads, htask⟩ := hready
      have hbill := JudgeDailyCap.tryAdmitAt_eq (l := w.limiter) (h.cap_eq ▸ hcap) now
      rw [h.cap_eq] at hbill
      by_cases hbudget : w.limiter.admittedOn now < cap
      · rw [hbill, if_pos hbudget] at hstep
        obtain ⟨rfl, rfl⟩ := Prod.mk.inj (Option.some.inj hstep)
        exact h.tryAdmit hreads hbudget
      · rw [hbill, if_neg hbudget] at hstep
        obtain ⟨rfl, rfl⟩ := Prod.mk.inj (Option.some.inj hstep)
        obtain ⟨hcap, hday, hcount, htoday, hfresh, hwithin, hslots, hsound⟩ := h.roll hreads
        refine Billed.append (Billed.endTask ?_ (List.getElem?_eq_some_iff.mp htask).1) nofun nofun nofun
        exact ⟨hcap, hday, hcount, htoday, hfresh, hwithin, hslots, hsound⟩
    · cases hstep
  | gateClosed i =>
    simp only [JudgeWorker.step] at hstep
    split at hstep
    · next htask =>
      obtain ⟨rfl, rfl⟩ := Prod.mk.inj (Option.some.inj hstep)
      exact hended (List.getElem?_eq_some_iff.mp htask).1
    · cases hstep
  | finish i outcome =>
    simp only [JudgeWorker.step] at hstep
    split at hstep
    · next day htask =>
      have hi := (List.getElem?_eq_some_iff.mp htask).1
      have hsettle := Option.some.inj hstep
      unfold JudgeWorker.settle at hsettle
      split at hsettle
      · obtain ⟨rfl, rfl⟩ := Prod.mk.inj hsettle
        exact hended hi
      · split at hsettle
        · next hnone =>
          rw [JudgeDailyCap.refund_eq] at hnone
          cases hnone
        · next limiter hrefund =>
          obtain ⟨rfl, rfl⟩ := Prod.mk.inj hsettle
          exact (h.refund hrefund).endTask hi
    · cases hstep
  | drop i =>
    simp only [JudgeWorker.step] at hstep
    split at hstep
    · next hi =>
      obtain ⟨rfl, rfl⟩ := Prod.mk.inj (Option.some.inj hstep)
      exact hended hi
    · cases hstep
  | stats now =>
    simp only [JudgeWorker.step] at hstep
    split at hstep
    · next hreads =>
      obtain ⟨rfl, rfl⟩ := Prod.mk.inj (Option.some.inj hstep)
      have hdays : w.clock / secsPerDay ≤ now / secsPerDay := Nat.div_le_div_right hreads.1
      refine Billed.append ⟨h.cap_eq, ?_, h.count_le, h.today, h.fresh, h.within, h.slots, h.sound⟩
        nofun nofun nofun
      exact h.day_le.imp id fun hle => hle.trans hdays
    · cases hstep

/-- What every run keeps. -/
theorem billed_run (hcap : cap < usizeSize)
    (h : Run (Steps JudgeWorker.step) (.start cap) tr w) : Billed cap tr w := by
  refine h.invariant (fun tr w => Billed cap tr w) (billed_start cap) ?_
  rintro tr w r w' - hbilled ⟨event, hstep⟩
  exact hbilled.step hcap hstep

/-- **The daily cap holds.**  After any events, with a clock that does not go back: no day has more
calls admitted than the cap and the units its counter was credited with; the counter never wrapped, and
what it says of a reading is what was admitted on that day and not given back; a refund changes neither
the count nor the admission of any other day; a store refused for lack of a slot changes the count of
no day still to be read; and every slot is free or held by one task. -/
theorem judge_cap_holds (hcap : cap < usizeSize)
    (h : Run (Steps JudgeWorker.step) (.start cap) tr w) :
    (∀ day, admittedIn day tr ≤ cap + creditedIn day tr) ∧ .overflow ∉ tr ∧
    (∀ now, w.Reads now → w.limiter.admittedOn now + creditedIn (now / secsPerDay) tr =
      admittedIn (now / secsPerDay) tr) ∧
    (∀ day now, now / secsPerDay ≠ day → ∃ l, w.limiter.refund day = some l ∧
      l.admittedOn now = w.limiter.admittedOn now ∧ l.tryAdmitAt now = w.limiter.tryAdmitAt now) ∧
    (∀ now later, w.Reads now → now ≤ later → later ≤ u64Max → (w.limiter.trySlot now).1 = false →
      (w.limiter.trySlot now).2.admittedOn later = w.limiter.admittedOn later) ∧
    w.limiter.slots + w.tasks.length = judgeStoreBacklogMax := by
  have hbilled := billed_run hcap h
  refine ⟨hbilled.within, hbilled.sound, fun now hreads => ?_, fun day now hday => ?_,
    fun now later hreads hle hlater _ => ?_, hbilled.slots⟩
  · have htoday := (hbilled.roll hreads).today
    dsimp only at htoday
    rw [JudgeDailyCap.currentDay_rollDay, JudgeDailyCap.count_rollDay] at htoday
    omega
  · have hrefund := w.limiter.refund_eq day
    exact ⟨_, hrefund, w.limiter.refund_other hday hrefund⟩
  · have hdays : w.clock / secsPerDay ≤ now / secsPerDay := Nat.div_le_div_right hreads.1
    refine JudgeDailyCap.trySlot_admittedOn hle ?_ hlater
    exact hbilled.day_le.symm.imp (fun hday => hday.trans hdays) id

/-- With a cap of one, a day admits a second call after a refund, and the next day starts anew; the
refund of a call of the day before credits nothing. -/
theorem cap_of_one_holds : ∃ tr w, Run (Steps JudgeWorker.step) (.start 1) tr w ∧
    tr = [.slot true, .slot true, .slot true, .admitted 0, .refunded 0 true, .admitted 0, .admitted 1,
      .refunded 0 false] ∧
    (∀ day, admittedIn day tr ≤ 1 + creditedIn day tr) ∧ w.limiter.admittedOn secsPerDay = 1 := by
  have hrun : exec JudgeWorker.step (.start 1) [.store 0, .store 0, .store 0, .tryAdmit 0 5,
      .finish 0 (.rateLimited none), .tryAdmit 0 7, .tryAdmit 1 secsPerDay, .finish 0 (.rateLimited none)] =
      some ([.slot true, .slot true, .slot true, .admitted 0, .refunded 0 true, .admitted 0, .admitted 1,
        .refunded 0 false], ⟨⟨1, 1, 1, false, false, 63⟩, [.judging 1], secsPerDay⟩) := by decide +kernel
  exact ⟨_, _, run_of_exec hrun, rfl, (judge_cap_holds (by decide) (run_of_exec hrun)).1, by decide⟩

end

end Alaya
