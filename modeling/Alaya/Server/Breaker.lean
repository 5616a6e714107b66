import Alaya.Lib.Run
import Alaya.Server.CachedEmbedding
import Mathlib.Algebra.Order.Field.Rat
import Mathlib.Data.List.DropRight

/-!
# The circuit breaker of the shared cache

Calls of `embed_batch` run interleaved and share one breaker.  Each is cut where it awaits: at its reads of the shared
cache, at the provider, and at its writes; there it may be dropped, and then records nothing more.  The breaker is a function of the batches recorded so far: it counts the
failed ones at the end, and is open since the last of them once they are `breakerThreshold` (`tallied_run`).

The shared cache is configured; without one no batch is sent.  The count is a 32-bit number, exact while fewer than
2^32 batches fail in a row.
-/

namespace Alaya

open Labelled

/-- Where a call is. -/
inductive CallPhase where
  | waiting
  /-- Reading so many keys of the shared cache. -/
  | getting (keys : ℕ)
  | embedding
  /-- Writing so many entries to the shared cache. -/
  | setting (keys : ℕ)
  | ended
  deriving DecidableEq

/-- The keys of the batch a call has sent and not recorded. -/
def CallPhase.batch : CallPhase → Option ℕ
  | getting keys | setting keys => some keys
  | _ => none

/-- Whether a call is under way. -/
def CallPhase.running : CallPhase → Bool
  | waiting | ended => false
  | _ => true

/-- A stretch of a call between two awaits, and the clock it reads. -/
inductive CacheEvent where
  /-- The call misses so many texts in the process's cache. -/
  | began (call : ℕ) (now : ℚ) (misses : ℕ)
  /-- The reads came back; so many texts are still missing. -/
  | got (call : ℕ) (now : ℚ) (successes failures missing : ℕ)
  /-- The provider answered with so many new entries, or failed. -/
  | embedded (call : ℕ) (now : ℚ) (entries : Option ℕ)
  | put (call : ℕ) (now : ℚ) (successes failures : ℕ)
  /-- The caller has gone, and the call with it. -/
  | dropped (call : ℕ) (now : ℚ)
  deriving DecidableEq

/-- The outcome of a batch with a key. -/
structure BatchRecord where
  now : ℚ
  successes : ℕ
  failures : ℕ
  deriving DecidableEq

/-- A failed batch: failure wins ties. -/
def BatchRecord.failed (r : BatchRecord) : Bool := 0 < r.failures && r.successes ≤ r.failures

namespace CacheEvent

def call : CacheEvent → ℕ
  | began call _ _ | got call _ _ _ _ | embedded call _ _ | put call _ _ _ | dropped call _ => call

def now : CacheEvent → ℚ
  | began _ now _ | got _ now _ _ _ | embedded _ now _ | put _ now _ _ | dropped _ now => now

def isDrop : CacheEvent → Bool
  | dropped _ _ => true
  | _ => false

def record : CacheEvent → Option BatchRecord
  | got _ now successes failures _ | put _ now successes failures =>
    if 0 < successes + failures then some ⟨now, successes, failures⟩ else none
  | _ => none

end CacheEvent

/-- The breaker, the last reading of the clock, and the calls. -/
structure CacheWorld where
  breaker : Breaker
  now : ℚ
  calls : ℕ → CallPhase

namespace CacheWorld

/-- Before any call. -/
def start (now : ℚ) : CacheWorld := ⟨⟨0, 0⟩, now, fun _ => .waiting⟩

/-- A call goes on to its next await. -/
def move (w : CacheWorld) (breaker : Breaker) (e : CacheEvent) (phase : CallPhase) : CacheWorld :=
  ⟨breaker, e.now, Function.update w.calls e.call phase⟩

/-- After the look into the process's cache. -/
def afterLookup (b : Breaker) (now : ℚ) (misses : ℕ) : CallPhase :=
  if misses = 0 then .ended else if b.available now then .getting misses else .embedding

/-- After the provider's answer. -/
def afterEmbed (b : Breaker) (now : ℚ) : Option ℕ → CallPhase
  | none => .ended
  | some entries => if b.available now then .setting entries else .ended

/-- One stretch of one call. -/
inductive Step (w : CacheWorld) : CacheEvent → CacheWorld → Prop
  | began {call : ℕ} {now : ℚ} (misses : ℕ) : w.now ≤ now → w.calls call = .waiting →
      Step w (.began call now misses) (w.move w.breaker (.began call now misses) (afterLookup w.breaker now misses))
  | got {call keys successes failures : ℕ} {now : ℚ} (missing : ℕ) : w.now ≤ now → w.calls call = .getting keys →
      successes + failures = keys →
      Step w (.got call now successes failures missing)
        (w.move (w.breaker.recordBatch now successes failures) (.got call now successes failures missing)
          (if missing = 0 then .ended else .embedding))
  | embedded {call : ℕ} {now : ℚ} (entries : Option ℕ) : w.now ≤ now → w.calls call = .embedding →
      Step w (.embedded call now entries)
        (w.move w.breaker (.embedded call now entries) (afterEmbed w.breaker now entries))
  | put {call keys successes failures : ℕ} {now : ℚ} : w.now ≤ now → w.calls call = .setting keys →
      successes + failures = keys →
      Step w (.put call now successes failures)
        (w.move (w.breaker.recordBatch now successes failures) (.put call now successes failures) .ended)
  | dropped {call : ℕ} {now : ℚ} : w.now ≤ now → (w.calls call).running = true →
      Step w (.dropped call now) (w.move w.breaker (.dropped call now) .ended)

/-- A stretch while no other call is under way. -/
def Alone (w : CacheWorld) (e : CacheEvent) (w' : CacheWorld) : Prop :=
  Step w e w' ∧ ∀ other, other ≠ e.call → (w.calls other).running = false

end CacheWorld

/-- The reads of a call are a batch of its misses: the breaker it leaves is one that `Step.got` records. -/
theorem breaker_lookupL2 (view : CacheView) (dimensions : ℕ) (keys : List String) (l : CacheLookup) :
    (CachedEmbedding.lookupL2 view dimensions keys l).breaker = l.breaker ∨
      l.breaker.available (view.clock 0) = true ∧ ∃ successes failures, successes + failures = l.misses.length ∧
        (CachedEmbedding.lookupL2 view dimensions keys l).breaker =
          l.breaker.recordBatch (view.clock 1) successes failures := by
  unfold CachedEmbedding.lookupL2
  cases view.l2 with
  | none => exact .inl rfl
  | some get =>
    dsimp only
    split_ifs with havailable
    · refine .inr ⟨(Bool.and_eq_true_iff.mp havailable).1, _, _, ?_, rfl⟩
      have hsplit := List.length_eq_countP_add_countP (fun r : ℕ × L2Get => r.2.isFailure)
        (l := l.misses.zipIdx.map fun p => (p.1, (keys[p.1]?).elim .absent (get p.2)))
      rw [List.length_map, List.length_zipIdx] at hsplit
      rw [hsplit, Nat.add_comm]
      simp
    · exact .inl rfl

/-! ### What was recorded -/

/-- The outcomes of the batches recorded so far. -/
def records (tr : List CacheEvent) : List BatchRecord := tr.filterMap CacheEvent.record

/-- How many batches failed in a row, up to the last one recorded. -/
def failedInRow (tr : List CacheEvent) : ℕ := ((records tr).rtakeWhile BatchRecord.failed).length

/-- When the last failed batch was recorded. -/
def lastFailedAt (tr : List CacheEvent) : Option ℚ :=
  (((records tr).filter BatchRecord.failed).getLast?).map BatchRecord.now

section

variable {tr : List CacheEvent} {e : CacheEvent} {r : BatchRecord}

theorem records_append (hr : e.record = some r) : records (tr ++ [e]) = records tr ++ [r] := by
  unfold records
  rw [List.filterMap_append, List.filterMap_cons_some hr]
  rfl

theorem records_append_none (hr : e.record = none) : records (tr ++ [e]) = records tr := by
  unfold records
  rw [List.filterMap_append, List.filterMap_cons_none hr]
  exact List.append_nil _

theorem failedInRow_failed (hr : e.record = some r) (hfailed : r.failed = true) :
    failedInRow (tr ++ [e]) = failedInRow tr + 1 := by
  unfold failedInRow
  rw [records_append hr, List.rtakeWhile_concat_pos _ _ _ hfailed, List.length_append]
  rfl

theorem failedInRow_recovered (hr : e.record = some r) (hfailed : r.failed = false) :
    failedInRow (tr ++ [e]) = 0 := by
  unfold failedInRow
  rw [records_append hr, List.rtakeWhile_concat_neg _ _ _ (by rw [hfailed]; decide)]
  rfl

theorem lastFailedAt_failed (hr : e.record = some r) (hfailed : r.failed = true) :
    lastFailedAt (tr ++ [e]) = some r.now := by
  unfold lastFailedAt
  rw [records_append hr, List.filter_append, List.filter_cons_of_pos hfailed, List.filter_nil, List.getLast?_concat]
  rfl

end

/-! ### The breaker as a function of what was recorded -/

/-- **What the breaker holds.** -/
structure Tallied (tr : List CacheEvent) (w : CacheWorld) : Prop where
  failures : w.breaker.failures = failedInRow tr
  closed : failedInRow tr < breakerThreshold → w.breaker.openSince = 0
  opened : breakerThreshold ≤ failedInRow tr → lastFailedAt tr = some w.breaker.openSince ∧ 0 < w.breaker.openSince
  positive : 0 < w.now

theorem Tallied.isOpen_iff {tr : List CacheEvent} {w : CacheWorld} (h : Tallied tr w) :
    w.breaker.openSince ≠ 0 ↔ breakerThreshold ≤ failedInRow tr := by
  constructor
  · intro hopen
    by_contra hfew
    exact hopen (h.closed (Nat.lt_of_not_le hfew))
  · exact fun hmany => (h.opened hmany).2.ne'

/-- A stretch that records nothing. -/
theorem Tallied.quiet {tr : List CacheEvent} {w : CacheWorld} {e : CacheEvent} (h : Tallied tr w)
    (hclock : w.now ≤ e.now) (hr : e.record = none) (phase : CallPhase) :
    Tallied (tr ++ [e]) (w.move w.breaker e phase) := by
  have hrow : failedInRow (tr ++ [e]) = failedInRow tr := by
    unfold failedInRow
    rw [records_append_none hr]
  have hlast : lastFailedAt (tr ++ [e]) = lastFailedAt tr := by
    unfold lastFailedAt
    rw [records_append_none hr]
  constructor
  · rw [hrow]
    exact h.failures
  · rw [hrow]
    exact h.closed
  · rw [hrow, hlast]
    exact h.opened
  · exact h.positive.trans_le hclock

/-- A failed batch counts, and opens the breaker or keeps it open from now on. -/
theorem Tallied.failed {tr : List CacheEvent} {w : CacheWorld} {e : CacheEvent} (h : Tallied tr w)
    (hclock : w.now ≤ e.now) {r : BatchRecord} (hr : e.record = some r) (hnow : r.now = e.now)
    (hfailed : r.failed = true) (phase : CallPhase) :
    Tallied (tr ++ [e]) (w.move (w.breaker.failure e.now) e phase) := by
  have hrow : failedInRow (tr ++ [e]) = failedInRow tr + 1 := failedInRow_failed hr hfailed
  have hlast : lastFailedAt (tr ++ [e]) = some e.now := (lastFailedAt_failed hr hfailed).trans (congrArg some hnow)
  have hpositive : 0 < e.now := h.positive.trans_le hclock
  have hfailure : w.breaker.failure e.now =
      ⟨failedInRow tr + 1, if breakerThreshold ≤ failedInRow tr + 1 then e.now else 0⟩ := by
    unfold Breaker.failure
    rw [h.failures]
    by_cases hmany : breakerThreshold ≤ failedInRow tr + 1
    · rw [if_pos (.inr hmany), if_pos hmany]
    · have hclosed := h.closed (by omega)
      rw [if_neg (not_or.mpr ⟨not_not.mpr hclosed, hmany⟩), if_neg hmany, hclosed]
  rw [hfailure]
  constructor
  · rw [hrow]
    rfl
  · rw [hrow]
    exact fun hfew => if_neg (Nat.not_le.mpr hfew)
  · rw [hrow, hlast]
    intro hmany
    dsimp only [CacheWorld.move]
    rw [if_pos hmany]
    exact ⟨rfl, hpositive⟩
  · exact hpositive

/-- A batch in which more keys succeeded than failed closes the breaker. -/
theorem Tallied.recovered {tr : List CacheEvent} {w : CacheWorld} {e : CacheEvent} (h : Tallied tr w)
    (hclock : w.now ≤ e.now) {r : BatchRecord} (hr : e.record = some r) (hfailed : r.failed = false)
    (phase : CallPhase) : Tallied (tr ++ [e]) (w.move w.breaker.success e phase) := by
  have hrow : failedInRow (tr ++ [e]) = 0 := failedInRow_recovered hr hfailed
  have hsuccess : w.breaker.success = ⟨0, 0⟩ := by
    unfold Breaker.success
    split_ifs with hcount
    · rfl
    · have hnone : failedInRow tr = 0 := by
        rw [← h.failures]
        omega
      have hclosed := h.closed (by rw [hnone]; decide)
      have hfailures := h.failures
      rw [hnone] at hfailures
      cases hb : w.breaker
      rw [hb] at hclosed hfailures
      cases hclosed
      cases hfailures
      rfl
  rw [hsuccess]
  constructor
  · rw [hrow]
    rfl
  · exact fun _ => rfl
  · rw [hrow]
    exact fun hmany => absurd hmany (by decide)
  · exact h.positive.trans_le hclock

/-- A batch that is recorded. -/
theorem Tallied.record {tr : List CacheEvent} {w : CacheWorld} {e : CacheEvent} (h : Tallied tr w)
    (hclock : w.now ≤ e.now) {successes failures : ℕ}
    (hr : e.record = if 0 < successes + failures then some ⟨e.now, successes, failures⟩ else none)
    (phase : CallPhase) :
    Tallied (tr ++ [e]) (w.move (w.breaker.recordBatch e.now successes failures) e phase) := by
  unfold Breaker.recordBatch
  by_cases hfailed : 0 < failures ∧ successes ≤ failures
  · rw [if_pos (by omega)] at hr
    rw [if_pos hfailed]
    exact h.failed hclock hr rfl (by simp [BatchRecord.failed, hfailed.1, hfailed.2]) phase
  · rw [if_neg hfailed]
    by_cases hany : 0 < successes
    · rw [if_pos (by omega)] at hr
      rw [if_pos hany]
      refine h.recovered hclock hr ?_ phase
      unfold BatchRecord.failed
      rw [Bool.and_eq_false_iff, decide_eq_false_iff_not, decide_eq_false_iff_not, ← not_and_or]
      exact hfailed
    · -- A batch without a key.
      rw [if_neg (by omega)] at hr
      rw [if_neg hany]
      exact h.quiet hclock hr phase

theorem Tallied.step {tr : List CacheEvent} {w w' : CacheWorld} {e : CacheEvent} (h : Tallied tr w)
    (hstep : CacheWorld.Step w e w') : Tallied (tr ++ [e]) w' := by
  cases hstep with
  | @began call now misses hclock _ => exact h.quiet (e := .began call now misses) hclock rfl _
  | @got call keys successes failures now missing hclock _ _ =>
    exact h.record (e := .got call now successes failures missing) hclock rfl _
  | @embedded call now entries hclock _ => exact h.quiet (e := .embedded call now entries) hclock rfl _
  | @put call keys successes failures now hclock _ _ =>
    exact h.record (e := .put call now successes failures) hclock rfl _
  | @dropped call now hclock _ => exact h.quiet (e := .dropped call now) hclock rfl _

/-- **The breaker is a function of the batches recorded.** -/
theorem tallied_run {t₀ : ℚ} (ht : 0 < t₀) {tr : List CacheEvent} {w : CacheWorld}
    (hrun : Run CacheWorld.Step (CacheWorld.start t₀) tr w) : Tallied tr w := by
  refine hrun.invariant Tallied ?_ fun tr w e w' _ h hstep => h.step hstep
  exact ⟨rfl, fun _ => rfl, fun hmany => absurd hmany (by decide), ht⟩

/-! ### Sending a batch -/

/-- The batch a stretch sends: the call had none before it. -/
def Sends (w : CacheWorld) (e : CacheEvent) (w' : CacheWorld) (keys : ℕ) : Prop :=
  (w.calls e.call).batch = none ∧ (w'.calls e.call).batch = some keys

@[simp] theorem calls_move (w : CacheWorld) (b : Breaker) (e : CacheEvent) (phase : CallPhase) :
    (w.move b e phase).calls e.call = phase := Function.update_self _ _ _

theorem batch_afterLookup {b : Breaker} {now : ℚ} {misses keys : ℕ}
    (h : (CacheWorld.afterLookup b now misses).batch = some keys) : b.available now = true ∧ keys = misses := by
  unfold CacheWorld.afterLookup at h
  split_ifs at h with hnone havailable
  · cases h
  · exact ⟨havailable, (Option.some.inj h).symm⟩
  · cases h

theorem batch_afterEmbed {b : Breaker} {now : ℚ} {entries : Option ℕ} {keys : ℕ}
    (h : (CacheWorld.afterEmbed b now entries).batch = some keys) : b.available now = true ∧ entries = some keys := by
  unfold CacheWorld.afterEmbed at h
  cases entries with
  | none => cases h
  | some entries =>
    dsimp only at h
    split_ifs at h with havailable
    · exact ⟨havailable, h⟩
    · cases h

/-- **A batch is sent only where the breaker lets it**, and leaves the breaker alone. -/
theorem available_of_sends {w w' : CacheWorld} {e : CacheEvent} (hstep : CacheWorld.Step w e w') {keys : ℕ}
    (hsends : Sends w e w' keys) : w.breaker.available e.now = true ∧ w'.breaker = w.breaker := by
  obtain ⟨hbefore, hafter⟩ := hsends
  cases hstep with
  | @began call now misses hclock _ =>
    rw [calls_move] at hafter
    exact ⟨(batch_afterLookup hafter).1, rfl⟩
  | @got call keys successes failures now missing hclock hphase _ =>
    rw [show CacheEvent.call (.got call now successes failures missing) = call from rfl, hphase] at hbefore
    cases hbefore
  | @embedded call now entries hclock _ =>
    rw [calls_move] at hafter
    exact ⟨(batch_afterEmbed hafter).1, rfl⟩
  | @put call keys successes failures now hclock hphase _ =>
    rw [show CacheEvent.call (.put call now successes failures) = call from rfl, hphase] at hbefore
    cases hbefore
  | dropped _ _ =>
    rw [calls_move] at hafter
    cases hafter

/-- An open breaker lets a batch through once its last failure is as old as the cooldown. -/
theorem cooldown_of_available {tr : List CacheEvent} {w : CacheWorld} (h : Tallied tr w)
    (hopen : w.breaker.openSince ≠ 0) {now : ℚ} (havailable : w.breaker.available now = true) :
    ∃ t, lastFailedAt tr = some t ∧ breakerCooldownSecs ≤ now - t := by
  refine ⟨w.breaker.openSince, (h.opened (h.isOpen_iff.mp hopen)).1, ?_⟩
  unfold Breaker.available at havailable
  rw [Bool.or_eq_true, decide_eq_true_eq, decide_eq_true_eq] at havailable
  exact havailable.resolve_left hopen

/-- A call that waits for a batch goes on with its record. -/
theorem record_of_batch {w w' : CacheWorld} {e : CacheEvent} (hstep : CacheWorld.Step w e w') {keys : ℕ}
    (hbatch : (w.calls e.call).batch = some keys) (hkept : e.isDrop = false) : ∃ successes failures, successes + failures = keys ∧
      e.record = (if 0 < successes + failures then some ⟨e.now, successes, failures⟩ else none) ∧
      w'.breaker = w.breaker.recordBatch e.now successes failures := by
  cases hstep with
  | @began call now misses _ hphase =>
    rw [show CacheEvent.call (.began call now misses) = call from rfl, hphase] at hbatch
    cases hbatch
  | @got call keys' successes failures now missing _ hphase hcount =>
    rw [show CacheEvent.call (.got call now successes failures missing) = call from rfl, hphase] at hbatch
    exact ⟨successes, failures, hcount.trans (Option.some.inj hbatch), rfl, rfl⟩
  | @embedded call now entries _ hphase =>
    rw [show CacheEvent.call (.embedded call now entries) = call from rfl, hphase] at hbatch
    cases hbatch
  | @put call keys' successes failures now _ hphase hcount =>
    rw [show CacheEvent.call (.put call now successes failures) = call from rfl, hphase] at hbatch
    exact ⟨successes, failures, hcount.trans (Option.some.inj hbatch), rfl, rfl⟩
  | dropped _ _ => cases hkept

/-- A call that is dropped leaves the breaker alone. -/
theorem breaker_of_drop {w w' : CacheWorld} {e : CacheEvent} (hstep : CacheWorld.Step w e w') (hdrop : e.isDrop = true) :
    w'.breaker = w.breaker := by
  cases hstep with
  | dropped _ _ => rfl
  | began | got | embedded | put => cases hdrop

theorem running_of_batch {phase : CallPhase} {keys : ℕ} (h : phase.batch = some keys) : phase.running = true := by
  cases phase with
  | getting | setting | embedding => rfl
  | waiting | ended => cases h

theorem clock_of_step {w w' : CacheWorld} {e : CacheEvent} (hstep : CacheWorld.Step w e w') : w.now ≤ e.now := by
  cases hstep with
  | began _ hclock _ => exact hclock
  | got _ hclock _ _ => exact hclock
  | embedded _ hclock _ => exact hclock
  | put hclock _ _ => exact hclock
  | dropped hclock _ => exact hclock

theorem run_of_alone {w₀ w : CacheWorld} {tr : List CacheEvent} (hrun : Run CacheWorld.Alone w₀ tr w) :
    Run CacheWorld.Step w₀ tr w := by
  induction hrun with
  | start => exact .start
  | step _ halone ih => exact ih.step halone.1

/-- While a call waits for its batch, no other call goes on beside it alone. -/
theorem call_of_alone {w w' : CacheWorld} {e : CacheEvent} (hstep : CacheWorld.Alone w e w') {call keys : ℕ}
    (hbatch : (w.calls call).batch = some keys) : e.call = call := by
  by_contra hne
  have hidle := hstep.2 call fun heq => hne heq.symm
  rw [running_of_batch hbatch] at hidle
  cases hidle

/-- What a batch with a key does to an open breaker. -/
theorem recordBatch_open {tr : List CacheEvent} {w : CacheWorld} (h : Tallied tr w) (hopen : w.breaker.openSince ≠ 0)
    {now : ℚ} (hnow : w.now ≤ now) {successes failures : ℕ} (hkeys : 0 < successes + failures) :
    ((w.breaker.recordBatch now successes failures).openSince = 0 ↔ failures < successes) ∧
      (¬failures < successes → (w.breaker.recordBatch now successes failures).openSince = now) := by
  have hmany := h.isOpen_iff.mp hopen
  have hcount : 0 < w.breaker.failures := by
    rw [h.failures]
    exact lt_of_lt_of_le (by decide) hmany
  have hpositive : now ≠ 0 := (h.positive.trans_le hnow).ne'
  unfold Breaker.recordBatch
  by_cases hfailed : 0 < failures ∧ successes ≤ failures
  · have hfailure : w.breaker.failure now = ⟨w.breaker.failures + 1, now⟩ := if_pos (.inl hopen)
    rw [if_pos hfailed, hfailure]
    exact ⟨⟨fun heq => absurd heq hpositive, fun hlt => absurd hfailed.2 (Nat.not_le.mpr hlt)⟩, fun _ => rfl⟩
  · have hsuccess : w.breaker.success = ⟨0, 0⟩ := if_pos hcount
    have hmore : failures < successes := by omega
    rw [if_neg hfailed, if_pos (by omega), hsuccess]
    exact ⟨⟨fun _ => hmore, fun _ => rfl⟩, fun hle => absurd hmore hle⟩

/-- **The breaker's state machine.**  Whatever the order of the calls: it opens only when the last
`breakerThreshold` batches recorded or more failed; while it is open the count is at that threshold, so that the next
batch in which more keys succeeded than failed closes it; and no batch is sent while it is open and the last failure
is younger than the cooldown.  Calls that run one at a time: a batch with a key that is sent while the breaker is open
is recorded next, unless its call is dropped, closes it exactly if more of its keys succeeded than failed, and starts
the cooldown again otherwise. -/
theorem breaker_machine {t₀ : ℚ} (ht : 0 < t₀) :
    (∀ tr w, Run CacheWorld.Step (CacheWorld.start t₀) tr w →
      (∀ e w', CacheWorld.Step w e w' → w.breaker.openSince = 0 → w'.breaker.openSince ≠ 0 →
        breakerThreshold ≤ failedInRow (tr ++ [e])) ∧
      (w.breaker.openSince ≠ 0 → breakerThreshold ≤ w.breaker.failures ∧
        ∀ e w' r, CacheWorld.Step w e w' → e.record = some r → r.failures < r.successes → w'.breaker.openSince = 0) ∧
      ∀ e w' keys, CacheWorld.Step w e w' → Sends w e w' keys → w.breaker.openSince ≠ 0 →
        ∃ t, lastFailedAt tr = some t ∧ breakerCooldownSecs ≤ e.now - t) ∧
    ∀ tr w e w₁ e' w₂ keys, Run CacheWorld.Alone (CacheWorld.start t₀) tr w → w.breaker.openSince ≠ 0 →
      CacheWorld.Alone w e w₁ → Sends w e w₁ keys → 0 < keys → CacheWorld.Alone w₁ e' w₂ → e'.call = e.call ∧
      (e'.isDrop = true → w₂.breaker = w.breaker) ∧
      (e'.isDrop = false → ∃ successes failures, successes + failures = keys ∧
        e'.record = some ⟨e'.now, successes, failures⟩ ∧
        (w₂.breaker.openSince = 0 ↔ failures < successes) ∧
        (¬failures < successes → w₂.breaker.openSince = e'.now)) := by
  constructor
  · intro tr w hrun
    have h := tallied_run ht hrun
    refine ⟨fun e w' hstep hclosed hopen => (h.step hstep).isOpen_iff.mp hopen, fun hopen => ⟨?_, ?_⟩,
      fun e w' keys hstep hsends hopen => cooldown_of_available h hopen (available_of_sends hstep hsends).1⟩
    · rw [h.failures]
      exact h.isOpen_iff.mp hopen
    · intro e w' r hstep hr hmore
      refine (h.step hstep).closed ?_
      have hfailed : r.failed = false := by
        unfold BatchRecord.failed
        rw [Bool.and_eq_false_iff, decide_eq_false_iff_not, decide_eq_false_iff_not]
        exact .inr (Nat.not_le.mpr hmore)
      rw [failedInRow_recovered hr hfailed]
      decide
  · intro tr w e w₁ e' w₂ keys hrun hopen hsend hsends hkeys hrecord
    obtain ⟨-, hsame⟩ := available_of_sends hsend.1 hsends
    have h₁ : Tallied (tr ++ [e]) w₁ := (tallied_run ht (run_of_alone hrun)).step hsend.1
    have hcall : e'.call = e.call := call_of_alone hrecord hsends.2
    refine ⟨hcall, fun hdrop => (breaker_of_drop hrecord.1 hdrop).trans hsame, fun hkept => ?_⟩
    obtain ⟨successes, failures, hcount, hr, hbreaker⟩ := record_of_batch hrecord.1 (hcall ▸ hsends.2) hkept
    have hany : 0 < successes + failures := hcount ▸ hkeys
    have hopen₁ : w₁.breaker.openSince ≠ 0 := by rwa [hsame]
    rw [if_pos hany] at hr
    rw [hbreaker]
    exact ⟨successes, failures, hcount, hr, recordBatch_open h₁ hopen₁ (clock_of_step hrecord.1) hany⟩

/-! ### Three failures and a recovery -/

/-- A call whose one read fails, and whose provider fails too. -/
def failedCall (call : ℕ) (t : ℚ) : List CacheEvent := [.began call t 1, .got call t 0 1 1, .embedded call t none]

/-- A call that misses a text where the breaker lets it through. -/
theorem step_began {w : CacheWorld} {call misses : ℕ} {t : ℚ} (hmisses : misses ≠ 0)
    (hcall : w.calls call = .waiting) (hnow : w.now ≤ t) (havailable : w.breaker.available t = true) :
    CacheWorld.Step w (.began call t misses) (w.move w.breaker (.began call t misses) (.getting misses)) := by
  have hstep : CacheWorld.Step w (.began call t misses) _ := .began misses hnow hcall
  have hphase : CacheWorld.afterLookup w.breaker t misses = .getting misses :=
    (if_neg hmisses).trans (if_pos havailable)
  rwa [hphase] at hstep

theorem running_update {w : CacheWorld} (hquiet : ∀ c, (w.calls c).running = false) {call : ℕ} {phase : CallPhase}
    (other : ℕ) (hother : other ≠ call) : ((Function.update w.calls call phase) other).running = false := by
  rw [Function.update_of_ne hother]
  exact hquiet other

/-- It fails beside no other call. -/
theorem run_failedCall {w : CacheWorld} (hquiet : ∀ c, (w.calls c).running = false) {call : ℕ} {t : ℚ}
    (hcall : w.calls call = .waiting) (hnow : w.now ≤ t) (havailable : w.breaker.available t = true) :
    ∃ w', Run CacheWorld.Alone w (failedCall call t) w' ∧ w'.breaker = w.breaker.failure t ∧ w'.now = t ∧
      (∀ c, (w'.calls c).running = false) ∧ ∀ c, c ≠ call → w'.calls c = w.calls c := by
  set w₁ := w.move w.breaker (.began call t 1) (.getting 1) with hw₁
  set w₂ := w₁.move (w.breaker.failure t) (.got call t 0 1 1) .embedding with hw₂
  set w₃ := w₂.move (w.breaker.failure t) (.embedded call t none) .ended with hw₃
  have hphase₁ : w₁.calls call = .getting 1 := Function.update_self _ _ _
  have hphase₂ : w₂.calls call = .embedding := Function.update_self _ _ _
  have hidle₁ : ∀ other, other ≠ call → (w₁.calls other).running = false := running_update hquiet
  have hsame₂ : ∀ other, other ≠ call → w₂.calls other = w₁.calls other := fun other h => Function.update_of_ne h _ _
  have hsame₃ : ∀ other, other ≠ call → w₃.calls other = w₂.calls other := fun other h => Function.update_of_ne h _ _
  have hbegan : CacheWorld.Step w (.began call t 1) w₁ := step_began Nat.one_ne_zero hcall hnow havailable
  have hgot : CacheWorld.Step w₁ (.got call t 0 1 1) w₂ := CacheWorld.Step.got 1 le_rfl hphase₁ rfl
  have hembedded : CacheWorld.Step w₂ (.embedded call t none) w₃ := CacheWorld.Step.embedded none le_rfl hphase₂
  refine ⟨w₃, ((Run.start.step ⟨hbegan, fun other _ => hquiet other⟩).step ⟨hgot, hidle₁⟩).step
    ⟨hembedded, fun other h => ?_⟩, rfl, rfl, fun c => ?_, fun c h => ?_⟩
  · rw [hsame₂ other h]
    exact hidle₁ other h
  · by_cases hc : c = call
    · subst hc
      rw [show w₃.calls c = .ended from Function.update_self _ _ _]
      rfl
    · rw [hsame₃ c hc, hsame₂ c hc]
      exact hidle₁ c hc
  · rw [hsame₃ c h, hsame₂ c h]
    exact Function.update_of_ne h _ _

/-- A call after the cooldown finds its text and closes the breaker that three failed calls opened. -/
theorem breaker_machine_recovers : ∃ w w₁ w₂,
    Run CacheWorld.Alone (CacheWorld.start 1) (failedCall 0 1 ++ failedCall 1 2 ++ failedCall 2 3) w ∧
      w.breaker = ⟨3, 3⟩ ∧ CacheWorld.Alone w (.began 3 40 1) w₁ ∧ CacheWorld.Alone w₁ (.got 3 41 1 0 0) w₂ ∧
      w₂.breaker.openSince = 0 := by
  have hstart : ∀ c, ((CacheWorld.start 1).calls c).running = false := fun _ => rfl
  obtain ⟨a, hrunA, hbreakerA, hnowA, hquietA, hcallsA⟩ := run_failedCall hstart
    (show (CacheWorld.start 1).calls 0 = .waiting from rfl) (show (1 : ℚ) ≤ 1 from le_rfl) (by decide)
  have hfirst : a.breaker = ⟨1, 0⟩ := hbreakerA.trans (by decide)
  have hwait₁ : a.calls 1 = .waiting := (hcallsA 1 (by decide)).trans rfl
  have havailable₁ : a.breaker.available 2 = true := by
    rw [hfirst]
    decide
  obtain ⟨b, hrunB, hbreakerB, hnowB, hquietB, hcallsB⟩ := run_failedCall hquietA hwait₁
    (show a.now ≤ 2 by rw [hnowA]; decide) havailable₁
  have hsecond : b.breaker = ⟨2, 0⟩ := by
    rw [hbreakerB, hfirst]
    decide
  have hwait₂ : b.calls 2 = .waiting := (hcallsB 2 (by decide)).trans ((hcallsA 2 (by decide)).trans rfl)
  have havailable₂ : b.breaker.available 3 = true := by
    rw [hsecond]
    decide
  obtain ⟨w, hrunC, hbreakerC, hnowC, hquietC, hcallsC⟩ := run_failedCall hquietB hwait₂
    (show b.now ≤ 3 by rw [hnowB]; decide) havailable₂
  have hthird : w.breaker = ⟨3, 3⟩ := by
    rw [hbreakerC, hsecond]
    decide
  have hrun := (hrunA.append hrunB).append hrunC
  have hwait₃ : w.calls 3 = .waiting :=
    (hcallsC 3 (by decide)).trans ((hcallsB 3 (by decide)).trans ((hcallsA 3 (by decide)).trans rfl))
  have hopen : w.breaker.openSince ≠ 0 := by
    rw [hthird]
    decide
  -- The call after the cooldown: it asks for one key, and gets it.
  have havailable : w.breaker.available 40 = true := by
    rw [hthird]
    decide +kernel
  set w₁ := w.move w.breaker (.began 3 40 1) (.getting 1) with hw₁
  have hbegan : CacheWorld.Step w (.began 3 40 1) w₁ :=
    step_began Nat.one_ne_zero hwait₃ (by rw [hnowC]; decide) havailable
  have hphase₁ : w₁.calls 3 = .getting 1 := calls_move w w.breaker (.began 3 40 1) (.getting 1)
  have hsends : Sends w (.began 3 40 1) w₁ 1 := ⟨congrArg CallPhase.batch hwait₃, congrArg CallPhase.batch hphase₁⟩
  have hgot : CacheWorld.Step w₁ (.got 3 41 1 0 0) _ := .got 0 (show (40 : ℚ) ≤ 41 by decide) hphase₁ rfl
  have halone : CacheWorld.Alone w (.began 3 40 1) w₁ := ⟨hbegan, fun other _ => hquietC other⟩
  obtain ⟨-, -, hkept⟩ := (breaker_machine (show (0 : ℚ) < 1 by decide)).2 _ w _ w₁ _ _ 1 hrun hopen halone hsends
    Nat.zero_lt_one ⟨hgot, running_update hquietC⟩
  obtain ⟨successes, failures, hcount, hr, hcloses, -⟩ := hkept rfl
  obtain ⟨rfl, rfl⟩ : 1 = successes ∧ 0 = failures := by
    have heq := Option.some.inj hr
    exact ⟨congrArg BatchRecord.successes heq, congrArg BatchRecord.failures heq⟩
  exact ⟨w, w₁, _, hrun, hthird, halone, ⟨hgot, running_update hquietC⟩, hcloses.mpr Nat.zero_lt_one⟩

end Alaya
