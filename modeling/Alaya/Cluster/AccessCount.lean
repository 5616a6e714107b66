import Alaya.Cluster.Story
import Alaya.Cluster.Record

/-!
# No access is lost or counted twice

The access count of a point that is not deleted is what it was plus one for each increment that was
applied, and its timestamps are the last hundred of all applied.  That is `accesses_run`, from what
each write does to the record.  What the calls report about it comes from their stories: `landed`
means applied once, `skipped`, `absent` and a call out of races mean not applied.
-/

namespace Alaya

open Json Labelled

/-- The access count of a point, nought when there is none. -/
def accessCount (cell : Option Payload) : UInt64 := (cell.map Payload.accessCount).getD 0

/-- The access timestamps of a point. -/
def accessTimestamps (cell : Option Payload) : List ℚ :=
  (cell.map Payload.accessTimestamps).getD []

/-- When an event was an access. -/
def CellEvent.accessTime : CellEvent → Option ℚ
  | .write op _ => op.accessTime
  | .erase => none

/-- The times of the increments applied to a point, in the order they were applied. -/
def accesses (id : PointId) (tr : List Event) : List ℚ :=
  (cellEvents id tr).filterMap CellEvent.accessTime

/-- What is kept of timestamps and the accesses after them: nothing is cut before there is one. -/
def keptTimestamps (before accesses : List ℚ) : List ℚ :=
  if accesses = [] then before else Recent.keepLast maxAccessTimestamps (before ++ accesses)

/-- How often a call that reports `update` applied its increment. -/
def Update.Counted (update : Update) (applied : ℕ) : Prop :=
  match update with
  | .landed .. => applied = 1
  | .skipped | .absent | .unconfirmed .lostRaces => applied = 0
  | _ => True

theorem capTimestamps_eq (l : List ℚ) (n : ℕ) : capTimestamps l n = Recent.keepLast n l := by
  unfold capTimestamps
  split_ifs with h
  · rfl
  · exact (Recent.keepLast_of_le (Nat.le_of_not_lt h)).symm

theorem keptTimestamps_concat (before accesses : List ℚ) (now : ℚ) :
    Recent.keepLast maxAccessTimestamps (keptTimestamps before accesses ++ [now]) =
      keptTimestamps before (accesses ++ [now]) := by
  unfold keptTimestamps
  rw [if_neg (List.concat_ne_nil now accesses)]
  split_ifs with hnone
  · rw [hnone, List.nil_append]
  · rw [Recent.keepLast_append, List.append_assoc]

/-! ### What one event does -/

/-- An operation that is not an increment leaves the count and the timestamps. -/
theorem Op.revise_accesses {op : Op} (h : op.accessTime = none) (r : Record) :
    (op.revise r).accessCount = r.accessCount ∧
      (op.revise r).accessTimestamps = r.accessTimestamps := by
  cases op with
  | incrementAccess | incrementAccessBatch => cases h
  | _ => exact ⟨rfl, rfl⟩

theorem Op.revise_access {op : Op} {now : ℚ} (h : op.accessTime = some now) (r : Record) :
    op.revise r = r.access now := by
  cases op with
  | incrementAccess | incrementAccessBatch =>
    obtain rfl := Option.some.inj h
    rfl
  | _ => cases h

/-- A write that is not an increment leaves the count and the timestamps of its point. -/
theorem accesses_land {op : Op} {mine : String} {cell : Option Payload} {p : Payload}
    (h : op.land mine cell = some p) (hop : op.accessTime = none) :
    accessCount (some p) = accessCount cell ∧
      accessTimestamps (some p) = accessTimestamps cell := by
  cases cell with
  | none =>
    obtain ⟨params, ctx, mode, rfl, hrecord⟩ := record_of_created (created_of_land h)
    exact ⟨congrArg Record.accessCount hrecord, congrArg Record.accessTimestamps hrecord⟩
  | some q =>
    have hrecord := record_of_landing (landing_of_land h)
    obtain ⟨hcount, htimes⟩ := Op.revise_accesses hop q.record
    exact ⟨(congrArg Record.accessCount hrecord).trans hcount,
      (congrArg Record.accessTimestamps hrecord).trans htimes⟩

/-- An increment counts one access of the payload it lands on. -/
theorem access_land {op : Op} {mine : String} {cell : Option Payload} {p : Payload} {now : ℚ}
    (h : op.land mine cell = some p) (hop : op.accessTime = some now) :
    accessCount (some p) = accessCount cell + 1 ∧
      accessTimestamps (some p) =
        Recent.keepLast maxAccessTimestamps (accessTimestamps cell ++ [now]) := by
  cases cell with
  | none =>
    obtain ⟨params, ctx, mode, rfl, -⟩ := record_of_created (created_of_land h)
    cases hop
  | some q =>
    have hrecord := record_of_landing (landing_of_land h)
    rw [Op.revise_access hop] at hrecord
    refine ⟨congrArg Record.accessCount hrecord, ?_⟩
    rw [← capTimestamps_eq]
    exact congrArg Record.accessTimestamps hrecord

/-! ### Over a history without a delete -/

/-- **The accesses of a point add up.** -/
theorem accesses_run {c cell : Option Payload} {evs : List CellEvent} (h : Run CellStep c evs cell)
    (hkept : CellEvent.erase ∉ evs) :
    accessCount cell = accessCount c + .ofNat (evs.filterMap CellEvent.accessTime).length ∧
      accessTimestamps cell =
        keptTimestamps (accessTimestamps c) (evs.filterMap CellEvent.accessTime) := by
  induction evs using List.reverseRecOn generalizing cell with
  | nil =>
    obtain rfl := Run.eq_of_nil h
    simp [keptTimestamps]
  | append_singleton evs ev ih =>
    obtain ⟨mid, hrun, hstep⟩ := Run.last h
    rw [List.mem_append, not_or] at hkept
    obtain ⟨hcount, htimes⟩ := ih hrun hkept.1
    cases hstep with
    | erase => simp at hkept
    | @write op mine _ p hland =>
      cases hop : op.accessTime with
      | none =>
        obtain ⟨hsame, hsame'⟩ := accesses_land hland hop
        rw [hsame, hsame', hcount, htimes]
        simp [CellEvent.accessTime, hop]
      | some now =>
        obtain ⟨hone, hcap⟩ := access_land hland hop
        have hevs : (evs ++ [CellEvent.write op mine]).filterMap CellEvent.accessTime =
            evs.filterMap CellEvent.accessTime ++ [now] := by
          simp [CellEvent.accessTime, hop]
        rw [hone, hcap, hcount, htimes, hevs, keptTimestamps_concat]
        refine ⟨?_, rfl⟩
        rw [List.length_append, List.length_singleton, UInt64.ofNat_add, UInt64.add_assoc]
        rfl

/-! ### What the calls report -/

/-- What a call reports of a point that was never deleted is how often it applied. -/
theorem counted_of_story {tr : List Event} {task : TaskId} {t : Task} (h : Story tr task t)
    {id : PointId} {outcome : Outcome} {update : Update} (hkept : Event.erased id ∉ tr)
    (hret : t.progress.phase = .returned (.ok outcome)) (hmem : (id, update) ∈ outcome) :
    update.Counted (applications task id tr) := by
  have hstage : (id, Stage.settled update) ∈ t.stages := by
    simp only [Task.stages, hret]
    exact List.mem_map.mpr ⟨(id, update), hmem, rfl⟩
  have hallows := h.allows _ hstage
  rw [applications_eq hkept]
  cases update with
  | landed payload created =>
    obtain herased | ⟨mine, hone⟩ := hallows
    · exact absurd herased hkept
    · show (standing task id tr).length = 1
      rw [show standing task id tr = [mine] from hone]
      rfl
  | skipped => exact congrArg List.length (show standing task id tr = [] from hallows)
  | absent => exact congrArg List.length (show standing task id tr = [] from hallows)
  | deleted => trivial
  | unconfirmed why =>
    cases why with
    | lostRaces => exact congrArg List.length (show standing task id tr = [] from hallows)
    | sendFailed | lostTrack => trivial

/-- **No access is lost or counted twice.**  In every run of any number of processes, a point that is
not deleted ends with its count plus the number of increments applied to it and with the last hundred
timestamps of all; no other write changes either; and a call that reports its increment landed
applied it once, one that reports it skipped, absent or out of races not at all. -/
theorem access_count_kept {s : Start} {tr : List Event} {w : World} (hrun : Runs s.world tr w)
    (id : PointId) (hkept : Event.erased id ∉ tr) :
    (accessCount (w.points id) = accessCount (s.points id) + .ofNat (accesses id tr).length ∧
      accessTimestamps (w.points id) =
        keptTimestamps (accessTimestamps (s.points id)) (accesses id tr)) ∧
    (∀ task op write before after, Event.wrote task op write before after ∈ tr →
      write.id = id → op.accessTime = none →
      accessCount (some after) = accessCount before ∧
        accessTimestamps (some after) = accessTimestamps before) ∧
    ∀ task t outcome update, w.tasks task = some t →
      t.progress.phase = .returned (.ok outcome) → (id, update) ∈ outcome →
      update.Counted (applications task id tr) := by
  refine ⟨?_, ?_, ?_⟩
  · exact accesses_run (cell_run s.inv hrun id) (by simpa using hkept)
  · intro task op write before after he _ hop
    obtain ⟨a, b, rfl⟩ := List.append_of_mem he
    obtain ⟨m, m', ha, hstep, -⟩ := hrun.split_at
    obtain ⟨hland, -, -⟩ := land_of_wrote (s.inv.run ha) (change_of_step hstep)
    exact accesses_land hland hop
  · intro task t outcome update ht hret hmem
    exact counted_of_story ((story_run s hrun).tasks task t ht) hkept hret hmem

/-- Two processes count an access of one memory at the same time: the second loses its first race
and counts in its second round. -/
def accessRace : List Action :=
  [.spawn 0 1 aStore, .read 0, .send 0, .readBack 0,
    .spawn 1 2 (.incrementAccess aHash 1), .spawn 2 3 (.incrementAccess aHash 2),
    .read 1, .read 2, .send 1, .send 2, .readBack 1, .readBack 2,
    .read 2, .send 2, .readBack 2]

theorem access_count_kept_race : ∃ tr w, Runs emptyStart.world tr w ∧
    accesses aPoint tr = [1, 2] ∧ accessCount (w.points aPoint) = 2 ∧
    accessTimestamps (w.points aPoint) = [1, 2] := by
  have hrace : (exec World.step emptyStart.world accessRace).map (fun x =>
      (accesses aPoint x.1, decide (Event.erased aPoint ∈ x.1))) = some ([1, 2], false) := by
    decide +kernel
  obtain ⟨⟨tr, w⟩, hexec, hx⟩ := Option.map_eq_some_iff.mp hrace
  obtain ⟨haccesses, hkept⟩ := Prod.mk.inj hx
  have hrun : Runs emptyStart.world tr w := run_of_exec hexec
  obtain ⟨⟨hcount, htimes⟩, -, -⟩ := access_count_kept hrun aPoint (of_decide_eq_false hkept)
  rw [haccesses] at hcount htimes
  exact ⟨tr, w, hrun, haccesses, hcount, htimes⟩

end Alaya
