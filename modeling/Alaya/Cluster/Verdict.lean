import Alaya.Cluster.Cell

/-!
# What a read-back can tell

`landed` judges from the log of the point, as read back, whether a write applied.  In every run of
any number of processes its verdict is `Sound` except in one case, `Misjudged`: the write was
conditional on no revision, it applied, the point was deleted after it and created again, and fewer
than `revLogLen` writes have reached the new point.  The new log is then short, so `reachesBack`
takes it for the whole history, and the verdict is `no`.
-/

namespace Alaya

open Json Labelled

/-- The write was applied to its point. -/
def Applied (tr : List Event) (write : Write) : Prop :=
  ∃ task op before after, Event.wrote task op write before after ∈ tr

/-- The write was applied and its point deleted after it. -/
def AppliedThenErased (tr : List Event) (write : Write) : Prop :=
  ∃ a b task op before after, tr = a ++ .wrote task op write before after :: b ∧
    .erased write.id ∈ b

/-- A verdict on a write, after `past` and in the run `tr`: `yes` only when it was applied, `no` only
when it never is, and neither when it was applied and then deleted. -/
structure Sound (past tr : List Event) (write : Write) (verdict : Landed) : Prop where
  yes : verdict = .yes → Applied past write
  no : verdict = .no → ¬Applied tr write
  erased : AppliedThenErased past write → verdict = .unknown ∨ verdict = .gone

/-- A write on no revision, applied and then deleted, judged by the log of a point created since that
few writes have reached. -/
def Misjudged (past : List Event) (write : Write) (found : Option Payload) : Prop :=
  write.readRev = none ∧ AppliedThenErased past write ∧
    ∃ p, found = some p ∧ p.revTokens.length < revLogLen

theorem AppliedThenErased.applied {tr : List Event} {write : Write}
    (h : AppliedThenErased tr write) : Applied tr write := by
  obtain ⟨a, b, task, op, before, after, rfl, -⟩ := h
  exact ⟨task, op, before, after, by simp⟩

theorem revTokens_restrict_back (call : UpdateCall) (p : Payload) :
    (restrict call.backKeys p).revTokens = p.revTokens := by
  have hlog : (restrict call.backKeys p).revLog = p.revLog := by
    unfold UpdateCall.backKeys
    cases call.commit with
    | payload how batch => exact revLog_restrict call p
    | upsert insert =>
      simp only [restrict, Payload.revLog]
      rw [Object.get_only_of_mem (by simp)]
  simp [Payload.revTokens, hlog]

section

variable {s : Start} {past future : List Event} {task : TaskId} {op : Op} {write : Write}
  {found : Option Payload} {w : World}

/-- What a read-back saw: the point as the writes and deletes before it left it, after a write that
was evaluated. -/
theorem readBack_view (hrun : Runs s.world (past ++ .readBack task op write found :: future) w) :
    (task, op, write) ∈ evaluations past ∧
      ∃ cell, Run CellStep (s.points write.id) (cellEvents write.id past) cell ∧
        (found = none ↔ cell = none) ∧
        ∀ q, found = some q → ∃ p, cell = some p ∧ q.revTokens = p.revTokens := by
  obtain ⟨m, m', hpast, hstep, -⟩ := hrun.split_at
  have hanswered := answered_run s hpast
  cases change_of_step hstep with
  | @readBack _ t left _ lost ht hphase =>
    refine ⟨hanswered.answered task t ht write (by simp [Task.answered, hphase]), _,
      cell_run s.inv hpast write.id, by simp [World.view], fun q hq => ?_⟩
    obtain ⟨p, hp, rfl⟩ := Option.map_eq_some_iff.mp hq
    exact ⟨p, hp, revTokens_restrict_back t.call p⟩

/-- A write that was evaluated before and is applied at all was applied before. -/
theorem applied_past {tr : List Event}
    (hrun : Runs s.world (past ++ tr) w) (heval : (task, op, write) ∈ evaluations past)
    (h : Applied (past ++ tr) write) : Applied past write := by
  obtain ⟨task', op', before, after, he⟩ := h
  rcases List.mem_append.mp he with hearly | hlate
  · exact ⟨task', op', before, after, hearly⟩
  · exfalso
    obtain ⟨e, hmem, hev⟩ := List.mem_filterMap.mp heval
    obtain ⟨a, b, rfl⟩ := List.append_of_mem hmem
    rw [List.append_assoc, List.cons_append] at hrun
    have hlater := mem_evaluations_of_wrote hlate
    refine evaluated_once s.inv hrun hev (task', op', write) ?_ rfl
    rw [evaluations_append]
    exact List.mem_append_right _ hlater

/-- A write that was evaluated and whose token is in the log was applied. -/
theorem wrote_of_shown {p : Payload} (hrun : Runs s.world past w)
    (heval : (task, op, write) ∈ evaluations past)
    (hcell : Run CellStep (s.points write.id) (cellEvents write.id past) (some p))
    (hmine : write.mine ∈ p.revTokens) :
    ∃ before after, Event.wrote task op write before after ∈ past := by
  rcases shown_origin hcell hmine with ⟨a, op', b, hev, -⟩ | ⟨-, p₀, hp₀, hold⟩
  · have hmem : CellEvent.write op' write.mine ∈ cellEvents write.id past := by simp [hev]
    obtain ⟨task', write', before, after, he, -, heq⟩ := mem_cellEvents_write.mp hmem
    cases evaluations_inj s.inv hrun heval (mem_evaluations_of_wrote he) heq.symm
    exact ⟨before, after, he⟩
  · -- a token shown before the run is past, and was never evaluated
    have hold := s.inv.shown _ p₀ hp₀ _ (List.mem_append_right _ hold)
    exact absurd rfl ((not_evaluated_of_past s.inv hold hrun).2 _ heval)

/-- The token of a write that was applied and then deleted is not in the log any more. -/
theorem not_shown_of_erased {tr : List Event} {p : Payload} (hrun : Runs s.world tr w)
    (h : AppliedThenErased tr write)
    (hcell : Run CellStep (s.points write.id) (cellEvents write.id tr) (some p)) :
    write.mine ∉ p.revTokens := by
  obtain ⟨a, b, task', op', before, after, rfl, herased⟩ := h
  intro hshown
  have honce := evaluated_once s.inv hrun
    (show Event.evaluated (.wrote task' op' write before after) = some (task', op', write) from rfl)
  rw [cellEvents_append, cellEvents_wrote, List.append_cons] at hcell
  obtain ⟨x, hx, hmine⟩ :=
    mem_cellTokens (shown_after_erase hcell (mem_cellEvents_erase.mpr herased) hshown)
  exact honce x hx hmine

/-- **The verdict on a write conditional on a revision, or never deleted, is sound.**  Its token and
the one it was conditional on are in the log together, or eight writes have come after it. -/
theorem not_applied_of_no (hrun : Runs s.world past w)
    {p : Payload} (hcell : Run CellStep (s.points write.id) (cellEvents write.id past) (some p))
    (hmine : write.mine ∉ p.revTokens) (hreach : reachesBack write.readRev p.revTokens = true)
    (happlied : Applied past write) :
    write.readRev = none ∧ AppliedThenErased past write := by
  obtain ⟨task', op', before, after, he⟩ := happlied
  obtain ⟨a, b, rfl⟩ := List.append_of_mem he
  have hev : Event.evaluated (.wrote task' op' write before after) = some (task', op', write) := rfl
  have hpast : ∀ r, write.readRev = some r → ∀ y ∈ evaluations b, y.2.2.mine ≠ r :=
    fun r hr => readRev_not_evaluated s.inv hrun hev hr
  rw [cellEvents_append, cellEvents_wrote] at hcell
  by_cases herased : .erased write.id ∈ b
  · refine ⟨?_, a, b, task', op', before, after, rfl, herased⟩
    cases hr : write.readRev with
    | none => rfl
    | some r =>
      -- the revision it was conditional on would have been stamped after the delete
      exfalso
      have hshown : r ∈ p.revTokens := by simpa [reachesBack, hr] using hreach
      rw [List.append_cons] at hcell
      obtain ⟨x, hx, heq⟩ :=
        mem_cellTokens (shown_after_erase hcell (mem_cellEvents_erase.mpr herased) hshown)
      exact hpast r hr x hx heq
  · exfalso
    obtain ⟨q, base, hq, hlog⟩ := revLog_since hcell (by simpa using herased)
    obtain rfl := Option.some.inj hq
    have hmissing : Value.string write.mine ∉ Recent.keepLast revLogLen
        (base ++ .string write.mine :: (cellTokens (cellEvents write.id b)).map .string) := by
      rw [← hlog]
      exact fun hmem => hmine (List.mem_filterMap.mpr ⟨_, hmem, rfl⟩)
    obtain ⟨hsuf, hlen⟩ := Recent.after_missing hmissing
    rw [← hlog] at hsuf hlen
    obtain ⟨l, hl⟩ := List.suffix_map_iff.mp hsuf
    have htokens : p.revTokens = l := by
      simp only [Payload.revTokens, hl.2, List.filterMap_map]
      exact List.filterMap_some
    cases hr : write.readRev with
    | none =>
      have hfull : l.length = revLogLen := by rw [← hlen, hl.2, List.length_map]
      simp [reachesBack, hr, htokens, hfull] at hreach
    | some r =>
      have hshown : r ∈ l := by simpa [reachesBack, hr, htokens] using hreach
      obtain ⟨x, hx, heq⟩ := mem_cellTokens (hl.1.subset hshown)
      exact hpast r hr x hx heq

/-- **The verdict of a read-back.**  In every run, each verdict of `landed` is sound for the write it
judges if and only if the write is not one conditional on no revision that was applied, deleted and
followed by a new point with a short log. -/
theorem landed_sound_iff
    (hrun : Runs s.world (past ++ .readBack task op write found :: future) w) :
    Sound past (past ++ .readBack task op write found :: future) write
      (landed write.readRev found write.mine) ↔ ¬Misjudged past write found := by
  obtain ⟨heval, cell, hcell, hnone, hsome⟩ := readBack_view hrun
  obtain ⟨m, m', hpast, -, -⟩ := hrun.split_at
  cases found with
  | none => exact ⟨fun _ h => by simp [Misjudged] at h, fun _ =>
      ⟨fun h => by simp [landed] at h, fun h => by simp [landed] at h, fun _ => .inr rfl⟩⟩
  | some q =>
    obtain ⟨p, rfl, hq⟩ := hsome q rfl
    by_cases hmine : write.mine ∈ p.revTokens
    · -- the token is there: the write was applied, and the point not deleted since
      have hyes : landed write.readRev (some q) write.mine = .yes := by simp [landed, hq, hmine]
      have hnot : ¬AppliedThenErased past write := fun h =>
        not_shown_of_erased hpast h hcell hmine
      refine ⟨fun _ h => hnot h.2.1, fun _ => ⟨fun _ => ?_, fun h => ?_, fun h => (hnot h).elim⟩⟩
      · obtain ⟨before, after, he⟩ := wrote_of_shown hpast heval hcell hmine
        exact ⟨task, op, before, after, he⟩
      · rw [hyes] at h
        cases h
    · by_cases hreach : reachesBack write.readRev p.revTokens = true
      · have hno : landed write.readRev (some q) write.mine = .no := by
          simp [landed, hq, hmine, hreach]
        refine ⟨fun hsound h => ?_, fun hok => ⟨fun h => ?_, fun _ happ => ?_, fun herased => ?_⟩⟩
        · rcases hsound.erased h.2.1 with h | h <;> rw [hno] at h <;> cases h
        · rw [hno] at h
          cases h
        · obtain ⟨hrev, herased⟩ :=
            not_applied_of_no hpast hcell hmine hreach (applied_past hrun heval happ)
          refine hok ⟨hrev, herased, q, rfl, ?_⟩
          simpa [reachesBack, hrev, ← hq] using hreach
        · obtain ⟨hrev, -⟩ := not_applied_of_no hpast hcell hmine hreach herased.applied
          refine (hok ⟨hrev, herased, q, rfl, ?_⟩).elim
          simpa [reachesBack, hrev, ← hq] using hreach
      · have hunknown : landed write.readRev (some q) write.mine = .unknown := by
          simp [landed, hq, hmine, hreach]
        refine ⟨fun _ h => hreach ?_, fun _ => ⟨fun h => ?_, fun h => ?_, fun _ => .inl hunknown⟩⟩
        · obtain ⟨hrev, -, q', hq', hlen⟩ := h
          obtain rfl := Option.some.inj hq'
          simpa [reachesBack, hrev, hq] using hlen
        · rw [hunknown] at h
          cases h
        · rw [hunknown] at h
          cases h

end

/-! ### A verdict that is wrong -/

/-- A first process inserts the memory, it is deleted and a second process inserts it again, before
the first reads its write back. -/
def recreated : List Event :=
  [.quiet, .quiet, .read 0 0 aPoint none, .wrote 0 aStore (insertOf 1) none (insertOf 1).payload,
    .erased aPoint, .read 1 0 aPoint none, .wrote 1 aStore (insertOf 2) none (insertOf 2).payload]

/-- What the first process reads back. -/
def recreatedBack : Payload := (insertOf 2).payload.only [revKey, revLogKey]

theorem recreated_run : ∃ w, Runs emptyStart.world
    (recreated ++ .readBack 0 aStore (insertOf 1) (some recreatedBack) :: []) w :=
  run_of_trace [.spawn 0 1 aStore, .spawn 1 2 aStore, .read 0, .send 0, .delete aHash,
    .read 1, .send 1, .readBack 0] (by decide +kernel)

theorem recreated_misjudged : Misjudged recreated (insertOf 1) (some recreatedBack) :=
  ⟨rfl, ⟨recreated.take 3, recreated.drop 4, 0, aStore, none, (insertOf 1).payload, rfl,
    by decide +kernel⟩, recreatedBack, rfl, by decide +kernel⟩

/-- A fresh insert that was applied is judged `no` after a delete and a re-create. -/
theorem landed_no_of_applied : ∃ (past : List Event) (task : TaskId) (op : Op) (write : Write)
    (found : Option Payload) (w : World),
    Runs emptyStart.world (past ++ .readBack task op write found :: []) w ∧
      landed write.readRev found write.mine = .no ∧ Applied past write ∧
      ¬Sound past (past ++ .readBack task op write found :: []) write
        (landed write.readRev found write.mine) := by
  obtain ⟨w, hrun⟩ := recreated_run
  have hno : landed (insertOf 1).readRev (some recreatedBack) (insertOf 1).mine = .no := by
    decide +kernel
  refine ⟨recreated, 0, aStore, insertOf 1, some recreatedBack, w, hrun, hno,
    recreated_misjudged.2.1.applied, fun h => ?_⟩
  rcases h.erased recreated_misjudged.2.1 with h | h <;> rw [hno] at h <;> cases h

/-- The verdict of a store that nothing comes between is sound. -/
theorem landed_sound_undisturbed : ∃ past write found w,
    Runs emptyStart.world (past ++ .readBack 0 aStore write found :: []) w ∧
      landed write.readRev found write.mine = .yes ∧
      Sound past (past ++ .readBack 0 aStore write found :: []) write
        (landed write.readRev found write.mine) := by
  obtain ⟨w, hrun⟩ : ∃ w, Runs emptyStart.world
      ([.quiet, .read 0 0 aPoint none, .wrote 0 aStore (insertOf 1) none (insertOf 1).payload] ++
        .readBack 0 aStore (insertOf 1) (some ((insertOf 1).payload.only [revKey, revLogKey])) ::
          []) w :=
    run_of_trace [.spawn 0 1 aStore, .read 0, .send 0, .readBack 0] (by decide +kernel)
  refine ⟨_, _, _, w, hrun, by decide +kernel, (landed_sound_iff hrun).mpr fun h => ?_⟩
  obtain ⟨-, ⟨a, b, task', op', before, after, heq, herased⟩, -⟩ := h
  have hmem : Event.erased aPoint ∈
      ([.quiet, .read 0 0 aPoint none, .wrote 0 aStore (insertOf 1) none (insertOf 1).payload] :
        List Event) := by
    rw [heq]
    exact List.mem_append_right _ (List.mem_cons_of_mem _ herased)
  revert hmem
  decide +kernel

end Alaya
