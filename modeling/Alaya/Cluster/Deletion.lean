import Alaya.Cluster.History
import Alaya.Cluster.Record

/-!
# What a delete leaves behind

A deleted memory is gone until a store inserts its own fresh payload, and from there on the point is
what the writes since make of it: `rewritten` replays them from nothing.  No payload, and no field of
the server's record, goes back to a copy read before the delete, however many writers held one.
-/

namespace Alaya

open Json Labelled

/-- What a point holds after one event, given what it held. -/
def CellEvent.rewrite (cell : Option Payload) : CellEvent → Option Payload
  | .write op mine => op.land mine cell
  | .erase => none

/-- What a point that was absent holds after a history. -/
def rewritten (evs : List CellEvent) : Option Payload := evs.foldl CellEvent.rewrite none

/-- The record of a point that was absent, after a history. -/
def recorded (evs : List CellEvent) : Option Record := evs.foldl CellEvent.replay none

theorem rewrite_of_cellStep {cell cell' : Option Payload} {ev : CellEvent}
    (h : CellStep cell ev cell') : cell' = CellEvent.rewrite cell ev := by
  cases h with
  | write hland => exact hland.symm
  | erase => rfl

/-- **A point is its history replayed**, from what it held at the start. -/
theorem rewrite_run {c cell : Option Payload} {evs : List CellEvent} (h : Run CellStep c evs cell) :
    cell = evs.foldl CellEvent.rewrite c :=
  h.invariant (fun evs cell => cell = evs.foldl CellEvent.rewrite c) rfl
    fun evs cell ev cell' _ ih hstep => by
      rw [List.foldl_concat, ← ih, rewrite_of_cellStep hstep]

/-- The first event on an absent point is a store that inserts its own payload. -/
theorem created_first {cell : Option Payload} {ev : CellEvent} {evs : List CellEvent}
    (h : Run CellStep none (ev :: evs) cell) :
    ∃ params ctx mode mine, ev = .write (.store params ctx mode) mine ∧
      CellEvent.rewrite none ev =
        some (stamp mine (memoryToPayload (params.memory ctx)) none) ∧
      CellEvent.replay none ev = some (.fresh ctx.now) := by
  obtain ⟨mid, hfirst, -⟩ := Run.split (a := [ev]) (b := evs) h
  obtain ⟨c, hnil, hstep⟩ := (show Run CellStep none ([] ++ [ev]) mid from hfirst).last
  obtain rfl := Run.eq_of_nil hnil
  cases hstep with
  | @write op mine _ p hland =>
    cases created_of_land hland with
    | @store params ctx mode _ hvalid =>
      exact ⟨params, ctx, mode, mine, rfl, hland, rfl⟩

/-- **A deleted memory is not brought back.**  After a delete the point holds what the later writes
make of nothing, and its record is theirs; as long as none was applied it is absent, and the first
that was is a store's insert of its own fresh payload. -/
theorem deleted_not_revived {s : Start} {a b : List Event} {id : PointId} {w : World}
    (hrun : Runs s.world (a ++ .erased id :: b) w) :
    w.points id = rewritten (cellEvents id b) ∧
      (w.points id).map Payload.record = recorded (cellEvents id b) ∧
      (cellEvents id b = [] ∧ w.points id = none ∨
        ∃ params ctx mode mine later,
          cellEvents id b = .write (.store params ctx mode) mine :: later ∧
          w.points id = later.foldl CellEvent.rewrite
            (some (stamp mine (memoryToPayload (params.memory ctx)) none)) ∧
          (w.points id).map Payload.record =
            later.foldl CellEvent.replay (some (.fresh ctx.now))) := by
  obtain ⟨m, m', ha, hstep, hb⟩ := hrun.split_at
  have hgone : m'.points id = none := by
    cases change_of_step hstep with
    | erased _ => exact World.points_setPoint_self ..
  have hinv : m'.Inv := (s.inv.run ha).step (change_of_step hstep)
  have hcell := cell_run hinv hb id
  rw [hgone] at hcell
  have hpayload := rewrite_run hcell
  have hrecord := record_run hcell
  refine ⟨hpayload, hrecord, ?_⟩
  cases hevs : cellEvents id b with
  | nil =>
    rw [hevs] at hpayload
    exact .inl ⟨rfl, hpayload⟩
  | cons ev evs =>
    rw [hevs] at hcell hpayload hrecord
    obtain ⟨params, ctx, mode, mine, rfl, hfirst, hfresh⟩ := created_first hcell
    refine .inr ⟨params, ctx, mode, mine, evs, rfl, ?_, ?_⟩
    · rw [hpayload, List.foldl_cons, hfirst]
    · rw [hrecord, List.foldl_cons, Option.map_none, hfresh]

/-- An increment reads a memory that was accessed once, the memory is deleted and stored again, and
the increment is sent: it does not apply, and the new memory was never accessed. -/
def staleAccess : List Action :=
  [.spawn 0 1 aStore, .read 0, .send 0, .readBack 0,
    .spawn 1 2 (.incrementAccess aHash 1), .read 1, .send 1, .readBack 1,
    .spawn 2 3 (.incrementAccess aHash 2), .read 2, .delete aHash,
    .spawn 3 4 aStore, .read 3, .send 3, .send 2]

theorem deleted_not_revived_stale : ∃ a b w,
    Runs emptyStart.world (a ++ .erased aPoint :: b) w ∧
      w.points aPoint = some (insertOf 4).payload ∧
      (w.points aPoint).map Payload.record = some (.fresh 0) := by
  have hstale : (exec World.step emptyStart.world staleAccess).map (fun x =>
      (decide (x.1.drop 10 = .erased aPoint :: x.1.drop 11), cellEvents aPoint (x.1.drop 11))) =
        some (true, [.write aStore (token 4 0)]) := by
    decide +kernel
  obtain ⟨⟨tr, w⟩, hexec, hx⟩ := Option.map_eq_some_iff.mp hstale
  obtain ⟨hdrop, hevs⟩ := Prod.mk.inj hx
  have hrun : Runs emptyStart.world tr w := run_of_exec hexec
  rw [← List.take_append_drop 10 tr, of_decide_eq_true hdrop] at hrun
  obtain ⟨hpayload, hrecord, -⟩ := deleted_not_revived hrun
  rw [hevs] at hpayload hrecord
  refine ⟨_, _, w, hrun, hpayload.trans ?_, hrecord⟩
  decide +kernel

end Alaya
