import Alaya.Cluster.History
import Alaya.Cluster.Landing

/-!
# The history of one point

A point's `rev_log` is the capped end of its history since it was last created: what it still shows
tells which writes came after which.  `revLog_since` says what the log is after a write, `shown_origin`
where a token the log shows came from, and the lemmas on `cellEvents` carry both to the trace of a
run.
-/

namespace Alaya

open Json Labelled

/-- The token of a write. -/
def CellEvent.mine : CellEvent → Option String
  | .write _ mine => some mine
  | .erase => none

/-- The tokens written in a history, oldest first. -/
def cellTokens (evs : List CellEvent) : List String := evs.filterMap CellEvent.mine

theorem Op.revLog_land {op : Op} {mine : String} {cell : Option Payload} {p : Payload}
    (h : op.land mine cell = some p) :
    p.revLog =
      Recent.keepLast revLogLen ((cell.map Payload.revLog).getD [] ++ [.string mine]) := by
  obtain ⟨call, -, h⟩ := Op.land_eq_some.mp h
  exact UpdateCall.revLog_land h

/-! ### The log of a point -/

/-- After a write and no delete the point is there, and its log holds that write's token and all
later ones, capped. -/
theorem revLog_since {c cell : Option Payload} {a b : List CellEvent} {op : Op} {mine : String}
    (h : Run CellStep c (a ++ .write op mine :: b) cell) (hb : CellEvent.erase ∉ b) :
    ∃ p base, cell = some p ∧ p.revLog =
      Recent.keepLast revLogLen (base ++ .string mine :: (cellTokens b).map .string) := by
  induction b using List.reverseRecOn generalizing cell with
  | nil =>
    obtain ⟨_, -, hstep⟩ := Run.last h
    cases hstep with
    | write hland => exact ⟨_, _, rfl, Op.revLog_land hland⟩
  | append_singleton b ev ih =>
    rw [← List.cons_append, ← List.append_assoc] at h
    obtain ⟨_, hrun, hstep⟩ := Run.last h
    rw [List.mem_append, not_or] at hb
    obtain ⟨q, base, rfl, hq⟩ := ih hrun hb.1
    cases hstep with
    | erase => simp at hb
    | write hland =>
      refine ⟨_, base, rfl, ?_⟩
      rw [Op.revLog_land hland, Option.map_some, Option.getD_some, hq, Recent.keepLast_append]
      simp [cellTokens, CellEvent.mine]

/-- A token the log shows was written since the last delete, or was there before the history. -/
theorem shown_origin {c : Option Payload} {evs : List CellEvent} {p : Payload} {r : String}
    (h : Run CellStep c evs (some p)) (hr : r ∈ p.revTokens) :
    (∃ a op b, evs = a ++ .write op r :: b ∧ CellEvent.erase ∉ b) ∨
      CellEvent.erase ∉ evs ∧ ∃ q, c = some q ∧ r ∈ q.revTokens := by
  induction evs using List.reverseRecOn generalizing p with
  | nil =>
    have hp := Run.eq_of_nil h
    exact .inr ⟨by simp, p, hp.symm, hr⟩
  | append_singleton evs ev ih =>
    obtain ⟨cell, hrun, hstep⟩ := Run.last h
    cases hstep with
    | @write op mine _ _ hland =>
      obtain ⟨call, -, hland⟩ := Op.land_eq_some.mp hland
      rcases World.seen_of_land hland (List.mem_append_right _ hr) with rfl | ⟨q, rfl, hq⟩
      · exact .inl ⟨evs, op, [], rfl, by simp⟩
      · rcases ih hrun hq with ⟨a, op', b, rfl, hb⟩ | ⟨hevs, hc⟩
        · refine .inl ⟨a, op', b ++ [.write op mine], by simp, ?_⟩
          simpa using hb
        · exact .inr ⟨by simpa using hevs, hc⟩

/-- Past a delete the log shows only tokens written since. -/
theorem shown_after_erase {c : Option Payload} {a b : List CellEvent} {p : Payload} {r : String}
    (h : Run CellStep c (a ++ b) (some p)) (hb : CellEvent.erase ∈ b) (hr : r ∈ p.revTokens) :
    r ∈ cellTokens b := by
  rcases shown_origin h hr with ⟨c, op, d, heq, hd⟩ | ⟨hno, -⟩
  · have hd' : .write op r :: d <:+ a ++ b := ⟨c, heq.symm⟩
    have hb' : b <:+ a ++ b := List.suffix_append a b
    rcases Nat.lt_or_ge d.length b.length with hlt | hge
    · have hsuf := List.suffix_of_suffix_length_le hd' hb' hlt
      exact List.mem_filterMap.mpr ⟨_, hsuf.subset List.mem_cons_self, rfl⟩
    · have hsuf := List.suffix_of_suffix_length_le hb' ((List.suffix_cons _ _).trans hd') hge
      exact absurd (hsuf.subset hb) hd
  · exact absurd (List.mem_append_right a hb) hno

/-! ### The history of a point in a trace -/

theorem mem_cellEvents_write {id : PointId} {tr : List Event} {op : Op} {mine : String} :
    .write op mine ∈ cellEvents id tr ↔ ∃ task write before after,
      Event.wrote task op write before after ∈ tr ∧ write.id = id ∧ write.mine = mine := by
  constructor
  · intro h
    obtain ⟨e, he, hcell⟩ := List.mem_filterMap.mp h
    cases e with
    | wrote task op' write before after =>
      simp only [Event.cell, Option.ite_none_right_eq_some, Option.some.injEq,
        CellEvent.write.injEq] at hcell
      obtain ⟨hid, rfl, hmine⟩ := hcell
      exact ⟨task, write, before, after, he, hid, hmine⟩
    | erased id' => simp [Event.cell] at hcell
    | _ => cases hcell
  · rintro ⟨task, write, before, after, he, hid, hmine⟩
    exact List.mem_filterMap.mpr ⟨_, he, by simp [Event.cell, hid, hmine]⟩

@[simp] theorem mem_cellEvents_erase {id : PointId} {tr : List Event} :
    CellEvent.erase ∈ cellEvents id tr ↔ Event.erased id ∈ tr := by
  constructor
  · intro h
    obtain ⟨e, he, hcell⟩ := List.mem_filterMap.mp h
    cases e with
    | wrote task op' write before after => simp [Event.cell] at hcell
    | erased id' =>
      simp only [Event.cell, Option.ite_none_right_eq_some] at hcell
      rwa [← hcell.1]
    | _ => cases hcell
  · exact fun h => List.mem_filterMap.mpr ⟨_, h, by simp [Event.cell]⟩

theorem cellEvents_wrote (task : TaskId) (op : Op) (write : Write) (before : Option Payload)
    (after : Payload) (tr : List Event) :
    cellEvents write.id (.wrote task op write before after :: tr) =
      .write op write.mine :: cellEvents write.id tr := by
  simp [cellEvents, Event.cell]

/-- A write in the history of a point is a write of the trace, and what follows it follows it there. -/
theorem cellEvents_split {id : PointId} {tr : List Event} {a b : List CellEvent} {op : Op}
    {mine : String} (h : cellEvents id tr = a ++ .write op mine :: b) :
    ∃ tr₁ task write before after tr₂, tr = tr₁ ++ .wrote task op write before after :: tr₂ ∧
      write.id = id ∧ write.mine = mine ∧ cellEvents id tr₂ = b := by
  obtain ⟨tr₁, rest, rfl, -, hrest⟩ := List.filterMap_eq_append_iff.mp h
  obtain ⟨quiet, e, tr₂, rfl, -, hcell, hb⟩ := List.filterMap_eq_cons_iff.mp hrest
  cases e with
  | wrote task op' write before after =>
    simp only [Event.cell, Option.ite_none_right_eq_some, Option.some.injEq,
      CellEvent.write.injEq] at hcell
    obtain ⟨hid, rfl, hmine⟩ := hcell
    exact ⟨tr₁ ++ quiet, task, write, before, after, tr₂, (List.append_assoc ..).symm, hid, hmine, hb⟩
  | erased id' => simp [Event.cell] at hcell
  | _ => cases hcell

theorem mem_cellTokens {id : PointId} {tr : List Event} {r : String}
    (h : r ∈ cellTokens (cellEvents id tr)) : ∃ x ∈ evaluations tr, x.2.2.mine = r := by
  obtain ⟨ev, hev, hmine⟩ := List.mem_filterMap.mp h
  cases ev with
  | erase => cases hmine
  | write op mine =>
    obtain ⟨task, write, before, after, he, -, rfl⟩ := mem_cellEvents_write.mp hev
    exact ⟨(task, op, write), mem_evaluations_of_wrote he, Option.some.inj hmine⟩

end Alaya
