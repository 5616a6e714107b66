import Alaya.Cluster.Verdict

/-!
# What a call left on a point

`standing task id tr` lists the writes of a call that a point still holds: those applied to it since
its last delete.  The lemmas here tie it to the trace, to the point and to the verdict of a
read-back: a write judged `yes` stands, a write judged `no` does not, and nothing stands on a point
that is gone.
-/

namespace Alaya

open Json Labelled

/-- The standing writes after an event. -/
def Event.stand (task : TaskId) (id : PointId) (standing : List String) : Event → List String
  | .wrote task' _ write _ _ =>
    if task' = task ∧ write.id = id then standing ++ [write.mine] else standing
  | .erased id' => if id' = id then [] else standing
  | _ => standing

/-- The tokens of a call's writes applied to a point since its last delete, oldest first. -/
def standing (task : TaskId) (id : PointId) (tr : List Event) : List String :=
  tr.foldl (Event.stand task id) []

/-- The number of writes of a call that were applied to a point. -/
def applications (task : TaskId) (id : PointId) (tr : List Event) : ℕ :=
  tr.countP fun e =>
    match e with
    | .wrote task' _ write _ _ => task' = task ∧ write.id = id
    | _ => false

@[simp] theorem standing_nil (task : TaskId) (id : PointId) : standing task id [] = [] := rfl

theorem standing_concat (task : TaskId) (id : PointId) (tr : List Event) (e : Event) :
    standing task id (tr ++ [e]) = e.stand task id (standing task id tr) :=
  List.foldl_concat ..

/-- A write stands when it was applied and the point not deleted after it. -/
theorem mem_standing {task : TaskId} {id : PointId} {tr : List Event} {mine : String} :
    mine ∈ standing task id tr ↔ ∃ a b op write before after,
      tr = a ++ .wrote task op write before after :: b ∧ write.id = id ∧ write.mine = mine ∧
        Event.erased id ∉ b := by
  induction tr using List.reverseRecOn with
  | nil => simp
  | append_singleton tr e ih =>
    -- what stood before the event and still stands
    have hkeep : Event.erased id ≠ e → mine ∈ standing task id tr →
        ∃ a b op write before after, tr ++ [e] = a ++ .wrote task op write before after :: b ∧
          write.id = id ∧ write.mine = mine ∧ Event.erased id ∉ b := by
      intro he hmem
      obtain ⟨a, b, op, write, before, after, rfl, hid, hmine, hb⟩ := ih.mp hmem
      exact ⟨a, b ++ [e], op, write, before, after, by simp, hid, hmine, by simp [hb, he]⟩
    -- a standing write is older than the event, or the event itself
    have hback : (∃ a b op write before after,
        tr ++ [e] = a ++ .wrote task op write before after :: b ∧ write.id = id ∧
          write.mine = mine ∧ Event.erased id ∉ b) →
        Event.erased id ≠ e ∧ mine ∈ standing task id tr ∨
          ∃ op write before after, e = .wrote task op write before after ∧ write.id = id ∧
            write.mine = mine := by
      rintro ⟨a, b, op, write, before, after, htr, hid, hmine, hb⟩
      rcases List.eq_nil_or_concat' b with rfl | ⟨b, e', rfl⟩
      · obtain ⟨-, rfl⟩ := List.append_inj' htr rfl |>.imp_right List.singleton_inj.mp
        exact .inr ⟨op, write, before, after, rfl, hid, hmine⟩
      · rw [← List.cons_append, ← List.append_assoc] at htr
        obtain ⟨rfl, he⟩ := List.append_inj' htr rfl
        obtain rfl := List.singleton_inj.mp he
        rw [List.mem_append, not_or] at hb
        exact .inl ⟨by simpa using hb.2, ih.mpr ⟨a, b, op, write, before, after, rfl, hid, hmine,
          hb.1⟩⟩
    rw [standing_concat]
    constructor
    · intro hmem
      cases e with
      | wrote task' op write before after =>
        simp only [Event.stand] at hmem
        split_ifs at hmem with hown
        · rcases List.mem_append.mp hmem with hold | hnew
          · exact hkeep (by simp) hold
          · obtain ⟨rfl, hid⟩ := hown
            exact ⟨tr, [], op, write, before, after, rfl, hid, (List.mem_singleton.mp hnew).symm,
              by simp⟩
        · exact hkeep (by simp) hmem
      | erased id' =>
        simp only [Event.stand] at hmem
        split_ifs at hmem with hid
        · cases hmem
        · exact hkeep (by simpa using Ne.symm hid) hmem
      | _ => exact hkeep (by simp) hmem
    · intro h
      rcases hback h with ⟨he, hmem⟩ | ⟨op, write, before, after, rfl, hid, hmine⟩
      · cases e with
        | wrote task' op write before after =>
          simp only [Event.stand]
          split_ifs
          · exact List.mem_append_left _ hmem
          · exact hmem
        | erased id' =>
          have hid : id' ≠ id := by
            rintro rfl
            exact he rfl
          simpa [Event.stand, hid] using hmem
        | _ => exact hmem
      · simp [Event.stand, hid, hmine]

/-- On a point that was never deleted every application stands. -/
theorem applications_eq {task : TaskId} {id : PointId} {tr : List Event}
    (h : Event.erased id ∉ tr) : applications task id tr = (standing task id tr).length := by
  induction tr using List.reverseRecOn with
  | nil => rfl
  | append_singleton tr e ih =>
    rw [List.mem_append, not_or] at h
    have hprev := ih h.1
    unfold applications at hprev ⊢
    rw [List.countP_append, hprev, standing_concat]
    cases e with
    | wrote task' op write before after =>
      simp only [Event.stand]
      split_ifs with hown
      · simp [hown]
      · simp [hown]
    | erased id' =>
      have hid : id' ≠ id := by
        rintro rfl
        exact h.2 (by simp)
      simp [Event.stand, hid]
    | _ => rfl

section

variable {s : Start} {tr : List Event} {w : World}

/-- Nothing stands on a point that is gone. -/
theorem standing_eq_nil_of_gone {c : Option Payload} {task : TaskId} {id : PointId}
    (hcell : Run CellStep c (cellEvents id tr) none) : standing task id tr = [] := by
  rw [List.eq_nil_iff_forall_not_mem]
  intro mine hmem
  obtain ⟨a, b, op, write, before, after, rfl, rfl, rfl, hb⟩ := mem_standing.mp hmem
  rw [cellEvents_append, cellEvents_wrote] at hcell
  obtain ⟨p, -, hp, -⟩ := revLog_since hcell (by simpa using hb)
  cases hp

/-- A token is evaluated in one place of a trace. -/
theorem evaluated_in_one_place (hrun : Runs s.world tr w) {a b a' b' : List Event} {e e' : Event}
    {x x' : TaskId × Op × Write} (h : tr = a ++ e :: b) (h' : tr = a' ++ e' :: b')
    (he : e.evaluated = some x) (he' : e'.evaluated = some x')
    (hmine : x.2.2.mine = x'.2.2.mine) : b = b' := by
  have hsuf : e :: b <:+ tr := ⟨a, h.symm⟩
  have hsuf' : e' :: b' <:+ tr := ⟨a', h'.symm⟩
  rcases Nat.lt_trichotomy b.length b'.length with hlt | heq | hgt
  · have hin : e :: b <:+ b' :=
      List.suffix_of_suffix_length_le hsuf ((List.suffix_cons _ _).trans hsuf') hlt
    have hx : x ∈ evaluations b' :=
      List.mem_filterMap.mpr ⟨e, hin.subset List.mem_cons_self, he⟩
    rw [h'] at hrun
    exact absurd hmine (evaluated_once s.inv hrun he' x hx)
  · have hsame : e :: b = e' :: b' :=
      (List.suffix_of_suffix_length_le hsuf hsuf' (by simp [heq])).eq_of_length (by simp [heq])
    exact (List.cons.inj hsame).2
  · have hin : e' :: b' <:+ b :=
      List.suffix_of_suffix_length_le hsuf' ((List.suffix_cons _ _).trans hsuf) hgt
    have hx : x' ∈ evaluations b :=
      List.mem_filterMap.mpr ⟨e', hin.subset List.mem_cons_self, he'⟩
    rw [h] at hrun
    exact absurd hmine.symm (evaluated_once s.inv hrun he x' hx)

variable {task : TaskId} {op : Op} {write : Write} {found : Option Payload}

/-- A write that was applied and then deleted does not stand. -/
theorem not_standing_of_erased (hrun : Runs s.world tr w) (h : AppliedThenErased tr write) :
    write.mine ∉ standing task write.id tr := by
  intro hmem
  obtain ⟨a, b, task', op', before, after, htr, herased⟩ := h
  obtain ⟨a', b', op'', write', before', after', htr', hid, hmine, hb⟩ := mem_standing.mp hmem
  have hsame := evaluated_in_one_place hrun htr htr'
    (show Event.evaluated (.wrote task' op' write before after) = some (task', op', write) from rfl)
    (show Event.evaluated (.wrote task op'' write' before' after') = some (task, op'', write')
      from rfl) hmine.symm
  rw [hsame] at herased
  exact hb herased

/-- **What stands after a verdict.** -/
theorem standing_of_landed (hrun : Runs s.world (tr ++ [.readBack task op write found]) w) :
    (landed write.readRev found write.mine = .yes → write.mine ∈ standing task write.id tr) ∧
    (landed write.readRev found write.mine = .no → write.mine ∉ standing task write.id tr) ∧
    (landed write.readRev found write.mine = .gone → standing task write.id tr = []) := by
  obtain ⟨heval, cell, hcell, hnone, hsome⟩ := readBack_view hrun
  obtain ⟨m, hpast, -⟩ := hrun.last
  cases found with
  | none =>
    obtain rfl := hnone.mp rfl
    refine ⟨fun h => by simp [landed] at h, fun h => by simp [landed] at h,
      fun _ => standing_eq_nil_of_gone hcell⟩
  | some q =>
    obtain ⟨p, rfl, hq⟩ := hsome q rfl
    by_cases hmine : write.mine ∈ p.revTokens
    · have hyes : landed write.readRev (some q) write.mine = .yes := by simp [landed, hq, hmine]
      refine ⟨fun _ => ?_, fun h => by simp [hyes] at h, fun h => by simp [hyes] at h⟩
      obtain ⟨before, after, he⟩ := wrote_of_shown hpast heval hcell hmine
      obtain ⟨a, b, rfl⟩ := List.append_of_mem he
      refine mem_standing.mpr ⟨a, b, op, write, before, after, rfl, rfl, rfl, fun hb => ?_⟩
      exact not_shown_of_erased hpast ⟨a, b, task, op, before, after, rfl, hb⟩ hcell hmine
    · refine ⟨fun h => ?_, fun h hmem => ?_, fun h => ?_⟩
      · simp only [landed, hq, hmine, if_false] at h
        split_ifs at h
      · have hreach : reachesBack write.readRev p.revTokens = true := by
          simp only [landed, hq, hmine, if_false] at h
          split_ifs at h with hreach
          exact hreach
        obtain ⟨a, b, op', write', before, after, htr, hid, heq, hb⟩ := mem_standing.mp hmem
        have hwrote : Event.wrote task op' write' before after ∈ tr := by simp [htr]
        cases evaluations_inj s.inv hpast heval (mem_evaluations_of_wrote hwrote) heq.symm
        have herased := not_applied_of_no hpast hcell hmine hreach ⟨_, _, _, _, hwrote⟩
        exact not_standing_of_erased hpast herased.2 hmem
      · simp only [landed, hq, hmine, if_false] at h
        split_ifs at h

end

end Alaya
