import Alaya.Cluster.Standing
import Mathlib.Data.List.Perm.Subperm

/-!
# The story of a call

A call takes each of its points from waiting to settled.  `Task.stages` reads off a call in progress
how far it has got with each, and `Stage.Allows` says what may stand on a point at that stage:
nothing while it waits or its write is unsent, at most the write just answered, nothing once it is
settled as skipped, absent, deleted or out of races, and exactly one write when it is settled as
landed (until a delete).  `story_run` says that every call of every run keeps to this.
-/

namespace Alaya

open Json Labelled

/-- How far a call has got with one point. -/
inductive Stage where
  | waiting
  | unsent
  | answered (write : Write)
  | settled (update : Update)

/-- What may stand on a point at a stage; `erased` is whether it was ever deleted. -/
def Stage.Allows (erased : Prop) (standing : List String) : Stage → Prop
  | .waiting | .unsent => standing = []
  | .answered write => standing = [] ∨ standing = [write.mine]
  | .settled (.landed ..) => erased ∨ ∃ mine, standing = [mine]
  | .settled (.unconfirmed (.sendFailed _)) | .settled (.unconfirmed (.lostTrack _)) => True
  | .settled _ => standing = []

def settledStages (outcome : Outcome) : List (PointId × Stage) :=
  outcome.map fun x => (x.1, .settled x.2)

def answeredStages (writes : List Write) : List (PointId × Stage) :=
  writes.map fun write => (write.id, .answered write)

def unsentStages (writes : List Write) : List (PointId × Stage) :=
  writes.map fun write => (write.id, .unsent)

def waitingStages (ids : List PointId) : List (PointId × Stage) := ids.map fun id => (id, .waiting)

/-- The points of a call, each with its stage. -/
def Task.stages (t : Task) : List (PointId × Stage) :=
  match t.progress.phase with
  | .reading got left => settledStages t.progress.outcome ++ waitingStages (got.map Prod.fst ++ left)
  | .writing written left =>
    settledStages t.progress.outcome ++ answeredStages written ++ unsentStages left
  | .readingBack left lost =>
    settledStages t.progress.outcome ++ answeredStages left ++ waitingStages lost
  | .returned (.ok outcome) => settledStages outcome
  | .returned (.error _) | .dropped => settledStages t.progress.outcome

/-- A call after the run `tr`: its stages are those of its own points, each once, and each allows
what stands. -/
structure Story (tr : List Event) (task : TaskId) (t : Task) : Prop where
  ids : (t.stages.map Prod.fst).Subperm t.call.pending
  allows : ∀ x ∈ t.stages, x.2.Allows (.erased x.1 ∈ tr) (standing task x.1 tr)

@[simp] theorem settledStages_append (outcome outcome' : Outcome) :
    settledStages (outcome ++ outcome') = settledStages outcome ++ settledStages outcome' := by
  simp [settledStages]

@[simp] theorem map_fst_settledStages (outcome : Outcome) :
    (settledStages outcome).map Prod.fst = outcome.map Prod.fst := by
  simp [settledStages]

@[simp] theorem map_fst_answeredStages (writes : List Write) :
    (answeredStages writes).map Prod.fst = writes.map Write.id := by
  simp [answeredStages]

@[simp] theorem map_fst_unsentStages (writes : List Write) :
    (unsentStages writes).map Prod.fst = writes.map Write.id := by
  simp [unsentStages]

@[simp] theorem map_fst_waitingStages (ids : List PointId) :
    (waitingStages ids).map Prod.fst = ids := by
  simp [waitingStages, Function.comp_def]

namespace Story

variable {tr : List Event} {task : TaskId} {t : Task}

theorem nodup (h : Story tr task t) : (t.stages.map Prod.fst).Nodup := by
  obtain ⟨l, hperm, hsub⟩ := h.ids
  exact hperm.nodup_iff.mp ((nodup_eraseDups _).sublist hsub)

theorem mem_pending (h : Story tr task t) {x : PointId × Stage} (hx : x ∈ t.stages) :
    x.1 ∈ t.call.pending :=
  h.ids.subset (List.mem_map_of_mem hx)

/-- A call is at one stage with each of its points. -/
theorem stage_unique (h : Story tr task t) {id : PointId} {st st' : Stage}
    (hst : (id, st) ∈ t.stages) (hst' : (id, st') ∈ t.stages) : st = st' :=
  (Prod.mk.inj (List.inj_on_of_nodup_map h.nodup hst hst' rfl)).2

/-- What an event changes for a call that does not move: nothing, or its point was deleted, or its
write there was given up for lost. -/
theorem mono {e : Event} (h : Story tr task t)
    (hstand : ∀ x ∈ t.stages, standing task x.1 (tr ++ [e]) = standing task x.1 tr ∨
      e = .erased x.1 ∨ ∃ err, x.2 = .settled (.unconfirmed (.sendFailed err))) :
    Story (tr ++ [e]) task t := by
  refine ⟨h.ids, fun x hx => ?_⟩
  obtain ⟨id, st⟩ := x
  have hold := h.allows _ hx
  rcases hstand _ hx with hsame | rfl | ⟨err, rfl⟩
  · dsimp only at hsame hold ⊢
    rw [hsame]
    cases st with
    | settled update =>
      cases update with
      | landed => exact hold.imp_left (List.mem_append_left _)
      | unconfirmed why => cases why <;> exact hold
      | _ => exact hold
    | _ => exact hold
  · have hnil : standing task id (tr ++ [.erased id]) = [] := by
      simp [standing_concat, Event.stand]
    dsimp only
    rw [hnil]
    cases st with
    | settled update =>
      cases update with
      | landed => exact .inl (by simp)
      | unconfirmed why => cases why <;> trivial
      | _ => rfl
    | answered => exact .inl rfl
    | _ => rfl
  · trivial

end Story

/-- How the stages of a call may move: a settled point stays settled, and an open one goes to a stage
that allows what stands. -/
structure Advance (tr : List Event) (task : TaskId) (old new : List (PointId × Stage)) : Prop where
  ids : (new.map Prod.fst).Subperm (old.map Prod.fst)
  stages : ∀ x ∈ new, x ∈ old ∨ (∃ st, (x.1, st) ∈ old ∧ ∀ update, st ≠ .settled update) ∧
    x.2.Allows (.erased x.1 ∈ tr) (standing task x.1 tr)

namespace Advance

variable {tr : List Event} {task : TaskId} {old mid new : List (PointId × Stage)}

theorem allows (h : Advance tr task old new)
    (hold : ∀ x ∈ old, x.2.Allows (.erased x.1 ∈ tr) (standing task x.1 tr)) :
    ∀ x ∈ new, x.2.Allows (.erased x.1 ∈ tr) (standing task x.1 tr) := by
  intro x hx
  rcases h.stages x hx with hx | ⟨-, hx⟩
  · exact hold x hx
  · exact hx

theorem refl (old : List (PointId × Stage)) : Advance tr task old old :=
  ⟨List.Subperm.refl _, fun _ hx => .inl hx⟩

theorem cut (h : new <+: old) : Advance tr task old new :=
  ⟨(h.sublist.map _).subperm, fun _ hx => .inl (h.subset hx)⟩

theorem trans (h : Advance tr task old mid) (h' : Advance tr task mid new) :
    Advance tr task old new := by
  refine ⟨h'.ids.trans h.ids, fun x hx => ?_⟩
  rcases h'.stages x hx with hx | ⟨⟨st, hst, hopen⟩, hallows⟩
  · exact h.stages x hx
  · refine .inr ⟨?_, hallows⟩
    rcases h.stages _ hst with hst | ⟨hst, -⟩
    · exact ⟨st, hst, hopen⟩
    · exact hst

end Advance

theorem Story.advance {tr : List Event} {task : TaskId} {t t' : Task} (h : Story tr task t)
    (hcall : t'.call = t.call) (hadv : Advance tr task t.stages t'.stages) : Story tr task t' := by
  exact ⟨hcall ▸ hadv.ids.trans h.ids, hadv.allows h.allows⟩

/-! ### The stages after each answer -/

namespace Task

theorem stages_start (caller : Caller) :
    (start caller).stages = waitingStages caller.call.pending := by
  unfold start UpdateCall.startRound stages
  by_cases h : caller.call.pending = []
  · simp [h, settledStages, waitingStages]
  · simp [h, settledStages, maxWriteAttempts]

theorem stages_afterSend (t : Task) (round : ℕ) (outcome : Outcome) (written left : List Write) :
    (t.withProgress (UpdateCall.afterSend round outcome written left)).stages =
      settledStages outcome ++ answeredStages written ++ unsentStages left := by
  unfold withProgress UpdateCall.afterSend stages
  cases left <;> cases written <;> simp [unsentStages, answeredStages, waitingStages]

/-- A round begins on its points, or gives all of them up. -/
theorem stages_startRound (t : Task) (round : ℕ) (ids : List PointId) (outcome : Outcome) :
    (t.withProgress (UpdateCall.startRound round ids outcome)).stages =
        settledStages outcome ++ waitingStages ids ∨
      (t.withProgress (UpdateCall.startRound round ids outcome)).stages =
        settledStages outcome ++ ids.map fun id => (id, .settled (.unconfirmed .lostRaces)) := by
  unfold withProgress UpdateCall.startRound stages
  split_ifs
  · exact .inr (by simp [settledStages])
  · exact .inl (by simp)

/-- A call that ends without a result keeps what it had settled. -/
theorem stages_ended {t : Task} {phase : Phase}
    (h : phase = .dropped ∨ ∃ err, phase = .returned (.error err)) :
    (t.withPhase phase).stages = settledStages t.progress.outcome := by
  rcases h with rfl | ⟨err, rfl⟩ <;> rfl

theorem settled_prefix {t : Task} (h : ∀ result, t.progress.phase ≠ .returned result) :
    settledStages t.progress.outcome <+: t.stages := by
  unfold stages
  split
  · exact List.prefix_append ..
  · exact (List.prefix_append ..).trans (List.prefix_append ..)
  · exact (List.prefix_append ..).trans (List.prefix_append ..)
  · next hphase => exact absurd hphase (h _)
  · exact List.prefix_rfl
  · exact List.prefix_rfl

end Task

/-! ### One call, one answer -/

section

variable {tr : List Event} {task : TaskId} {t : Task}

/-- Nothing stands on a waiting point. -/
theorem Story.nil_of_waiting (h : Story tr task t) {id : PointId}
    (hwait : (id, Stage.waiting) ∈ t.stages) : standing task id tr = [] :=
  h.allows _ hwait

/-- The points of a round are settled as the round finds them, or their writes are built. -/
theorem Story.afterReads (h : Story tr task t) {got : List (PointId × Option Payload)} {n n' : ℕ}
    {progress : Progress}
    (hstages : t.stages = settledStages t.progress.outcome ++ waitingStages (got.map Prod.fst))
    (hafter : t.call.afterReads t.client n t.progress.round t.progress.outcome got =
      (n', progress)) : Advance tr task t.stages (t.withProgress progress).stages := by
  have hwait : ∀ id ∈ got.map Prod.fst, (id, Stage.waiting) ∈ t.stages := by
    intro id hid
    rw [hstages]
    exact List.mem_append_right _ (List.mem_map_of_mem hid)
  -- a point of the round that is settled with nothing standing
  have hsettle : ∀ id ∈ got.map Prod.fst, ∀ update : Update,
      (update = .skipped ∨ update = .absent ∨ update = .deleted) →
      (∃ st, (id, st) ∈ t.stages ∧ ∀ u, st ≠ .settled u) ∧
        (Stage.settled update).Allows (.erased id ∈ tr) (standing task id tr) := by
    intro id hid update hupdate
    refine ⟨⟨_, hwait id hid, nofun⟩, ?_⟩
    rcases hupdate with rfl | rfl | rfl <;> exact h.nil_of_waiting (hwait id hid)
  have hkeep : ∀ x ∈ settledStages t.progress.outcome, x ∈ t.stages := by
    intro x hx
    rw [hstages]
    exact List.mem_append_left _ hx
  have hids : t.stages.map Prod.fst = t.progress.outcome.map Prod.fst ++ got.map Prod.fst := by
    rw [hstages, List.map_append, map_fst_settledStages, map_fst_waitingStages]
  rcases UpdateCall.afterReads_cases hafter with ⟨-, rfl⟩ | ⟨err, hb, rfl⟩ | ⟨settled, hb, rfl⟩ |
    ⟨write, ws, settled, hb, rfl⟩
  · -- a strict first round that misses a point settles all of them
    have hnew : (t.withProgress ⟨t.progress.round, t.progress.outcome, .returned (.ok
        (t.progress.outcome ++ got.map fun r =>
          (r.1, if r.2.isNone then Update.absent else .skipped)))⟩).stages =
        settledStages t.progress.outcome ++ settledStages (got.map fun r =>
          (r.1, if r.2.isNone then Update.absent else .skipped)) := settledStages_append ..
    rw [hnew]
    refine ⟨?_, fun x hx => ?_⟩
    · rw [hids, List.map_append, map_fst_settledStages, map_fst_settledStages, List.map_map]
      exact List.Subperm.refl _
    · rcases List.mem_append.mp hx with hx | hx
      · exact .inl (hkeep x hx)
      · simp only [settledStages, List.map_map, List.mem_map] at hx
        obtain ⟨r, hr, rfl⟩ := hx
        refine .inr (hsettle r.1 (List.mem_map_of_mem hr) _ ?_)
        dsimp only
        split_ifs
        · exact .inr (.inl rfl)
        · exact .inl rfl
  · -- an error writes nothing and settles nothing
    have hnew : (t.withProgress ⟨t.progress.round, t.progress.outcome, .returned
        (.error err)⟩).stages = settledStages t.progress.outcome := rfl
    rw [hnew]
    refine ⟨?_, fun x hx => .inl (hkeep x hx)⟩
    rw [hids, map_fst_settledStages]
    exact (List.sublist_append_left _ _).subperm
  · have hnew : (t.withProgress ⟨t.progress.round, t.progress.outcome ++ settled, .returned (.ok
        (t.progress.outcome ++ settled))⟩).stages =
        settledStages t.progress.outcome ++ settledStages settled := settledStages_append ..
    have hperm := UpdateCall.build_ids hb
    rw [List.map_nil, List.append_nil] at hperm
    rw [hnew]
    refine ⟨?_, fun x hx => ?_⟩
    · rw [hids, List.map_append, map_fst_settledStages, map_fst_settledStages]
      exact (hperm.append_left _).subperm
    · rcases List.mem_append.mp hx with hx | hx
      · exact .inl (hkeep x hx)
      · obtain ⟨y, hy, rfl⟩ := List.mem_map.mp hx
        exact .inr (hsettle y.1 (hperm.subset (List.mem_map_of_mem hy)) _
          (UpdateCall.build_settled hb y hy))
  · have hnew : (t.withProgress ⟨t.progress.round, t.progress.outcome ++ settled,
        .writing [] (write :: ws)⟩).stages = settledStages t.progress.outcome ++
          settledStages settled ++ unsentStages (write :: ws) := by
      simp only [Task.stages, Task.withProgress, settledStages_append, answeredStages,
        List.map_nil, List.append_nil]
    have hperm := UpdateCall.build_ids hb
    rw [hnew]
    refine ⟨?_, fun x hx => ?_⟩
    · rw [hids, List.map_append, List.map_append, map_fst_settledStages, map_fst_settledStages,
        map_fst_unsentStages, List.append_assoc]
      exact (hperm.append_left _).subperm
    · rcases List.mem_append.mp hx with hx | hx
      · rcases List.mem_append.mp hx with hx | hx
        · exact .inl (hkeep x hx)
        · obtain ⟨y, hy, rfl⟩ := List.mem_map.mp hx
          exact .inr (hsettle y.1 (hperm.subset (List.mem_append_left _ (List.mem_map_of_mem hy)))
            _ (UpdateCall.build_settled hb y hy))
      · obtain ⟨y, hy, rfl⟩ := List.mem_map.mp hx
        have hid := hwait y.id (hperm.subset (List.mem_append_right _ (List.mem_map_of_mem hy)))
        exact .inr ⟨⟨_, hid, nofun⟩, h.nil_of_waiting hid⟩

/-- A write that failed is settled as such. -/
theorem Story.afterFailure {written left : List Write} {write : Write}
    (hphase : t.progress.phase = .writing written (write :: left)) (err : AlayaError) :
    Advance tr task t.stages (t.withProgress (UpdateCall.afterSend t.progress.round
      (t.progress.outcome ++ [(write.id, .unconfirmed (.sendFailed err))]) written left)).stages := by
  have hold : t.stages = settledStages t.progress.outcome ++ answeredStages written ++
      unsentStages (write :: left) := by
    simp only [Task.stages, hphase]
  rw [Task.stages_afterSend, hold, settledStages_append]
  refine ⟨?_, fun x hx => ?_⟩
  · simp only [List.map_append, map_fst_settledStages, map_fst_answeredStages,
      map_fst_unsentStages, List.map_cons, List.map_nil, List.append_assoc, List.singleton_append]
    exact (List.perm_middle.symm.append_left _).subperm
  · simp only [List.mem_append] at hx ⊢
    rcases hx with ((hx | hx) | hx) | hx
    · exact .inl (.inl (.inl hx))
    · obtain rfl := List.mem_singleton.mp hx
      exact .inr ⟨⟨.unsent, .inr (List.mem_cons_self), nofun⟩, trivial⟩
    · exact .inl (.inl (.inr hx))
    · exact .inl (.inr (List.mem_cons_of_mem _ hx))

/-- A write that was answered and did not apply waits for its read-back. -/
theorem Story.afterRejection (h : Story tr task t) {written left : List Write} {write : Write}
    (hphase : t.progress.phase = .writing written (write :: left)) :
    Advance tr task t.stages (t.withProgress (UpdateCall.afterSend t.progress.round
      t.progress.outcome (written ++ [write]) left)).stages := by
  have hold : t.stages = settledStages t.progress.outcome ++ answeredStages written ++
      unsentStages (write :: left) := by
    simp only [Task.stages, hphase]
  have hunsent : (write.id, Stage.unsent) ∈ t.stages := by
    rw [hold]
    exact List.mem_append_right _ List.mem_cons_self
  have hnil : standing task write.id tr = [] := h.allows _ hunsent
  refine ⟨?_, fun x hx => ?_⟩
  · rw [Task.stages_afterSend, hold]
    simp only [List.map_append, map_fst_settledStages, map_fst_answeredStages,
      map_fst_unsentStages, List.map_cons, List.map_nil, List.append_assoc, List.singleton_append]
    exact List.Subperm.refl _
  · rw [Task.stages_afterSend] at hx
    simp only [answeredStages, List.map_append, List.mem_append] at hx
    rcases hx with (hx | hx | hx) | hx
    · exact .inl (by simp [hold, hx])
    · exact .inl (by simp [hold, answeredStages, List.mem_map.mp hx])
    · obtain rfl := List.mem_singleton.mp hx
      exact .inr ⟨⟨_, hunsent, nofun⟩, .inl hnil⟩
    · refine .inl ?_
      rw [hold]
      exact List.mem_append_right _ (List.mem_cons_of_mem _ hx)

/-- A round starts, or its points are given up, with nothing standing on them. -/
theorem Story.startRound {round : ℕ} {ids : List PointId} {outcome : Outcome}
    (hids : ∀ id ∈ ids, standing task id tr = []) :
    Advance tr task (settledStages outcome ++ waitingStages ids)
      (t.withProgress (UpdateCall.startRound round ids outcome)).stages := by
  rcases Task.stages_startRound t round ids outcome with hnew | hnew
  · rw [hnew]
    exact Advance.refl _
  · rw [hnew]
    refine ⟨?_, fun x hx => ?_⟩
    · rw [List.map_append, List.map_append, map_fst_waitingStages, List.map_map]
      simp [Function.comp_def, List.Subperm.refl]
    · rcases List.mem_append.mp hx with hx | hx
      · exact .inl (List.mem_append_left _ hx)
      · obtain ⟨id, hid, rfl⟩ := List.mem_map.mp hx
        exact .inr ⟨⟨.waiting, List.mem_append_right _ (List.mem_map_of_mem hid), nofun⟩,
          hids id hid⟩

/-- A point that was read back is settled, or waits for the next round with nothing standing. -/
theorem Story.afterReadBack (h : Story tr task t) {left : List Write} {write : Write}
    {lost : List PointId} {found : Option Payload}
    (hphase : t.progress.phase = .readingBack (write :: left) lost)
    (hyes : landed write.readRev found write.mine = .yes →
      write.mine ∈ standing task write.id tr)
    (hno : landed write.readRev found write.mine = .no → write.mine ∉ standing task write.id tr)
    (hgone : landed write.readRev found write.mine = .gone → standing task write.id tr = []) :
    Advance tr task t.stages (t.withProgress (UpdateCall.afterReadBack t.progress.round
      t.progress.outcome write left lost found)).stages := by
  have hold : t.stages = settledStages t.progress.outcome ++ answeredStages (write :: left) ++
      waitingStages lost := by
    simp only [Task.stages, hphase]
  have hanswered : (write.id, Stage.answered write) ∈ t.stages := by
    rw [hold]
    exact List.mem_append_left _ (List.mem_append_right _ List.mem_cons_self)
  have hopen : ∃ st, (write.id, st) ∈ t.stages ∧ ∀ u, st ≠ .settled u := ⟨_, hanswered, nofun⟩
  have hstand : standing task write.id tr = [] ∨ standing task write.id tr = [write.mine] :=
    h.allows _ hanswered
  -- the point leaves the answered ones, settled or lost
  have hsettle : ∀ update, (Stage.settled update).Allows (.erased write.id ∈ tr)
      (standing task write.id tr) → Advance tr task t.stages
        (settledStages (t.progress.outcome ++ [(write.id, update)]) ++ answeredStages left ++
          waitingStages lost) := by
    intro update hallows
    rw [hold, settledStages_append]
    refine ⟨?_, fun x hx => ?_⟩
    · simp only [List.map_append, map_fst_settledStages, map_fst_answeredStages,
        map_fst_waitingStages, List.map_cons, List.map_nil, List.append_assoc, List.cons_append]
      exact List.Subperm.refl _
    · rw [← hold]
      simp only [List.mem_append] at hx
      rcases hx with ((hx | hx) | hx) | hx
      · exact .inl (by simp [hold, hx])
      · obtain rfl := List.mem_singleton.mp hx
        exact .inr ⟨hopen, hallows⟩
      · refine .inl ?_
        rw [hold]
        exact List.mem_append_left _ (List.mem_append_right _ (List.mem_cons_of_mem _ hx))
      · exact .inl (by simp [hold, hx])
  have hlose : standing task write.id tr = [] → Advance tr task t.stages
      (settledStages t.progress.outcome ++ answeredStages left ++
        waitingStages (lost ++ [write.id])) := by
    intro hnil
    rw [hold]
    refine ⟨?_, fun x hx => ?_⟩
    · simp only [List.map_append, map_fst_settledStages, map_fst_answeredStages,
        map_fst_waitingStages, List.map_cons, List.append_assoc, List.cons_append]
      refine (List.Perm.append_left _ ?_).subperm
      rw [← List.append_assoc]
      exact List.perm_append_singleton ..
    · rw [← hold]
      simp only [waitingStages, List.map_append, List.mem_append] at hx
      rcases hx with (hx | hx) | hx | hx
      · exact .inl (by simp [hold, hx])
      · refine .inl ?_
        rw [hold]
        exact List.mem_append_left _ (List.mem_append_right _ (List.mem_cons_of_mem _ hx))
      · refine .inl ?_
        rw [hold]
        exact List.mem_append_right _ hx
      · obtain rfl := List.mem_singleton.mp hx
        exact .inr ⟨hopen, hnil⟩
  -- then the next point is read back, or the round ends
  have hnext : ∀ {outcome : Outcome} {lost' : List PointId},
      UpdateCall.readBackOutcome t.progress.outcome write lost found = (outcome, lost') →
      Advance tr task t.stages
        (settledStages outcome ++ answeredStages left ++ waitingStages lost') →
      Advance tr task t.stages (t.withProgress (UpdateCall.afterReadBack t.progress.round
        t.progress.outcome write left lost found)).stages := by
    intro outcome lost' hlanded hmid
    obtain ⟨hlast, hmore⟩ := UpdateCall.afterReadBack_of_landed t.progress.round left hlanded
    by_cases hleft : left = []
    · rw [hlast hleft]
      subst hleft
      have hmid : Advance tr task t.stages (settledStages outcome ++ waitingStages lost') := by
        simpa [answeredStages] using hmid
      refine hmid.trans (Story.startRound fun id hid => ?_)
      exact hmid.allows h.allows (id, .waiting)
        (List.mem_append_right _ (List.mem_map_of_mem hid))
    · rw [hmore hleft]
      exact hmid
  unfold UpdateCall.readBackOutcome at hnext
  cases hverdict : landed write.readRev found write.mine with
  | yes =>
    refine hnext (by rw [hverdict]) (hsettle (.landed _ _) (.inr ⟨write.mine, ?_⟩))
    rcases hstand with hnil | hone
    · have hmine := hyes hverdict
      rw [hnil] at hmine
      cases hmine
    · exact hone
  | no =>
    refine hnext (by rw [hverdict]) (hlose ?_)
    rcases hstand with hnil | hone
    · exact hnil
    · exact absurd (by simp [hone]) (hno hverdict)
  | unknown => exact hnext (by rw [hverdict]) (hsettle (.unconfirmed (.lostTrack _)) trivial)
  | gone => exact hnext (by rw [hverdict]) (hsettle .deleted (hgone hverdict))

end

/-! ### Every call of every run -/

/-- The calls of a run, and the writes in flight: these belong to points that were given up. -/
structure Stories (tr : List Event) (w : World) : Prop where
  tasks : ∀ task t, w.tasks task = some t → Story tr task t
  ids : ∀ s ∈ w.inFlight, s.write.id ∈ s.call.pending
  inFlight : ∀ s ∈ w.inFlight, ∀ t, w.tasks s.task = some t → ∀ st, (s.write.id, st) ∈ t.stages →
    ∃ err, st = .settled (.unconfirmed (.sendFailed err))

/-- An event that neither writes nor deletes. -/
def Event.Still (e : Event) : Prop :=
  ∀ (task : TaskId) (id : PointId) (l : List String), e.stand task id l = l

section

variable {tr : List Event} {w : World} {e : Event} {task : TaskId} {t t' : Task}

theorem Story.still (h : Story tr task t) (he : e.Still) : Story (tr ++ [e]) task t :=
  h.mono fun x _ => .inl (by rw [standing_concat, he])

theorem Stories.still (h : Stories tr w) (he : e.Still) : Stories (tr ++ [e]) w :=
  ⟨fun task t ht => (h.tasks task t ht).still he, h.ids, h.inFlight⟩

/-- One call moves. -/
theorem Stories.setTask (h : Stories tr w) (ht : w.tasks task = some t)
    (hadv : Advance tr task t.stages t'.stages) (hcall : t'.call = t.call) :
    Stories tr (w.setTask task t') := by
  refine ⟨fun task' u hu => ?_, h.ids, fun s hs u hu st hst => ?_⟩
  · by_cases htask : task' = task
    · subst htask
      obtain rfl := Option.some.inj ((World.tasks_setTask_self ..).symm.trans hu)
      exact (h.tasks _ t ht).advance hcall hadv
    · exact h.tasks task' u (by rwa [World.tasks_setTask_of_ne htask] at hu)
  · by_cases htask : s.task = task
    · subst htask
      obtain rfl := Option.some.inj ((World.tasks_setTask_self ..).symm.trans hu)
      rcases hadv.stages _ hst with hold | ⟨⟨st', hst', hopen⟩, -⟩
      · exact h.inFlight s hs t ht st hold
      · obtain ⟨err, rfl⟩ := h.inFlight s hs t ht st' hst'
        exact absurd rfl (hopen _)
    · exact h.inFlight s hs u (by rwa [World.tasks_setTask_of_ne htask] at hu) st hst

/-- A write joins those in flight once its call has given it up. -/
theorem Stories.detach (h : Stories tr w) {write : Write} {caller : Task}
    (hid : write.id ∈ caller.call.pending)
    (hgone : ∀ u, w.tasks task = some u → ∀ st, (write.id, st) ∈ u.stages →
      ∃ err, st = .settled (.unconfirmed (.sendFailed err))) :
    Stories tr { w with inFlight := .of task caller write :: w.inFlight } := by
  refine ⟨h.tasks, fun s hs => ?_, fun s hs => ?_⟩
  · rcases List.mem_cons.mp hs with rfl | hs
    · exact hid
    · exact h.ids s hs
  · rcases List.mem_cons.mp hs with rfl | hs
    · exact hgone
    · exact h.inFlight s hs

theorem Stories.eraseIdx (h : Stories tr w) (i : ℕ) :
    Stories tr { w with inFlight := w.inFlight.eraseIdx i } :=
  ⟨h.tasks, fun s hs => h.ids s (List.mem_of_mem_eraseIdx hs),
    fun s hs => h.inFlight s (List.mem_of_mem_eraseIdx hs)⟩

/-- The write of a call was applied: now it stands. -/
theorem Stories.applied (h : Stories tr w) {written left : List Write} {write : Write} {op : Op}
    {before : Option Payload} {after : Payload} (ht : w.tasks task = some t)
    (hphase : t.progress.phase = .writing written (write :: left)) :
    Stories (tr ++ [.wrote task op write before after]) ((w.setPoint write.id (some after)).setTask
      task (t.withProgress (UpdateCall.afterSend t.progress.round t.progress.outcome
        (written ++ [write]) left))) := by
  have hstory := h.tasks task t ht
  have hadv := hstory.afterRejection hphase
  have hold : t.stages = settledStages t.progress.outcome ++ answeredStages written ++
      unsentStages (write :: left) := by
    simp only [Task.stages, hphase]
  have hunsent : (write.id, Stage.unsent) ∈ t.stages := by
    rw [hold]
    exact List.mem_append_right _ List.mem_cons_self
  -- only the point of the write changes, and only for its own call
  have hother : ∀ task' id, ¬(task = task' ∧ write.id = id) →
      standing task' id (tr ++ [.wrote task op write before after]) = standing task' id tr := by
    intro task' id hne
    rw [standing_concat, Event.stand, if_neg hne]
  have hmoved := h.setTask ht hadv rfl
  refine ⟨fun task' u hu => ?_, hmoved.ids, hmoved.inFlight⟩
  by_cases htask : task' = task
  · subst htask
    obtain rfl := Option.some.inj ((World.tasks_setTask_self ..).symm.trans hu)
    have hnew := hmoved.tasks task' _ (World.tasks_setTask_self ..)
    refine ⟨hnew.ids, fun x hx => ?_⟩
    obtain ⟨id, st⟩ := x
    by_cases hid : write.id = id
    · subst hid
      have hanswered : (write.id, Stage.answered write) ∈ (t.withProgress (UpdateCall.afterSend
          t.progress.round t.progress.outcome (written ++ [write]) left)).stages := by
        rw [Task.stages_afterSend]
        simp [answeredStages]
      obtain rfl := hnew.stage_unique hx hanswered
      have hnil : standing task' write.id tr = [] := hstory.allows _ hunsent
      refine .inr ?_
      dsimp only
      rw [standing_concat, Event.stand, if_pos ⟨rfl, rfl⟩, hnil, List.nil_append]
    · have hkeep := hother task' id (by simp [hid])
      have hallows := hnew.allows _ hx
      dsimp only at hallows ⊢
      rw [hkeep]
      simpa using hallows
  · refine (h.tasks task' u (by rwa [World.tasks_setTask_of_ne htask] at hu)).mono fun x _ => .inl ?_
    exact hother task' x.1 fun hown => htask hown.1.symm

end

theorem Start.stories (s : Start) : Stories [] s.world where
  tasks _ _ ht := nomatch ht
  ids _ hx := nomatch hx
  inFlight _ hx := nomatch hx

theorem Stories.step {s : Start} {tr : List Event} {w w' : World} {e : Event}
    (h : Stories tr w) (hrun : Runs s.world tr w) (hstep : Steps World.step w e w') :
    Stories (tr ++ [e]) w' := by
  have hquiet : Event.Still .quiet := fun _ _ _ => rfl
  cases change_of_step hstep with
  | @spawned task caller hnone =>
    have hanswered := answered_run s hrun
    refine ⟨fun task' t ht => ?_, h.ids, fun x hx t ht st hst => ?_⟩
    · by_cases htask : task' = task
      · subst htask
        obtain rfl := Option.some.inj ((World.tasks_setTask_self ..).symm.trans ht)
        refine ⟨?_, fun x hx => ?_⟩
        · rw [Task.stages_start, map_fst_waitingStages]
          exact List.Subperm.refl _
        · rw [Task.stages_start] at hx
          obtain ⟨id, -, rfl⟩ := List.mem_map.mp hx
          -- a call that has not started has written nothing
          refine List.eq_nil_iff_forall_not_mem.mpr fun mine hmem => ?_
          rw [standing_concat, hquiet] at hmem
          obtain ⟨a, b, op, write, before, after, rfl, -⟩ := mem_standing.mp hmem
          obtain ⟨u, hu, -⟩ := hanswered.caller (task', op, write)
            (mem_evaluations_of_wrote (List.mem_append_right _ List.mem_cons_self))
          rw [hnone] at hu
          cases hu
      · exact (h.tasks task' t (by rwa [World.tasks_setTask_of_ne htask] at ht)).still hquiet
    · obtain ⟨u, hu, -⟩ := hanswered.inFlight x hx
      have htask : x.task ≠ task := by
        rintro rfl
        rw [hnone] at hu
        cases hu
      exact h.inFlight x hx t (by rwa [World.tasks_setTask_of_ne htask] at ht) st hst
  | @read task t got id next left ht hphase =>
    refine (h.still fun _ _ _ => rfl).setTask ht ?_ rfl
    have hsame : (t.withPhase (.reading (got ++ [(id, w.view t.call.readKeys id)])
        (next :: left))).stages = t.stages := by
      simp [Task.stages, Task.withPhase, hphase]
    rw [hsame]
    exact Advance.refl _
  | @planned task t got id n progress ht hphase hafter =>
    have hstill : Event.Still (.read task t.progress.round id (w.view t.call.readKeys id)) :=
      fun _ _ _ => rfl
    have hadv : Advance _ task t.stages (t.withProgress progress).stages :=
      ((h.tasks task t ht).still hstill).afterReads (by simp [Task.stages, hphase]) hafter
    have hmoved := (h.still hstill).setTask ht hadv rfl
    exact ⟨hmoved.tasks, hmoved.ids, hmoved.inFlight⟩
  | applied ht hphase heval => exact h.applied ht hphase
  | @rejected task t written left write ht hphase heval =>
    exact (h.still fun _ _ _ => rfl).setTask ht
      (((h.tasks task t ht).still fun _ _ _ => rfl).afterRejection hphase) rfl
  | @failed task t written left write err ht hphase =>
    exact (h.still hquiet).setTask ht (Story.afterFailure hphase err) rfl
  | @detached task t written left write err ht hphase =>
    have hmoved := (h.still hquiet).setTask ht (Story.afterFailure hphase err) rfl
    have hunsent : (write.id, Stage.unsent) ∈ t.stages := by
      simp [Task.stages, hphase, unsentStages]
    refine hmoved.detach ((h.tasks task t ht).mem_pending hunsent) fun u hu st hst => ⟨err, ?_⟩
    obtain rfl := Option.some.inj ((World.tasks_setTask_self ..).symm.trans hu)
    refine (hmoved.tasks task _ hu).stage_unique hst ?_
    rw [Task.stages_afterSend]
    simp [settledStages]
  | @readBack task t left write lost ht hphase =>
    obtain ⟨hyes, hno, hgone⟩ := standing_of_landed (hrun.step hstep)
    have hsame : ∀ id, standing task id (tr ++ [.readBack task t.op write
        (w.view t.call.backKeys write.id)]) = standing task id tr := fun id => standing_concat ..
    refine (h.still fun _ _ _ => rfl).setTask ht (((h.tasks task t ht).still
      fun _ _ _ => rfl).afterReadBack hphase (fun hv => ?_) (fun hv => ?_) (fun hv => ?_)) rfl
    · rw [hsame]
      exact hyes hv
    · rw [hsame]
      exact hno hv
    · rw [hsame]
      exact hgone hv
  | @ended task t phase ht hret hend =>
    refine (h.still hquiet).setTask ht ?_ rfl
    rw [Task.stages_ended hend]
    exact Advance.cut (Task.settled_prefix hret)
  | @abandoned task t written left write ht hphase =>
    have hpre := Task.settled_prefix (t := t) fun result => by simp [hphase]
    have hmoved : Stories _ (w.setTask task (t.withPhase .dropped)) :=
      (h.still hquiet).setTask ht (Advance.cut hpre) rfl
    have hunsent : (write.id, Stage.unsent) ∈ t.stages := by
      simp [Task.stages, hphase, unsentStages]
    refine hmoved.detach ((h.tasks task t ht).mem_pending hunsent) fun u hu st hst => ?_
    obtain rfl := Option.some.inj ((World.tasks_setTask_self ..).symm.trans hu)
    -- the write was unsent, so its point was not settled
    obtain rfl := (h.tasks task t ht).stage_unique hunsent (hpre.subset hst)
    obtain ⟨x, -, hx⟩ := List.mem_map.mp hst
    cases (Prod.mk.inj hx).2
  | @arrived i x p hx heval =>
    refine Stories.eraseIdx (w := w.setPoint x.write.id (some p))
      ⟨fun task t ht => ?_, h.ids, h.inFlight⟩ i
    refine (h.tasks task t ht).mono fun y hy => ?_
    rw [standing_concat, Event.stand]
    split_ifs with hown
    · obtain ⟨rfl, hid⟩ := hown
      obtain ⟨id, st⟩ := y
      obtain rfl : x.write.id = id := hid
      exact .inr (.inr (h.inFlight x (List.mem_of_getElem? hx) t ht st hy))
    · exact .inl rfl
  | ignored hx heval => exact (h.still fun _ _ _ => rfl).eraseIdx _
  | @erased id p hp =>
    refine ⟨fun task t ht => (h.tasks task t ht).mono fun y _ => ?_, h.ids, h.inFlight⟩
    rw [standing_concat, Event.stand]
    split_ifs with hid
    · exact .inr (.inl (by rw [hid]))
    · exact .inl rfl
  | untouched => exact h.still hquiet

/-- **Every call keeps to its story**, in every run. -/
theorem story_run (s : Start) {tr : List Event} {w : World} (hrun : Runs s.world tr w) :
    Stories tr w :=
  hrun.invariant Stories s.stories fun _ _ _ _ hpre ih hstep => ih.step hpre hstep

end Alaya
