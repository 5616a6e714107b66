import Alaya.Cluster.Cell
import Alaya.Cluster.Record

/-!
# The supersession record of a memory

Marker, reason and log of a memory move only in two ways: a supersession sets marker and reason in
one write, and a reversal takes both off and appends one entry that says what it removed.  Every
other operation leaves the three as they are, whatever the stored values are and whatever its caller
sent.  Over a run without a delete the log therefore only grows.
-/

namespace Alaya

open Json Labelled

/-- The operations that may write a supersession record. -/
def Op.Supersedes : Op → Prop
  | markSuperseded .. | supersedeIfLive .. | reverse .. => True
  | _ => False

/-- The supersession record is the same, value for value. -/
structure SameSupersession (p q : Payload) : Prop where
  marker : q.marker = p.marker
  reason : q.get supersessionReasonKey = p.get supersessionReasonKey
  log : q.get supersessionLogKey = p.get supersessionLogKey

/-- What one write may do to the supersession record. -/
inductive SupersessionMove (p q : Payload) : Prop
  | kept : SameSupersession p q → SupersessionMove p q
  /-- A marker and its reason land together. -/
  | marked (newHash reason : String) :
      q.marker = some (.string newHash) → q.get supersessionReasonKey = some (.string reason) →
      q.get supersessionLogKey = p.get supersessionLogKey → SupersessionMove p q
  /-- A marker is removed with its reason, and one entry records both. -/
  | reversed (marker : Value) (reversal : ReversalRecord) :
      p.marker = some marker → q.marker = none → q.get supersessionReasonKey = none →
      q.get supersessionLogKey = some (.array (p.supersessionLog ++
        [reversalEntry (some marker) (p.get supersessionReasonKey) reversal])) →
      SupersessionMove p q

theorem SameSupersession.refl (p : Payload) : SameSupersession p p := ⟨rfl, rfl, rfl⟩

theorem SameSupersession.trans {p q r : Payload} (h : SameSupersession p q)
    (h' : SameSupersession q r) : SameSupersession p r :=
  ⟨h'.marker.trans h.marker, h'.reason.trans h.reason, h'.log.trans h.log⟩

/-! ### One write -/

theorem sameSupersession_of_record {p q : Payload} {r : Record} (hq : q.record = r)
    (hmarker : r.marker = p.record.marker) (hreason : r.reason = p.record.reason)
    (hlog : r.log = p.record.log) : SameSupersession p q := by
  subst hq
  exact ⟨hmarker, hreason, hlog⟩

/-- The other operations leave the supersession record alone. -/
theorem sameSupersession_of_landing {op : Op} {mine : String} {p q : Payload}
    (h : Landing op mine p q) (hop : ¬op.Supersedes) : SameSupersession p q := by
  have hrecord := record_of_landing h
  cases op with
  | markSuperseded | supersedeIfLive | reverse => exact absurd trivial hop
  | _ => exact sameSupersession_of_record hrecord rfl rfl rfl

theorem supersessionMove_of_landing {op : Op} {mine : String} {p q : Payload}
    (h : Landing op mine p q) : SupersessionMove p q := by
  have hrecord := record_of_landing h
  cases op with
  | markSuperseded _ newHash reason | supersedeIfLive _ newHash reason =>
    exact .marked newHash reason (congrArg Record.marker hrecord) (congrArg Record.reason hrecord)
      (congrArg Record.log hrecord)
  | reverse contentHash expected reversal =>
    have hmarker : p.marker = some expected := by
      cases h with
      | reverse hmarker => exact hmarker
      | merge hmerged =>
        cases hmerged with
        | accessed htime => cases htime
    refine .reversed expected reversal hmarker (congrArg Record.marker hrecord)
      (congrArg Record.reason hrecord) ?_
    have hlog := congrArg Record.log hrecord
    rw [← hmarker]
    exact hlog
  | _ => exact .kept (sameSupersession_of_landing h fun hop => hop)

/-- A write never takes an entry off the log. -/
theorem SupersessionMove.log_grows {p q : Payload} (h : SupersessionMove p q) :
    p.supersessionLog <+: q.supersessionLog := by
  cases h with
  | kept hsame => rw [Payload.supersessionLog, Payload.supersessionLog, hsame.log]
  | marked _ _ _ _ hlog => rw [Payload.supersessionLog, Payload.supersessionLog, hlog]
  | reversed marker reversal _ _ _ hlog =>
    have hentries : q.supersessionLog = p.supersessionLog ++
        [reversalEntry (some marker) (p.get supersessionReasonKey) reversal] := by
      rw [Payload.supersessionLog, hlog]
      rfl
    rw [hentries]
    exact List.prefix_append ..

/-! ### Over a history without a delete -/

/-- A point that is there stays there, and its log grows. -/
theorem log_run {p : Payload} {cell : Option Payload} {evs : List CellEvent}
    (h : Run CellStep (some p) evs cell) (hkept : CellEvent.erase ∉ evs) :
    ∃ q, cell = some q ∧ p.supersessionLog <+: q.supersessionLog ∧
      ((∀ op mine, CellEvent.write op mine ∈ evs → ¬op.Supersedes) → SameSupersession p q) := by
  induction evs using List.reverseRecOn generalizing cell with
  | nil =>
    obtain rfl := Run.eq_of_nil h
    exact ⟨p, rfl, List.prefix_rfl, fun _ => .refl p⟩
  | append_singleton evs ev ih =>
    obtain ⟨mid, hrun, hstep⟩ := Run.last h
    rw [List.mem_append, not_or] at hkept
    obtain ⟨q, rfl, hlog, hsame⟩ := ih hrun hkept.1
    cases hstep with
    | erase => simp at hkept
    | @write op mine _ r hland =>
      have hlanding := landing_of_land hland
      refine ⟨r, rfl, hlog.trans (supersessionMove_of_landing hlanding).log_grows, fun hquiet => ?_⟩
      have hold := hsame fun op mine hmem => hquiet op mine (List.mem_append_left _ hmem)
      exact hold.trans (sameSupersession_of_landing hlanding (hquiet op mine (by simp)))

/-- **The supersession record is written by supersessions alone.**  From any payload, over any run
that does not delete the point: operations other than supersede and reverse leave marker, reason and
log as they are; the log only grows; and each write leaves all three alone, sets marker and reason
together, or removes them with exactly one appended entry that records both. -/
theorem supersession_record_kept {s : Start} {a b : List Event} {m w : World} {id : PointId}
    {p : Payload} (hpre : Runs s.world a m) (hp : m.points id = some p) (hrun : Runs m b w)
    (hkept : Event.erased id ∉ b) :
    ∃ q, w.points id = some q ∧ p.supersessionLog <+: q.supersessionLog ∧
      ((∀ task op write before after, Event.wrote task op write before after ∈ b →
        write.id = id → ¬op.Supersedes) → SameSupersession p q) ∧
      ∀ task op write before after, Event.wrote task op write before after ∈ b →
        write.id = id → ∃ q', before = some q' ∧ SupersessionMove q' after := by
  have hinv := s.inv.run hpre
  have hcell := cell_run hinv hrun id
  rw [hp] at hcell
  obtain ⟨q, hq, hlog, hsame⟩ := log_run hcell (by simpa using hkept)
  refine ⟨q, hq, hlog, fun hquiet => hsame fun op mine hmem => ?_, ?_⟩
  · obtain ⟨task, write, before, after, he, hid, -⟩ := mem_cellEvents_write.mp hmem
    exact hquiet task op write before after he hid
  · rintro task op write before after he rfl
    obtain ⟨b₁, b₂, rfl⟩ := List.append_of_mem he
    obtain ⟨m₁, m₂, hb₁, hstep, -⟩ := hrun.split_at
    obtain ⟨hland, hbefore, -⟩ := land_of_wrote (hinv.run hb₁) (change_of_step hstep)
    have hcell₁ := cell_run hinv hb₁ write.id
    rw [hp] at hcell₁
    obtain ⟨q', hq', -⟩ := log_run hcell₁ (by
      rw [mem_cellEvents_erase]
      exact fun hmem => hkept (List.mem_append_left _ hmem))
    rw [hq'] at hbefore
    rw [hbefore] at hland
    exact ⟨q', hbefore, supersessionMove_of_landing (landing_of_land hland)⟩

/-- The memory is superseded and the supersession reversed. -/
def supersedeAndReverse : List Action :=
  [.spawn 1 1 (.supersedeIfLive aHash "newer" "outdated"), .read 1, .send 1, .readBack 1,
    .spawn 2 1 (.reverse aHash (.string "newer") ⟨1, "cli", "mistake"⟩), .read 2, .send 2,
    .readBack 2]

theorem supersession_record_kept_reversed : ∃ a m b w p q, Runs emptyStart.world a m ∧
    m.points aPoint = some p ∧ Runs m b w ∧ w.points aPoint = some q ∧
    p.supersessionLog <+: q.supersessionLog ∧
    q.supersessionLog = [reversalEntry (some (.string "newer")) (some (.string "outdated"))
      ⟨1, "cli", "mistake"⟩] := by
  have hstored : ((exec World.step emptyStart.world [.spawn 0 1 aStore, .read 0, .send 0]).bind
      fun x => (exec World.step x.2 supersedeAndReverse).map fun y =>
        ((x.2.points aPoint).isSome, decide (Event.erased aPoint ∈ y.1),
          (y.2.points aPoint).map Payload.supersessionLog)) =
      some (true, false, some [reversalEntry (some (.string "newer"))
        (some (.string "outdated")) ⟨1, "cli", "mistake"⟩]) := by
    decide +kernel
  obtain ⟨⟨a, m⟩, hfirst, hx⟩ := Option.bind_eq_some_iff.mp hstored
  obtain ⟨⟨b, w⟩, hrest, hx⟩ := Option.map_eq_some_iff.mp hx
  obtain ⟨hthere, hx⟩ := Prod.mk.inj hx
  obtain ⟨hkept, hlog⟩ := Prod.mk.inj hx
  obtain ⟨p, hp⟩ := Option.isSome_iff_exists.mp hthere
  have hpre : Runs emptyStart.world a m := run_of_exec hfirst
  have hrun : Runs m b w := run_of_exec hrest
  obtain ⟨q, hq, hprefix, -, -⟩ :=
    supersession_record_kept hpre hp hrun (of_decide_eq_false hkept)
  refine ⟨a, m, b, w, p, q, hpre, hp, hrun, hq, hprefix, ?_⟩
  rw [hq] at hlog
  exact Option.some.inj hlog

end Alaya
