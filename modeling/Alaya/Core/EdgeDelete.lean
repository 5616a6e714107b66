import Alaya.Core.Quiescence
import Alaya.Lib.Among

/-!
# The edge-delete endpoint among other writes

`POST /edges/delete` reads whether the edge is audited and then deletes it, in two statements.  A write
between the two that makes the edge audited is deleted with it; when the edge was audited at the guard
already, the request is refused.
-/

namespace Alaya

open Interleave Labelled

/-- The stores answer each call. -/
def Service.Answers (c : Call) (s : Service) (r : Reply c) (s' : Service) : Prop :=
  Service.serve c s = (r, s')

/-- The edge `src -> dst` carries a verdict, a resolution or a refute's reason. -/
def Service.Audited (s : Service) (src dst : String) : Prop :=
  ∃ link, s.graph.contradicts src dst = some link ∧ link.audited

/-- The guard's read of the edge. -/
def guardCall (src dst : String) : Call := .graph (.countAuditedContradiction src dst)

/-- The delete of the edge. -/
def deleteCall (src dst : String) : Call := .graph (.deleteTypedEdge src dst .contradicts)

theorem countAudited_pos {g : Graph} {src dst : String} :
    0 < g.countAuditedContradiction src dst ↔
      ∃ link, g.contradicts src dst = some link ∧ link.audited := by
  unfold Graph.countAuditedContradiction
  cases g.contradicts src dst with
  | none => simp
  | some link => by_cases h : link.audited <;> simp [h]

section

open Program Alaya.Flow

variable {others : Service → Service → Prop} {src dst : String} {s s' : Service}
  {tr : List (Moment Call Service)}

/-- A moment at which the delete of the edge runs, and the states around it. -/
def DeletesAt (tr : List (Moment Call Service)) (src dst : String) (t t' : Service) : Prop :=
  ⟨some (deleteCall src dst), t, t'⟩ ∈ tr

/-- A moment at which the guard reads the edge. -/
def GuardsAt (tr : List (Moment Call Service)) (src dst : String) (t : Service) : Prop :=
  ∃ t', ⟨some (guardCall src dst), t, t'⟩ ∈ tr

/-- **The guard passes only an edge that is not audited when it reads it.** -/
theorem guard_passes {x : Except AlayaError Unit}
    (h : Among Service.Answers others (Bridge.refuseAudited src dst).run s tr x s') :
    (∀ m ∈ tr, ∀ c, m.call = some c → c = guardCall src dst) ∧
      ∃ t, GuardsAt tr src dst t ∧ (t.Audited src dst ↔ ∃ e, x = .error e) := by
  have hmakes : (Bridge.refuseAudited src dst).run.Makes fun c => c = guardCall src dst := by
    refine Makes.seq (makes_ask rfl) fun guarded => ?_
    split
    · exact .throw _
    · exact .pure _
  refine ⟨fun m hm c hc => h.makes hmakes hm hc, ?_⟩
  obtain ⟨tr₁, tr₂, r, t, rfl, hguard, hrest⟩ := Among.seq h
  obtain ⟨t₀, t₁, hmem, hserves⟩ := hguard.ask
  refine ⟨t₀, ⟨t₁, List.mem_append_left _ hmem⟩, ?_⟩
  obtain ⟨rfl, -⟩ := Prod.mk.inj (show (Except.ok _, _) = (r, t₁) from hserves)
  rw [Service.Audited, ← countAudited_pos]
  have hrest' : Among Service.Answers others (if 0 < t₀.graph.countAuditedContradiction src dst
      then (throw (Bridge.lockedEdge src dst) : Flow Unit) else pure ()).run t tr₂ x s' := hrest
  split at hrest'
  · next hpos =>
    obtain rfl := hrest'.eq_of_done
    exact ⟨fun _ => ⟨_, rfl⟩, fun _ => hpos⟩
  · next hpos =>
    obtain rfl := hrest'.eq_of_done
    exact ⟨fun h => absurd h hpos, fun ⟨_, h⟩ => by cases h⟩

/-- A run that deletes an edge passed the guard with it. -/
theorem guarded_of_deletes {r : Except AlayaError Bool}
    (h : Among Service.Answers others (Bridge.deleteEdge src dst .contradicts).run s tr r s')
    {t₀ t₁ : Service} (hdelete : DeletesAt tr src dst t₀ t₁) :
    ∃ t, GuardsAt tr src dst t ∧ ¬t.Audited src dst := by
  unfold Bridge.deleteEdge at h
  split at h
  · exact (h.makes (P := fun _ => False) (.throw _) hdelete rfl).elim
  · obtain ⟨tr₁, tr₂, x, t, rfl, hguard, hrest⟩ := Among.seq h
    obtain ⟨hcalls, t, ⟨t', hmem⟩, haudited⟩ := guard_passes hguard
    refine ⟨t, ⟨t', List.mem_append_left _ hmem⟩, fun h => ?_⟩
    -- An audited edge ends the request, and a guard is not a delete.
    obtain ⟨e, rfl⟩ := haudited.mp h
    rcases List.mem_append.mp hdelete with hdelete | hdelete
    · cases hcalls _ hdelete _ rfl
    · exact hrest.makes (P := fun _ => False) (.done _) hdelete rfl

/-- The delete leaves no edge, and the edge of the other direction as it was. -/
theorem contradicts_of_deletes {r : Except AlayaError Bool}
    (h : Among Service.Answers others (Bridge.deleteEdge src dst .contradicts).run s tr r s')
    {t t' : Service} (hdelete : DeletesAt tr src dst t t') :
    t'.graph.contradicts src dst = none ∧
      (src ≠ dst → t'.graph.contradicts dst src = t.graph.contradicts dst src) := by
  obtain ⟨answer, hserved⟩ := h.served hdelete
  obtain rfl := congrArg Prod.snd hserved
  exact ⟨if_pos ⟨rfl, rfl⟩, fun hne => if_neg fun heq => hne heq.2⟩

/-- **An audited edge is kept exactly when it was audited at the guard.**  Whatever the others do:
where the delete runs on an audited edge the edge stays and the request is refused, if and only if an
edge that is audited when the delete runs was audited when the guard read it.  The edge of the other
direction stays in every run. -/
theorem audited_kept_iff {r : Except AlayaError Bool}
    (h : Among Service.Answers others (Bridge.deleteEdge src dst .contradicts).run s tr r s') :
    ((∀ t t', DeletesAt tr src dst t t' → t.Audited src dst →
      t'.graph.contradicts src dst = t.graph.contradicts src dst ∧ ∃ e, r = .error e) ↔
      ∀ t t₀ t₁, GuardsAt tr src dst t → DeletesAt tr src dst t₀ t₁ → t₀.Audited src dst →
        t.Audited src dst) ∧
    ∀ t t', DeletesAt tr src dst t t' → src ≠ dst →
      t'.graph.contradicts dst src = t.graph.contradicts dst src := by
  refine ⟨?_, fun t t' hdelete => (contradicts_of_deletes h hdelete).2⟩
  constructor
  · intro hkept t t₀ t₁ _ hdelete haudited
    obtain ⟨hsame, -⟩ := hkept t₀ t₁ hdelete haudited
    obtain ⟨link, hlink, -⟩ := haudited
    rw [(contradicts_of_deletes h hdelete).1, hlink] at hsame
    cases hsame
  · intro hguarded t₀ t₁ hdelete haudited
    obtain ⟨t, hguard, hunaudited⟩ := guarded_of_deletes h hdelete
    exact absurd (hguarded t t₀ t₁ hguard hdelete haudited) hunaudited

end

/-! ### A verdict between the guard and the delete -/

/-- Two memories, linked by an edge that nobody has judged. -/
def linkedMemories : Service :=
  { twoMemories with
    graph := (twoMemories.graph.createTypedEdge eldestHash survivorHash .contradicts 1 none).2 }

def judgedVerdict : EdgeVerdict where
  verdict := .contradiction
  verdictSurvivor := none
  verdictReason := "they disagree"
  verdictConfidence := 1
  verdictModel := "judge"
  judgedAt := 2

/-- The judge writes its verdict on the edge. -/
def JudgeMoves (s s' : Service) : Prop :=
  s' = (Service.serve (.graph (.setContradictionVerdict eldestHash survivorHash judgedVerdict)) s).2

/-- A request whose guard passes, and another's move before its delete. -/
theorem delete_run {others : Service → Service → Prop} {s s' : Service} {src dst : String}
    (hsrc : validateContentHash src) (hdst : validateContentHash dst) (h : ¬s.Audited src dst)
    {tr : List (Moment Call Service)} {r : Except AlayaError Bool}
    (hrest : Among Service.Answers others (do
      let deleted ← Flow.graph (.deleteTypedEdge src dst .contradicts)
      return decide (0 < (show ℕ from deleted)) : Flow Bool).run s tr r s') :
    Among Service.Answers others (Bridge.deleteEdge src dst .contradicts).run s
      (⟨some (guardCall src dst), s, s⟩ :: tr) r s' := by
  rw [Service.Audited, ← countAudited_pos] at h
  have hread : Among Service.Answers others (Flow.graph (.countAuditedContradiction src dst)).run s
      [⟨some (guardCall src dst), s, s⟩] (.ok (s.graph.countAuditedContradiction src dst)) s :=
    .call rfl .done
  have hpass : Among Service.Answers others (if 0 < s.graph.countAuditedContradiction src dst
      then (throw (Bridge.lockedEdge src dst) : Flow Unit) else pure ()).run s [] (.ok ()) s := by
    rw [if_neg h]
    exact .done
  have hguard : Among Service.Answers others (Bridge.refuseAudited src dst).run s
      [⟨some (guardCall src dst), s, s⟩] (.ok ()) s := Among.append_seq hread hpass
  have hvalid : ¬(!validateContentHash src || !validateContentHash dst) = true := by simp [hsrc, hdst]
  rw [Bridge.deleteEdge, if_neg hvalid]
  exact Among.append_seq hguard hrest

/-- The delete, and what it answers. -/
theorem delete_rest (others : Service → Service → Prop) (s : Service) (src dst : String) :
    Among Service.Answers others (do
      let deleted ← Flow.graph (.deleteTypedEdge src dst .contradicts)
      return decide (0 < (show ℕ from deleted)) : Flow Bool).run s
      [⟨some (deleteCall src dst), s, (Service.serve (deleteCall src dst) s).2⟩]
      (.ok (decide (0 < (s.graph.deleteTypedEdge src dst .contradicts).1)))
      (Service.serve (deleteCall src dst) s).2 :=
  .call rfl .done

theorem valid_eldestHash : validateContentHash eldestHash := by decide +kernel

theorem valid_survivorHash : validateContentHash survivorHash := by decide +kernel

theorem link_linkedMemories :
    linkedMemories.graph.contradicts eldestHash survivorHash =
      some { createdAt := some 1, confidence := none } := by
  decide +kernel

theorem unaudited_linkedMemories : ¬linkedMemories.Audited eldestHash survivorHash := by
  rintro ⟨link, hlink, haudited⟩
  rw [link_linkedMemories] at hlink
  obtain rfl := Option.some.inj hlink
  cases haudited

/-- **A verdict written after the guard's read is deleted with its edge**, and the request answers
that it deleted the edge. -/
theorem audited_edge_deleted : ∃ tr r s' t t',
    Among Service.Answers JudgeMoves (Bridge.deleteEdge eldestHash survivorHash .contradicts).run
      linkedMemories tr r s' ∧
      DeletesAt tr eldestHash survivorHash t t' ∧ t.Audited eldestHash survivorHash ∧
      t'.graph.contradicts eldestHash survivorHash = none ∧ r = .ok true := by
  set judged := (Service.serve (.graph (.setContradictionVerdict eldestHash survivorHash judgedVerdict))
    linkedMemories).2 with hjudged
  have hmove : JudgeMoves linkedMemories judged := hjudged
  have hlink : judged.graph.contradicts eldestHash survivorHash =
      some { createdAt := some 1, confidence := none, judgement := judgedVerdict.judgement } := by
    decide +kernel
  have hdeleted : 0 < (judged.graph.deleteTypedEdge eldestHash survivorHash .contradicts).1 := by
    simp [Graph.deleteTypedEdge, hlink]
  have hrun := delete_run valid_eldestHash valid_survivorHash unaudited_linkedMemories
    (.other hmove (delete_rest JudgeMoves judged eldestHash survivorHash))
  rw [decide_eq_true hdeleted] at hrun
  refine ⟨_, _, _, judged, (Service.serve (deleteCall eldestHash survivorHash) judged).2, hrun, ?hdelete,
    ⟨_, hlink, rfl⟩, (contradicts_of_deletes hrun ?hdelete).1, rfl⟩
  exact List.mem_cons_of_mem _ (List.mem_cons_of_mem _ List.mem_cons_self)

/-- Undisturbed, the request deletes an edge that nobody judged. -/
theorem unaudited_edge_deleted : ∃ tr r s',
    Among Service.Answers JudgeMoves (Bridge.deleteEdge eldestHash survivorHash .contradicts).run
      linkedMemories tr r s' ∧ r = .ok true ∧
      ∀ t t₀ t₁, GuardsAt tr eldestHash survivorHash t → DeletesAt tr eldestHash survivorHash t₀ t₁ →
        t₀.Audited eldestHash survivorHash → t.Audited eldestHash survivorHash := by
  have hdeleted : 0 < (linkedMemories.graph.deleteTypedEdge eldestHash survivorHash .contradicts).1 := by
    simp [Graph.deleteTypedEdge, link_linkedMemories]
  have hrun := delete_run valid_eldestHash valid_survivorHash unaudited_linkedMemories
    (delete_rest JudgeMoves linkedMemories eldestHash survivorHash)
  rw [decide_eq_true hdeleted] at hrun
  refine ⟨_, _, _, hrun, rfl, (audited_kept_iff hrun).1.mp fun t t' hdelete haudited => ?_⟩
  rcases List.mem_cons.mp hdelete with hguard | hdelete
  · cases congrArg Moment.call hguard
  · obtain rfl := congrArg Moment.before (List.mem_singleton.mp hdelete)
    exact absurd haudited unaudited_linkedMemories

end Alaya
