import Alaya.Core.EdgeDelete
import Alaya.Core.Judge
import Alaya.Core.Refutation

/-!
# The record on a CONTRADICTS edge

Verdicts, resolutions and refute reasons are written on one edge by different operations.  Each has
its own properties and leaves those of the others alone, a verdict is never taken back, and a reversal
that finds its memory superseded by another takes back the stamps it made.
-/

namespace Alaya

open Json Interleave Labelled

/-- The edge carries a verdict, and not the marker of a failure. -/
def Link.Judged (link : Link) : Prop := ∃ v, link.judgement.verdict = some v ∧ v ≠ .unjudged

/-- An operation that writes on CONTRADICTS edges, with the clock it reads. -/
inductive LinkRequest where
  | judge (engine : Option Judge) (src dst : String) (now : ℚ)
  | setVerdict (source target : String) (v : EdgeVerdict)
  | resolve (memoryAHash memoryBHash : String) (resolution : Option Resolution) (via : String) (now : ℚ)
  | setResolution (source target : String) (resolution : Option Resolution) (resolvedVia : String)
      (resolvedAt : ℚ) (ifUnresolved ifStamped : Bool)
  | refute (contentHash : String) (refutation : Refutation) (now : ℚ)
  | store (params : StoreParams) (readOnly insertOnly : Bool) (now : ℚ)
  | unsupersede (contentHash reason via : String) (now : ℚ)

def LinkRequest.program (lib : Components) : LinkRequest → Program Reply Unit
  | judge engine src dst now => (MemoryService.judgeContradiction engine src dst now).detach
  | setVerdict source target v => (Bridge.setVerdict source target v).detach
  | resolve memoryAHash memoryBHash resolution via now =>
    (MemoryService.resolveContradiction memoryAHash memoryBHash resolution via now).detach
  | setResolution source target resolution resolvedVia resolvedAt ifUnresolved ifStamped =>
    (Bridge.setResolution source target resolution resolvedVia resolvedAt ifUnresolved ifStamped).detach
  | refute contentHash refutation now => (MemoryService.memoryRefute lib contentHash refutation now).detach
  | store params readOnly insertOnly now =>
    (MemoryService.storeMemoryMode lib params readOnly insertOnly now).detach
  | unsupersede contentHash reason via now =>
    (MemoryService.memoryUnsupersede contentHash reason via now).detach

/-! ### The calls they make -/

/-- The calls of a judgement. -/
def Call.Judges : Call → Prop
  | .vectors (.getBatch _) | .graph (.setContradictionVerdict ..) => True
  | _ => False

/-- The calls of a resolution; one that asks for an unresolved edge only settles. -/
def Call.Resolves (ifUnresolved : Bool) : Call → Prop
  | .graph (.setContradictionResolution ..) | .graph (.unsettleContradiction ..) => ifUnresolved = false
  | .graph (.settleContradiction ..) => True
  | _ => False

def LinkRequest.Calls (lib : Components) : LinkRequest → Call → Prop
  | judge .., c | setVerdict .., c => c.Judges
  | resolve .., c => c.Resolves false
  | setResolution _ _ _ _ _ ifUnresolved _, c => c.Resolves ifUnresolved
  | refute contentHash refutation _, c => c.OfRefute lib contentHash refutation
  | store params readOnly insertOnly _, c => c.OfStore lib params readOnly insertOnly
  | unsupersede contentHash _ _ now, c => c.OfReversal contentHash now

section

open Alaya.Flow Program

theorem makes_setResolution (source target : String) (resolution : Option Resolution)
    (resolvedVia : String) (resolvedAt : ℚ) (ifUnresolved ifStamped : Bool) :
    (Bridge.setResolution source target resolution resolvedVia resolvedAt ifUnresolved
      ifStamped).run.Makes (Call.Resolves ifUnresolved) := by
  have hstatement : ∀ via, (Bridge.resolutionStatement source target resolution via resolvedAt
      ifUnresolved ifStamped).run.Makes (Call.Resolves ifUnresolved) := by
    intro via
    cases ifUnresolved with
    | true =>
      cases ifStamped with
      | true => exact .throw _
      | false =>
        rcases resolution with _ | ⟨⟨⟩⟩
        · exact .throw _
        · exact makes_ask trivial
    | false =>
      cases ifStamped with
      | false => exact makes_ask rfl
      | true =>
        cases resolution with
        | some resolution => exact .throw _
        | none =>
          have hclear : ∀ empty : Bool, (if empty then throw Bridge.unprocessable else
              graph (.unsettleContradiction source target via resolvedAt) : Flow ℕ).run.Makes
              (Call.Resolves false) := by
            rintro (_ | _)
            · exact makes_ask rfl
            · exact .throw _
          exact hclear _
  unfold Bridge.setResolution
  split
  · exact .throw _
  split
  · exact .throw _
  · exact (hstatement _).seq fun _ => .pure _

theorem makes_resolveContradiction (memoryAHash memoryBHash : String) (resolution : Option Resolution)
    (via : String) (now : ℚ) : (MemoryService.resolveContradiction memoryAHash memoryBHash resolution via
      now).run.Makes (Call.Resolves false) := by
  refine Makes.seq (.ofExcept _) fun via => (makes_setResolution ..).seq fun matched => ?_
  split
  · exact .throw _
  · exact .pure _

/-- Each request makes its own calls. -/
theorem LinkRequest.makes_program (lib : Components) (request : LinkRequest) :
    (request.program lib).Makes (request.Calls lib) := by
  cases request with
  | judge => exact makes_detach (makes_judgeContradiction _ trivial fun _ _ => trivial)
  | setVerdict => exact makes_detach (makes_setVerdict _ trivial)
  | resolve => exact makes_detach (makes_resolveContradiction ..)
  | setResolution => exact makes_detach (makes_setResolution ..)
  | refute => exact makes_detach makes_memoryRefute
  | store => exact makes_detach (makes_storeMemoryMode ..)
  | unsupersede => exact makes_detach (makes_memoryUnsupersede ..)

end

/-! ### What they leave of an edge -/

/-- What a request may do to the properties of an edge that is there. -/
def LinkRequest.Leaves : LinkRequest → Link → Link → Prop
  | judge .., link, link' | setVerdict .., link, link' =>
    link'.stamp = link.stamp ∧ link'.refuteReason = link.refuteReason
  | resolve .., link, link' =>
    link'.judgement = link.judgement ∧ link'.refuteReason = link.refuteReason
  | setResolution _ _ _ _ _ ifUnresolved _, link, link' =>
    (link'.judgement = link.judgement ∧ link'.refuteReason = link.refuteReason) ∧
      (ifUnresolved = true → link.stamp.resolution.isSome → link'.stamp = link.stamp)
  | refute .., link, link' =>
    link'.judgement = link.judgement ∧ link'.stamp = link.stamp ∧
      ∀ reason, link.refuteReason = some reason → link'.refuteReason = some reason
  | store .., link, link' => link' = link
  | unsupersede _ _ _ now, link, link' =>
    (link'.judgement = link.judgement ∧ link'.refuteReason = link.refuteReason) ∧
      (link.stamp.resolution.isSome → link'.stamp = link.stamp ∨
        link.stamp = Graph.keepBoth unsupersedeResolvedVia now ∧ link'.stamp = {})

theorem LinkRequest.Leaves.refl (request : LinkRequest) (link : Link) : request.Leaves link link := by
  cases request with
  | judge | setVerdict | resolve => exact ⟨rfl, rfl⟩
  | setResolution => exact ⟨⟨rfl, rfl⟩, fun _ _ => rfl⟩
  | refute => exact ⟨rfl, rfl, fun _ h => h⟩
  | store => exact rfl
  | unsupersede => exact ⟨⟨rfl, rfl⟩, fun _ => .inl rfl⟩

/-- An edge that is there stays, as it was or edited where it passed the test. -/
theorem link_editLink {g : Graph} {a b : String} {link : Link}
    (h : g.contradicts a b = some link) (src dst : String) (test : Link → Bool) (edit : Link → Link) :
    ∃ link', (g.editLink src dst test edit).2.contradicts a b = some link' ∧
      (link' = link ∨ test link ∧ link' = edit link) := by
  rw [Graph.contradicts_editLink]
  split_ifs with hab
  · obtain ⟨rfl, rfl⟩ := hab
    rw [h, Option.map_some]
    by_cases htest : test link
    · exact ⟨_, rfl, .inr ⟨htest, if_pos htest⟩⟩
    · exact ⟨_, rfl, .inl (if_neg htest)⟩
  · exact ⟨link, h, .inl rfl⟩

section

variable {lib : Components} {request : LinkRequest} {g : Graph} {a b : String} {link : Link}

/-- What a request leaves of an edge, with its verdict. -/
def LinkRequest.Keeps (request : LinkRequest) (link : Link) (after : Option Link) : Prop :=
  ∃ link', after = some link' ∧ request.Leaves link link' ∧ (link.Judged → link'.Judged)

theorem LinkRequest.Keeps.same {after : Option Link} (h : after = some link) :
    request.Keeps link after := ⟨link, h, .refl request link, id⟩

/-- A verdict is replaced by a verdict, and nothing else changes. -/
theorem keeps_setVerdict {src dst : String} {v : EdgeVerdict} (hlink : g.contradicts a b = some link)
    (hc : request.Calls lib (.graph (.setContradictionVerdict src dst v))) :
    request.Keeps link ((g.setContradictionVerdict src dst v).2.contradicts a b) := by
  obtain ⟨link', hlink', rfl | ⟨htest, rfl⟩⟩ := link_editLink hlink src dst
    (fun link => v.verdict ≠ .unjudged || link.judgement.verdict = none ||
      link.judgement.verdict = some v.verdict) fun link => { link with judgement := v.judgement }
  · exact .same hlink'
  refine ⟨_, hlink', ?_, fun ⟨verdict, hverdict, hreal⟩ => ⟨v.verdict, rfl, fun hunjudged => ?_⟩⟩
  · cases request with
    | judge | setVerdict => exact ⟨rfl, rfl⟩
    | resolve | setResolution | store | unsupersede => exact hc.elim
    | refute => rcases hc with hc | hc <;> exact hc.elim
  · -- A marker of a failure only replaces such a marker.
    simp only [hunjudged, hverdict, ne_eq, not_true_eq_false, decide_false, reduceCtorEq,
      Bool.false_or, decide_eq_true_eq, Option.some.injEq] at htest
    exact hreal htest

/-- The statements that write a resolution leave verdict and reason alone. -/
theorem keeps_resolution {src dst : String} {test : Link → Bool} {edit : Link → Link}
    (hlink : g.contradicts a b = some link)
    (hedit : ∀ link, (edit link).judgement = link.judgement ∧ (edit link).refuteReason = link.refuteReason)
    (hleaves : test link → request.Leaves link (edit link)) :
    request.Keeps link ((g.editLink src dst test edit).2.contradicts a b) := by
  obtain ⟨link', hlink', rfl | ⟨htest, rfl⟩⟩ := link_editLink hlink src dst test edit
  · exact .same hlink'
  · refine ⟨_, hlink', hleaves htest, fun ⟨verdict, hverdict, hreal⟩ => ⟨verdict, ?_, hreal⟩⟩
    rw [(hedit link).1]
    exact hverdict

theorem keeps_linkRefutation {src dst : String} {ts : ℚ} {reason : String}
    (hlink : g.contradicts a b = some link)
    (hc : request.Calls lib (.graph (.linkRefutation src dst ts reason))) :
    request.Keeps link ((g.linkRefutation src dst ts reason).2.contradicts a b) := by
  rw [Graph.contradicts_linkRefutation, hlink, Option.getD_some]
  split
  · refine ⟨_, rfl, ?_, id⟩
    cases request with
    | refute => exact ⟨rfl, rfl, fun stored hstored => by rw [hstored, Option.getD_some]⟩
    | judge | setVerdict | resolve | setResolution | store | unsupersede => exact hc.elim
  · exact .same rfl

/-- **What one statement of a request leaves of an edge that is there.** -/
theorem keeps_exec {c : GraphCall} (hc : request.Calls lib (.graph c))
    (hlink : g.contradicts a b = some link) : request.Keeps link ((c.exec g).2.contradicts a b) := by
  cases c with
  | ensureNode | deleteIncomingSystemEdges | countAuditedContradiction | listMemoryNodes
  | sweepMarkMemoryNodes => exact .same hlink
  | createSystemEdge => exact .same ((congrFun (congrFun (g.contradicts_createSystemEdge) a) b).trans hlink)
  | createTypedEdge src dst rel ts confidence =>
    refine .same ?_
    show (g.createTypedEdge src dst rel ts confidence).2.contradicts a b = _
    rw [Graph.contradicts_createTypedEdge, hlink, Option.getD_some, ite_self]
  | linkRefutation => exact keeps_linkRefutation hlink hc
  | setContradictionVerdict => exact keeps_setVerdict hlink hc
  | setContradictionResolution =>
    refine keeps_resolution hlink (fun _ => ⟨rfl, rfl⟩) fun _ => ?_
    cases request with
    | resolve => exact ⟨rfl, rfl⟩
    | setResolution => exact ⟨⟨rfl, rfl⟩, fun h => by cases hc.symm.trans h⟩
    | judge | setVerdict | store | unsupersede => exact hc.elim
    | refute => rcases hc with hc | hc <;> exact hc.elim
  | settleContradiction =>
    refine keeps_resolution hlink (fun _ => ⟨rfl, rfl⟩) fun htest => ?_
    have hunresolved : ¬link.stamp.resolution.isSome := by simpa using htest
    cases request with
    | resolve => exact ⟨rfl, rfl⟩
    | setResolution => exact ⟨⟨rfl, rfl⟩, fun _ h => absurd h hunresolved⟩
    | unsupersede => exact ⟨⟨rfl, rfl⟩, fun h => absurd h hunresolved⟩
    | judge | setVerdict | store => exact hc.elim
    | refute => rcases hc with hc | hc <;> exact hc.elim
  | unsettleContradiction =>
    refine keeps_resolution hlink (fun _ => ⟨rfl, rfl⟩) fun htest => ?_
    cases request with
    | resolve => exact ⟨rfl, rfl⟩
    | setResolution => exact ⟨⟨rfl, rfl⟩, fun h => by cases hc.symm.trans h⟩
    | unsupersede =>
      obtain ⟨rfl, rfl⟩ := hc
      exact ⟨⟨rfl, rfl⟩, fun _ => .inr ⟨of_decide_eq_true htest, rfl⟩⟩
    | judge | setVerdict | store => exact hc.elim
    | refute => rcases hc with hc | hc <;> exact hc.elim
  | deleteNode | deleteTypedEdge | sweepDeleteMarkedNodes =>
    cases request with
    | refute => rcases hc with hc | hc <;> exact hc.elim
    | _ => exact hc.elim

theorem keeps_effect {c : Call} {s s' : Service} (hc : request.Calls lib c) (h : s.Effect c s')
    (hlink : s.graph.contradicts a b = some link) : request.Keeps link (s'.graph.contradicts a b) := by
  cases h with
  | quiet | landed | deleted | queued => exact .same hlink
  | graph => exact keeps_exec hc hlink

end

/-! ### All interleavings -/

/-- The requests at their start. -/
def startLinks {ι : Type} (lib : Components) (requests : ι → LinkRequest) (s : Service) :
    Pool ι Reply Unit Service :=
  ⟨fun i => (requests i).program lib, s⟩

section

variable {ι : Type} [DecidableEq ι] {lib : Components} {requests : ι → LinkRequest}
  {pool pool' : Pool ι Reply Unit Service}

/-- Every program makes the calls of its request. -/
def OfRequests (lib : Components) (requests : ι → LinkRequest) (pool : Pool ι Reply Unit Service) :
    Prop := ∀ j, (pool.programs j).Makes ((requests j).Calls lib)

theorem ofRequests_step {i e : ι} (hpool : OfRequests lib requests pool)
    (h : pool.step Service.serve i = some (e, pool')) : OfRequests lib requests pool' :=
  Pool.makes_step h hpool

theorem ofRequests_run {s : Service} {tr : List ι}
    (h : Run (Steps (Pool.step Service.serve)) (startLinks lib requests s) tr pool) :
    OfRequests lib requests pool := by
  refine h.preserves (OfRequests lib requests) (fun j => (requests j).makes_program lib) ?_
  rintro pool e pool' hpool ⟨i, hstep⟩
  exact ofRequests_step hpool hstep

/-- **One step of a request keeps every edge**, with what the request leaves of it. -/
theorem keeps_step {i e : ι} (hpool : OfRequests lib requests pool)
    (h : pool.step Service.serve i = some (e, pool')) {a b : String} {link : Link}
    (hlink : pool.state.graph.contradicts a b = some link) :
    (requests i).Keeps link (pool'.state.graph.contradicts a b) := by
  obtain ⟨c, next, hprogram, -, -, hstate⟩ := Pool.step_eq_some h
  have hmakes := hpool i
  rw [hprogram] at hmakes
  rw [hstate]
  exact keeps_effect hmakes.1 (Service.effect_of_serve c pool.state) hlink

/-- A verdict stays a verdict along every run. -/
theorem judged_run {pool₁ pool₂ : Pool ι Reply Unit Service} {tr : List ι}
    (hpool : OfRequests lib requests pool₁)
    (h : Run (Steps (Pool.step Service.serve)) pool₁ tr pool₂) {a b : String} {link : Link}
    (hlink : pool₁.state.graph.contradicts a b = some link) (hjudged : link.Judged) :
    ∃ link', pool₂.state.graph.contradicts a b = some link' ∧ link'.Judged := by
  have hinv : OfRequests lib requests pool₂ ∧
      ∃ link', pool₂.state.graph.contradicts a b = some link' ∧ link'.Judged := by
    refine h.preserves (fun pool => OfRequests lib requests pool ∧
      ∃ link', pool.state.graph.contradicts a b = some link' ∧ link'.Judged)
      ⟨hpool, link, hlink, hjudged⟩ ?_
    rintro pool e pool' ⟨hpool, link, hlink, hjudged⟩ ⟨i, hstep⟩
    obtain ⟨link', hlink', -, hkept⟩ := keeps_step hpool hstep hlink
    exact ⟨ofRequests_step hpool hstep, link', hlink', hkept hjudged⟩
  exact hinv.2

end

/-! ### A reversal that reversed nothing -/

/-- The operator's stamp on the edge `a -> b`, when there is such an edge. -/
def Service.stampAt (a b : String) (s : Service) : Option Stamp :=
  (s.graph.contradicts a b).map Link.stamp

/-- The stamp on an edge as the others alone left it: their last change, or what was there. -/
def othersStamp (a b : String) (tr : List (Moment Call Service)) (start : Option Stamp) : Option Stamp :=
  follow (fun t t' y => if t'.stampAt a b = t.stampAt a b then y else t'.stampAt a b) tr start

/-- Nobody else writes this very stamp. -/
def StampsOther (a b : String) (mine : Stamp) (t t' : Service) : Prop :=
  t'.stampAt a b ≠ t.stampAt a b → t'.stampAt a b ≠ some mine

/-- The same resolution: the same stamp, or two without a resolution. -/
def SameResolution (x y : Option Stamp) : Prop :=
  x = y ∨ ∃ p q, x = some p ∧ y = some q ∧ p.resolution = none ∧ q.resolution = none

section

open Alaya.Flow

variable {others : Service → Service → Prop} {s s' : Service} {tr : List (Moment Call Service)}
  {a b contentHash : String} {now : ℚ} {y : Option Stamp}

/-- The stamp an edge and the stamp the others left are related. -/
abbrev Related (a b : String) (R : Option Stamp → Option Stamp → Prop) (t : Service)
    (y : Option Stamp) : Prop := R (t.stampAt a b) y

/-- The edge carries this call's stamp over no resolution, or what the others left. -/
def Pending (mine : Stamp) (x y : Option Stamp) : Prop :=
  (x = some mine ∧ ∃ q, y = some q ∧ q.resolution = none) ∨ x = y ∧ y ≠ some mine

/-- This call's stamp is off the edge again. -/
def Restored (mine : Stamp) (x y : Option Stamp) : Prop :=
  (x = y ∧ y ≠ some mine) ∨ ∃ p q, x = some p ∧ y = some q ∧ p.resolution = none ∧ q.resolution = none

/-- What the others do keeps a relation that holds of every stamp they may write. -/
theorem related_others {R : Option Stamp → Option Stamp → Prop} {mine : Stamp}
    (hR : ∀ x, x ≠ some mine → R x x) (t t' : Service) (y : Option Stamp)
    (hmove : StampsOther a b mine t t') (h : Related a b R t y) :
    Related a b R t' (if t'.stampAt a b = t.stampAt a b then y else t'.stampAt a b) := by
  split_ifs with hsame
  · rw [Related, hsame]
    exact h
  · exact hR _ (hmove hsame)

/-- A call that leaves the stamp on `a -> b`. -/
def Call.LeavesStamp (a b : String) : Call → Prop
  | .graph (.settleContradiction a' b' ..) | .graph (.unsettleContradiction a' b' ..) => ¬(a' = a ∧ b' = b)
  | .graph (.deleteIncomingSystemEdges _) | .graph (.createSystemEdge ..) => True
  | .vectors _ => True
  | _ => False

theorem stampAt_editLink {g : Graph} {src dst : String} {test : Link → Bool} {edit : Link → Link}
    (h : ¬(src = a ∧ dst = b)) :
    ((g.editLink src dst test edit).2.contradicts a b).map Link.stamp =
      (g.contradicts a b).map Link.stamp := by
  rw [Graph.contradicts_editLink, if_neg fun heq => h ⟨heq.1.symm, heq.2.symm⟩]

theorem stampAt_of_leaves {c : Call} (hc : c.LeavesStamp a b) (h : s.Effect c s') :
    s'.stampAt a b = s.stampAt a b := by
  cases h with
  | quiet | landed | deleted | queued => rfl
  | @graph c =>
    cases c with
    | settleContradiction | unsettleContradiction => exact stampAt_editLink hc
    | deleteIncomingSystemEdges => rfl
    | createSystemEdge src dst =>
      exact congrArg (fun contradicts => (contradicts a b).map Link.stamp)
        (Graph.contradicts_createSystemEdge s.graph)
    | _ => exact hc.elim

/-- Calls that leave the stamp keep every relation. -/
theorem related_of_leaves {α : Type} {p : Flow α} {x : Except AlayaError α} {mine : Stamp}
    {R : Option Stamp → Option Stamp → Prop} (hR : ∀ x, x ≠ some mine → R x x)
    (hp : p.run.Makes (Call.LeavesStamp a b)) (h : Among Service.Answers others p.run s tr x s')
    (hothers : Others tr (StampsOther a b mine)) (hs : Related a b R s y) :
    Related a b R s' (othersStamp a b tr y) := by
  refine h.simulates (J := Related a b R) hp ?_ (related_others hR) hothers hs
  intro c t r t' y hc hserves ht
  have heffect : t.Effect c t' := by
    obtain rfl := congrArg Prod.snd (show Service.serve c t = (r, t') from hserves)
    exact Service.effect_of_serve c t
  rw [Related, stampAt_of_leaves hc heffect]
  exact ht

/-- The stamp of a reversal at `now`. -/
def reversalStamp (now : ℚ) : Stamp := Graph.keepBoth unsupersedeResolvedVia now

/-- The edge carries this call's stamp, if it made one, over what the others left. -/
def Settled (now : ℚ) (made : Prop) (x y : Option Stamp) : Prop :=
  (made → Pending (reversalStamp now) x y) ∧ (¬made → x = y)

theorem settled_self {made : Prop} (x : Option Stamp) (hx : x ≠ some (reversalStamp now)) :
    Settled now made x x := ⟨fun _ => .inr ⟨rfl, hx⟩, fun _ => rfl⟩

theorem pending_self (x : Option Stamp) (hx : x ≠ some (reversalStamp now)) :
    Pending (reversalStamp now) x x := .inr ⟨rfl, hx⟩

theorem restored_self (x : Option Stamp) (hx : x ≠ some (reversalStamp now)) :
    Restored (reversalStamp now) x x := .inl ⟨rfl, hx⟩

/-- A settle that matched stamped an unresolved edge; one that did not left it alone. -/
theorem settled_of_settle {n : ℕ} (hserves : Service.Answers
    (.graph (.settleContradiction a b unsupersedeResolvedVia now)) s (.ok n) s')
    (hs : s.stampAt a b = y) : Settled now (0 < n) (s'.stampAt a b) y := by
  obtain ⟨hanswer, rfl⟩ := Prod.mk.inj (show Service.serve _ s = _ from hserves)
  have hcount : (s.graph.settleContradiction a b unsupersedeResolvedVia now).1 = n :=
    Except.ok.inj hanswer
  have hafter : (s.graph.settleContradiction a b unsupersedeResolvedVia now).2.contradicts a b =
      _ := (Graph.contradicts_editLink ..).trans (if_pos ⟨rfl, rfl⟩)
  show Settled now _ (((s.graph.settleContradiction a b unsupersedeResolvedVia now).2.contradicts
    a b).map Link.stamp) y
  rw [hafter]
  unfold Graph.settleContradiction Graph.editLink at hcount
  unfold Service.stampAt at hs
  cases hlink : s.graph.contradicts a b with
  | none =>
    rw [hlink] at hcount hs
    obtain rfl := hcount
    exact ⟨fun h => absurd h (lt_irrefl 0), fun _ => hs⟩
  | some link =>
    rw [hlink] at hcount hs
    dsimp only at hcount
    rw [Option.map_some, Option.map_some]
    by_cases htest : decide (link.stamp.resolution = none) = true
    · rw [if_pos htest] at hcount ⊢
      obtain rfl := hcount
      exact ⟨fun _ => .inl ⟨rfl, link.stamp, hs.symm, of_decide_eq_true htest⟩,
        fun h => absurd zero_lt_one h⟩
    · rw [if_neg htest] at hcount ⊢
      obtain rfl := hcount
      exact ⟨fun h => absurd h (lt_irrefl 0), fun _ => hs⟩

/-- Taking back leaves this call's stamp off the edge, and any other on it. -/
theorem restored_of_unsettle {r : Reply (.graph (.unsettleContradiction a b unsupersedeResolvedVia now))}
    (hserves : Service.Answers (.graph (.unsettleContradiction a b unsupersedeResolvedVia now)) s r s')
    (hs : Pending (reversalStamp now) (s.stampAt a b) y) :
    Restored (reversalStamp now) (s'.stampAt a b) y := by
  obtain ⟨-, rfl⟩ := Prod.mk.inj (show Service.serve _ s = _ from hserves)
  have hafter : (s.graph.unsettleContradiction a b unsupersedeResolvedVia now).2.contradicts a b =
      _ := (Graph.contradicts_editLink ..).trans (if_pos ⟨rfl, rfl⟩)
  show Restored _ (((s.graph.unsettleContradiction a b unsupersedeResolvedVia now).2.contradicts
    a b).map Link.stamp) y
  rw [hafter]
  unfold Service.stampAt at hs
  cases hlink : s.graph.contradicts a b with
  | none =>
    rw [hlink] at hs
    rcases hs with ⟨h, -⟩ | h
    · cases h
    · exact .inl h
  | some link =>
    rw [hlink, Option.map_some] at hs
    rw [Option.map_some, Option.map_some]
    rcases hs with ⟨h, q, hq, hnone⟩ | ⟨rfl, hmine⟩
    · have hstamp : decide (link.stamp = Graph.keepBoth unsupersedeResolvedVia now) = true :=
        decide_eq_true (Option.some.inj h)
      rw [if_pos hstamp]
      exact .inr ⟨{}, q, rfl, hq, rfl, hnone⟩
    · have hstamp : ¬decide (link.stamp = Graph.keepBoth unsupersedeResolvedVia now) = true :=
        fun h => hmine (congrArg some (of_decide_eq_true h))
      rw [if_neg hstamp]
      exact .inl ⟨rfl, hmine⟩

/-- A statement that takes back an edge's stamp keeps one that is off it already. -/
theorem restored_unsettle_again {a' b' : String}
    {r : Reply (.graph (.unsettleContradiction a' b' unsupersedeResolvedVia now))}
    (hserves : Service.Answers (.graph (.unsettleContradiction a' b' unsupersedeResolvedVia now)) s r s')
    (hs : Restored (reversalStamp now) (s.stampAt a b) y) :
    Restored (reversalStamp now) (s'.stampAt a b) y := by
  by_cases hab : a' = a ∧ b' = b
  · obtain ⟨rfl, rfl⟩ := hab
    rcases hs with hs | ⟨p, q, hp, hq, hpnone, hqnone⟩
    · exact restored_of_unsettle hserves (.inr hs)
    · -- An edge without a resolution does not carry the stamp, and the statement leaves it.
      have hmine : s.stampAt a' b' ≠ some (reversalStamp now) := by
        rintro h
        obtain rfl := Option.some.inj (hp.symm.trans h)
        cases hpnone
      rcases restored_of_unsettle hserves (.inr ⟨rfl, hmine⟩) with ⟨hsame, -⟩ | ⟨p', q', hp', hq', hnone, -⟩
      · exact .inr ⟨p, q, hsame.trans hp, hq, hpnone, hqnone⟩
      · exact .inr ⟨p', q, hp', hq, hnone, hqnone⟩
  · have heffect : s.Effect (.graph (.unsettleContradiction a' b' unsupersedeResolvedVia now)) s' := by
      obtain rfl := congrArg Prod.snd (show Service.serve _ s = _ from hserves)
      exact Service.effect_of_serve _ s
    rw [stampAt_of_leaves (c := .graph (.unsettleContradiction a' b' unsupersedeResolvedVia now)) hab
      heffect]
    exact hs

theorem leaves_settle {a' b' via : String} (h : ¬(a' = a ∧ b' = b)) :
    (Call.graph (.settleContradiction a' b' via now)).LeavesStamp a b := h

theorem leaves_unsettle {a' b' via : String} (h : ¬(a' = a ∧ b' = b)) :
    (Call.graph (.unsettleContradiction a' b' via now)).LeavesStamp a b := h

/-- One settle of a run: an edge it matched carries the stamp. -/
theorem settled_run {a' b' : String} {n : ℕ} (h : Among Service.Answers others
      (graph (.settleContradiction a' b' unsupersedeResolvedVia now)).run s tr (.ok n) s')
    (hothers : Others tr (StampsOther a b (reversalStamp now))) (hs : s.stampAt a b = y) :
    Related a b (Settled now ((a' = a ∧ b' = b) ∧ 0 < n)) s' (othersStamp a b tr y) := by
  by_cases hab : a' = a ∧ b' = b
  · obtain ⟨rfl, rfl⟩ := hab
    have hsettled : Related a' b' (Settled now (0 < n)) s' (othersStamp a' b' tr y) :=
      Among.simulates_ask (J := Related a' b' Eq) (K := Related a' b' (Settled now (0 < n)))
        (fun _ _ _ hserves ht => settled_of_settle hserves ht) (related_others fun _ _ => rfl)
        (related_others settled_self) h hothers hs
    exact ⟨fun hmade => hsettled.1 hmade.2, fun hmade => hsettled.2 fun hn => hmade ⟨⟨rfl, rfl⟩, hn⟩⟩
  · have hsame : Related a b Eq s' (othersStamp a b tr y) :=
      related_of_leaves (fun _ _ => rfl) (makes_ask (leaves_settle hab)) h hothers hs
    exact ⟨fun hmade => absurd hmade.1 hab, fun _ => hsame⟩

/-- The stamps a reversal makes are on their edges, over what the others left. -/
theorem settled_settlePair {marker : Value} {stamped : List (String × String)}
    (h : Among Service.Answers others (MemoryService.settlePair contentHash marker now).run s tr
      (.ok stamped) s') (hothers : Others tr (StampsOther a b (reversalStamp now))) :
    Related a b (Settled now ((a, b) ∈ stamped)) s' (othersStamp a b tr (s.stampAt a b)) := by
  unfold MemoryService.settlePair at h
  cases hsurvivor : survivorOf marker contentHash with
  | none =>
    rw [hsurvivor] at h
    obtain rfl := Except.ok.inj (Among.eq_of_done h)
    have hsame : Related a b Eq s' (othersStamp a b tr (s.stampAt a b)) :=
      related_of_leaves (fun _ _ => rfl) (.pure _) h hothers rfl
    exact ⟨fun hmem => absurd hmem List.not_mem_nil, fun _ => hsame⟩
  | some survivor =>
    rw [hsurvivor] at h
    have hne : survivor ≠ contentHash := by
      have hvalid := (Option.filter_eq_some_iff.mp hsurvivor).2
      simp only [Bool.and_eq_true, decide_eq_true_eq] at hvalid
      exact hvalid.2
    obtain ⟨tr₁, tr₂, there, t, rfl, hthere, hrest⟩ := Among.seq_ok h
    obtain ⟨tr₃, tr₄, back, t', rfl, hback, hrest⟩ := Among.seq_ok hrest
    obtain ⟨hothers₁, hothers⟩ := Others.append_iff.mp hothers
    obtain ⟨hothers₃, hothers₄⟩ := Others.append_iff.mp hothers
    have hstamped := Except.ok.inj (Among.eq_of_done hrest)
    have hmem : (a, b) ∈ stamped ↔ ((contentHash = a ∧ survivor = b) ∧ 0 < (show ℕ from there)) ∨
        (survivor = a ∧ contentHash = b) ∧ 0 < (show ℕ from back) := by
      rw [hstamped, List.mem_append]
      refine or_congr ?_ ?_ <;> split <;> simp_all [eq_comm]
    rw [othersStamp, follow_append, follow_append]
    have hsettled := settled_run hthere hothers₁ rfl
    have hwait : ∀ made, Related a b (Settled now made) t'
        (othersStamp a b tr₃ (othersStamp a b tr₁ (s.stampAt a b))) →
        Related a b (Settled now made) s' (othersStamp a b tr₄
          (othersStamp a b tr₃ (othersStamp a b tr₁ (s.stampAt a b)))) :=
      fun made ht => related_of_leaves settled_self (.pure _) hrest hothers₄ ht
    by_cases hab : contentHash = a ∧ survivor = b
    · have hother : ¬(survivor = a ∧ contentHash = b) := fun h => hne (h.1.trans hab.1.symm)
      have hkept := related_of_leaves settled_self (makes_ask (leaves_settle hother)) hback hothers₃ hsettled
      have hmade : (a, b) ∈ stamped ↔ (contentHash = a ∧ survivor = b) ∧ 0 < (show ℕ from there) := by
        rw [hmem]
        exact or_iff_left fun h => hother h.1
      rw [hmade]
      exact hwait _ hkept
    · have hsame : t.stampAt a b = othersStamp a b tr₁ (s.stampAt a b) :=
        hsettled.2 fun h => hab h.1
      have hmade : (a, b) ∈ stamped ↔ (survivor = a ∧ contentHash = b) ∧ 0 < (show ℕ from back) := by
        rw [hmem]
        exact or_iff_right fun h => hab h.1
      rw [hmade]
      exact hwait _ (settled_run hback hothers₃ hsame)

/-- Taking back any stamps keeps an edge whose stamp is off. -/
theorem restored_unsettleEach {x : Except AlayaError Unit} (stamped : List (String × String))
    (h : Among Service.Answers others (MemoryService.unsettleEach now stamped).run s tr x s')
    (hothers : Others tr (StampsOther a b (reversalStamp now)))
    (hs : Related a b (Restored (reversalStamp now)) s y) :
    Related a b (Restored (reversalStamp now)) s' (othersStamp a b tr y) := by
  have hmakes : (MemoryService.unsettleEach now stamped).run.Makes fun c =>
      ∃ a' b', c = .graph (.unsettleContradiction a' b' unsupersedeResolvedVia now) := by
    clear h
    induction stamped with
    | nil => exact .pure _
    | cons e stamped ih => exact (makes_attempt (makes_ask ⟨_, _, rfl⟩)).seq fun _ => ih
  refine h.simulates (J := Related a b (Restored (reversalStamp now))) hmakes ?_
    (related_others restored_self) hothers hs
  rintro c t r t' y ⟨a', b', rfl⟩ hserves ht
  exact restored_unsettle_again hserves ht

/-- Taking back the stamps a reversal made leaves every edge with what the others left. -/
theorem restored_of_pending {x : Except AlayaError Unit} (stamped : List (String × String))
    (h : Among Service.Answers others (MemoryService.unsettleEach now stamped).run s tr x s')
    (hothers : Others tr (StampsOther a b (reversalStamp now))) (hmem : (a, b) ∈ stamped)
    (hs : Related a b (Pending (reversalStamp now)) s y) :
    Related a b (Restored (reversalStamp now)) s' (othersStamp a b tr y) := by
  induction stamped generalizing s tr y with
  | nil => cases hmem
  | cons e stamped ih =>
    obtain ⟨tr₁, tr₂, z, t, rfl, hattempt, hrest⟩ := Among.seq h
    obtain ⟨hothers₁, hothers₂⟩ := Others.append_iff.mp hothers
    obtain ⟨r, rfl, hask⟩ := among_attempt hattempt
    rw [othersStamp, follow_append]
    by_cases he : e.1 = a ∧ e.2 = b
    · obtain ⟨rfl, rfl⟩ := he
      have hrestored : Related e.1 e.2 (Restored (reversalStamp now)) t (othersStamp e.1 e.2 tr₁ y) :=
        Among.simulates_ask (J := Related e.1 e.2 (Pending (reversalStamp now)))
          (K := Related e.1 e.2 (Restored (reversalStamp now)))
          (fun _ _ _ hserves ht => restored_of_unsettle hserves ht) (related_others pending_self)
          (related_others restored_self) hask hothers₁ hs
      exact restored_unsettleEach stamped hrest hothers₂ hrestored
    · have hkept := related_of_leaves pending_self (makes_ask (leaves_unsettle he)) hask hothers₁ hs
      have hmem' : (a, b) ∈ stamped := by
        rcases List.mem_cons.mp hmem with rfl | hmem
        · exact absurd ⟨rfl, rfl⟩ he
        · exact hmem
      exact ih hrest hothers₂ hmem' hkept

theorem same_of_restored {mine : Stamp} {x : Option Stamp} (h : Restored mine x y) :
    SameResolution x y := h.imp And.left id

/-- An edge that carries no stamp of this call keeps what the others left. -/
theorem same_unsettleEach {x : Except AlayaError Unit} (stamped : List (String × String))
    (h : Among Service.Answers others (MemoryService.unsettleEach now stamped).run s tr x s')
    (hothers : Others tr (StampsOther a b (reversalStamp now)))
    (hs : Related a b (Settled now ((a, b) ∈ stamped)) s y) :
    Related a b SameResolution s' (othersStamp a b tr y) := by
  by_cases hmem : (a, b) ∈ stamped
  · exact same_of_restored (restored_of_pending stamped h hothers hmem (hs.1 hmem))
  · refine .inl ?_
    have hmakes : (MemoryService.unsettleEach now stamped).run.Makes (Call.LeavesStamp a b) := by
      clear h hs
      induction stamped with
      | nil => exact .pure _
      | cons e stamped ih =>
        rw [List.mem_cons, not_or] at hmem
        refine (makes_attempt (makes_ask (leaves_unsettle fun heq => hmem.1 ?_))).seq fun _ => ih hmem.2
        exact Prod.ext heq.1.symm heq.2.symm
    exact related_of_leaves (R := Eq) (fun _ _ => rfl) hmakes h hothers (hs.2 hmem)

theorem same_self (x : Option Stamp) : SameResolution x x := .inl rfl

/-- What follows a reversal that reversed nothing. -/
theorem same_afterChanged {stamped : List (String × String)} {current : Value}
    {x : Except AlayaError Unit} (h : Among Service.Answers others
      (MemoryService.afterChanged contentHash stamped current now).run s tr x s')
    (hothers : Others tr (StampsOther a b (reversalStamp now)))
    (hs : Related a b (Settled now ((a, b) ∈ stamped)) s y) :
    Related a b SameResolution s' (othersStamp a b tr y) := by
  obtain ⟨tr₁, tr₂, z, t, rfl, hunsettle, hrest⟩ := Among.seq h
  obtain ⟨hothers₁, hothers₂⟩ := Others.append_iff.mp hothers
  rw [othersStamp, follow_append]
  have hsame := same_unsettleEach stamped hunsettle hothers₁ hs
  have hrestore : (MemoryService.restoreEdge contentHash current).run.Makes (Call.LeavesStamp a b) := by
    unfold MemoryService.restoreEdge
    split
    · exact makes_writeSupersedesEdges _ _ fun _ _ => trivial
    · exact .pure _
  cases z with
  | ok _ => exact related_of_leaves (fun x _ => same_self x) hrestore hrest hothers₂ hsame
  | error e =>
    exact related_of_leaves (p := throw e) (fun x _ => same_self x) (.throw _) hrest hothers₂ hsame

theorem leaves_reverseSupersession {expected : Value} {reversal : ReversalRecord} :
    (Vectors.reverseSupersession contentHash expected reversal).run.Makes (Call.LeavesStamp a b) :=
  Program.Makes.seq (.ofExcept _) fun id =>
    (makes_ask (c := .vectors (.update (.reverse contentHash expected reversal) id)) trivial).seq
      fun _ => .ofExcept _

/-- **A reversal that finds its memory superseded by another leaves every resolution** as the others
left it. -/
theorem resolution_restored {reason via : String} {current : Value} (h : Among Service.Answers others
      (MemoryService.memoryUnsupersede contentHash reason via now).run s tr
      (.ok (.supersededByChanged current)) s')
    (hothers : Others tr (StampsOther a b (reversalStamp now))) :
    SameResolution (s'.stampAt a b) (othersStamp a b tr (s.stampAt a b)) := by
  obtain ⟨⟨reason', via'⟩, -, h⟩ := Among.check_ok h
  obtain ⟨tr₁, tr₂, memory, t, rfl, hread, hrest⟩ := Among.seq_ok h
  obtain ⟨hothers₁, hothers⟩ := Others.append_iff.mp hothers
  have hstart : t.stampAt a b = othersStamp a b tr₁ (s.stampAt a b) :=
    related_of_leaves (R := Eq) (fun _ _ => rfl)
      (makes_ask (c := .vectors (.getByHash contentHash)) trivial) hread hothers₁ rfl
  rw [othersStamp, follow_append]
  cases memory with
  | none => cases Among.eq_of_done hrest
  | some memory =>
    dsimp only at hrest
    cases hmarker : memory.supersessionMarker with
    | none =>
      rw [hmarker] at hrest
      cases Among.eq_of_done hrest
    | some marker =>
      rw [hmarker] at hrest
      obtain ⟨tr₃, tr₄, stamped, t₃, rfl, hsettle, hrest⟩ := Among.seq_ok hrest
      obtain ⟨tr₅, tr₆, edgesRemoved, t₅, rfl, hdelete, hrest⟩ := Among.seq_ok hrest
      obtain ⟨tr₇, tr₈, outcome, t₇, rfl, hreverse, hrest⟩ := Among.seq_ok hrest
      obtain ⟨hothers₃, hothers⟩ := Others.append_iff.mp hothers
      obtain ⟨hothers₅, hothers⟩ := Others.append_iff.mp hothers
      obtain ⟨hothers₇, hothers₈⟩ := Others.append_iff.mp hothers
      have hsettled := settled_settlePair hsettle hothers₃
      rw [hstart] at hsettled
      have hswept := related_of_leaves settled_self
        ((makes_ask (c := .graph (.deleteIncomingSystemEdges contentHash)) trivial).seq
          fun _ => .pure _) hdelete hothers₅ hsettled
      have hreversed := related_of_leaves settled_self leaves_reverseSupersession hreverse hothers₇ hswept
      rw [follow_append, follow_append, follow_append]
      cases outcome with
      | cleared reason =>
        obtain ⟨_, _, _, _, -, -, hrest⟩ := Among.seq_ok hrest
        cases Among.eq_of_done hrest
      | notSuperseded => cases Among.eq_of_done hrest
      | supersededByOther current' =>
        obtain ⟨tr₉, tr₁₀, _, t₉, rfl, hchanged, hrest⟩ := Among.seq_ok hrest
        obtain ⟨hothers₉, hothers₁₀⟩ := Others.append_iff.mp hothers₈
        rw [follow_append]
        exact related_of_leaves (fun x _ => same_self x) (.pure _) hrest hothers₁₀
          (same_afterChanged hchanged hothers₉ hreversed)

end

/-! ### The record as a whole -/

/-- Someone else makes some call. -/
def AnyoneCalls (s s' : Service) : Prop := ∃ c, s' = (Service.serve c s).2

theorem run_schedule {α : Type} (p : Flow α) (calls : List (List Call)) (s : Service) :
    Among Service.Answers AnyoneCalls p.run s (p.run.scheduled Service.serve calls s).1
      (p.run.scheduled Service.serve calls s).2.1 (p.run.scheduled Service.serve calls s).2.2 :=
  Among.of_schedule (fun _ _ => rfl) (fun c _ => ⟨c, rfl⟩) p.run calls s

/-- **What each operation leaves of the record on an edge.**  In any interleaving of requests an edge
that carries a verdict carries one for good, and each step leaves of an edge what its request leaves.
A reversal that finds its memory superseded by another leaves the resolution of every edge as the
others left it, as long as none of them writes the very stamp it writes itself. -/
theorem links_kept_apart {ι : Type} [DecidableEq ι] {lib : Components} {requests : ι → LinkRequest}
    {s : Service} {tr : List ι} {pool : Pool ι Reply Unit Service}
    (h : Run (Steps (Pool.step Service.serve)) (startLinks lib requests s) tr pool) :
    (∀ a b link, pool.state.graph.contradicts a b = some link → link.Judged →
      ∀ tr' pool', Run (Steps (Pool.step Service.serve)) pool tr' pool' →
        ∃ link', pool'.state.graph.contradicts a b = some link' ∧ link'.Judged) ∧
    (∀ i e pool', pool.step Service.serve i = some (e, pool') →
      ∀ a b link, pool.state.graph.contradicts a b = some link →
        ∃ link', pool'.state.graph.contradicts a b = some link' ∧ (requests i).Leaves link link') ∧
    ∀ (others : Service → Service → Prop) (contentHash reason via : String) (now : ℚ) (t t' : Service)
      (moments : List (Moment Call Service)) (current : Value), Among Service.Answers others
        (MemoryService.memoryUnsupersede contentHash reason via now).run t moments
        (.ok (.supersededByChanged current)) t' →
      ∀ a b, Others moments (StampsOther a b (reversalStamp now)) →
        SameResolution (t'.stampAt a b) (othersStamp a b moments (t.stampAt a b)) := by
  refine ⟨?verdicts, ?leaves, ?reversal⟩
  case verdicts =>
    intro a b link hlink hjudged tr' pool' h'
    exact judged_run (ofRequests_run h) h' hlink hjudged
  case leaves =>
    intro i e pool' hstep a b link hlink
    obtain ⟨link', hlink', hleaves, -⟩ := keeps_step (ofRequests_run h) hstep hlink
    exact ⟨link', hlink', hleaves⟩
  case reversal =>
    intro others contentHash reason via now t t' moments current hrun a b hothers
    exact resolution_restored hrun hothers

/-- A memory superseded by the one its CONTRADICTS edge points at. -/
def supersededMemories : Service :=
  (Service.serve (.vectors (.update (.markSuperseded [eldestHash] survivorHash "outdated") eldestPoint))
    linkedMemories).2

/-- The linked memories, their edge judged. -/
def linkedJudged : Service :=
  (Service.serve (.graph (.setContradictionVerdict eldestHash survivorHash judgedVerdict))
    linkedMemories).2

/-- What a failed judgement writes. -/
def unjudgedVerdict : EdgeVerdict where
  verdict := .unjudged
  verdictSurvivor := none
  verdictReason := "timeout"
  verdictConfidence := 0
  verdictModel := "judge"
  judgedAt := 3

/-- Before the marker is reversed, a third memory supersedes the old one. -/
def supersededAgain : List (List Call) :=
  [[], [], [], [], [.vectors (.update (.markSuperseded [eldestHash] thirdHash "again") eldestPoint)]]

/-- And before the stamp is taken back an operator clears it, and another reversal of the same moment
settles the pair. -/
def settledAgain : List (List Call) :=
  supersededAgain ++ [[.graph (.setContradictionResolution eldestHash survivorHash none "" 0),
    .graph (.settleContradiction eldestHash survivorHash unsupersedeResolvedVia 2)]]

/-- **A stamp that another reversal wrote at the same time is taken back.** -/
theorem others_stamp_cleared : ∃ tr s',
    Among Service.Answers AnyoneCalls
      (MemoryService.memoryUnsupersede eldestHash "mistake" "console" 2).run supersededMemories tr
      (.ok (.supersededByChanged (.string thirdHash))) s' ∧
    othersStamp eldestHash survivorHash tr (supersededMemories.stampAt eldestHash survivorHash) =
      some (reversalStamp 2) ∧
    s'.stampAt eldestHash survivorHash = some {} := by
  set p := (MemoryService.memoryUnsupersede eldestHash "mistake" "console" 2).run with hp
  have hrun := run_schedule (MemoryService.memoryUnsupersede eldestHash "mistake" "console" 2)
    settledAgain supersededMemories
  have hanswer : (p.scheduled Service.serve settledAgain supersededMemories).2.1.toOption =
      some (.supersededByChanged (.string thirdHash)) := by decide +kernel
  have hothers : othersStamp eldestHash survivorHash
      (p.scheduled Service.serve settledAgain supersededMemories).1
      (supersededMemories.stampAt eldestHash survivorHash) = some (reversalStamp 2) := by decide +kernel
  have hcleared : (p.scheduled Service.serve settledAgain supersededMemories).2.2.stampAt eldestHash
      survivorHash = some {} := by decide +kernel
  rw [toOption_eq_some.mp hanswer] at hrun
  exact ⟨_, _, hrun, hothers, hcleared⟩

/-- A failed judgement of an edge that carries a verdict leaves one on it, and a reversal meanwhile
that reverses nothing leaves its pair unresolved. -/
theorem links_kept_apart_judged : ∃ link link' tr s',
    linkedJudged.graph.contradicts eldestHash survivorHash = some link ∧ link.Judged ∧
    (Service.serve (.graph (.setContradictionVerdict eldestHash survivorHash unjudgedVerdict))
      linkedJudged).2.graph.contradicts eldestHash survivorHash = some link' ∧ link'.Judged ∧
    Among Service.Answers AnyoneCalls
      (MemoryService.memoryUnsupersede eldestHash "mistake" "console" 2).run supersededMemories tr
      (.ok (.supersededByChanged (.string thirdHash))) s' ∧
    SameResolution (s'.stampAt eldestHash survivorHash) (some {}) := by
  set requests : Unit → LinkRequest := fun _ => .setVerdict eldestHash survivorHash unjudgedVerdict
    with hrequests
  have hstart : Run (Steps (Pool.step Service.serve)) (startLinks plainComponents requests linkedJudged) []
      (startLinks plainComponents requests linkedJudged) := .start
  have hlink : linkedJudged.graph.contradicts eldestHash survivorHash =
      some { createdAt := some 1, confidence := none, judgement := judgedVerdict.judgement } := by
    decide +kernel
  have hjudged : Link.Judged { createdAt := some 1, confidence := none, judgement := judgedVerdict.judgement } :=
    ⟨.contradiction, rfl, by decide⟩
  obtain ⟨hverdicts, -, hreversal⟩ := links_kept_apart hstart
  have hcall : ((startLinks plainComponents requests linkedJudged).programs ()).next? =
      some (.graph (.setContradictionVerdict eldestHash survivorHash unjudgedVerdict)) := by
    have hvalid : ¬(!validateContentHash eldestHash || !validateContentHash survivorHash) = true := by
      simp [valid_eldestHash, valid_survivorHash]
    show (Bridge.setVerdict eldestHash survivorHash unjudgedVerdict).detach.next? = _
    rw [Bridge.setVerdict, if_neg hvalid]
    rfl
  have hstep : (startLinks plainComponents requests linkedJudged).step Service.serve () = some _ :=
    Pool.step_after (Option.isSome_of_eq_some hcall)
  have hstate : ((startLinks plainComponents requests linkedJudged).after Service.serve ()).state =
      (Service.serve (.graph (.setContradictionVerdict eldestHash survivorHash unjudgedVerdict))
        linkedJudged).2 := Pool.state_after hcall
  obtain ⟨link', hlink', hjudged'⟩ := hverdicts _ _ _ hlink hjudged _ _ (.single ⟨(), hstep⟩)
  rw [hstate] at hlink'
  set p := (MemoryService.memoryUnsupersede eldestHash "mistake" "console" 2).run with hp
  have hrun := run_schedule (MemoryService.memoryUnsupersede eldestHash "mistake" "console" 2)
    supersededAgain supersededMemories
  have hanswer : (p.scheduled Service.serve supersededAgain supersededMemories).2.1.toOption =
      some (.supersededByChanged (.string thirdHash)) := by decide +kernel
  have hothers : othersStamp eldestHash survivorHash
      (p.scheduled Service.serve supersededAgain supersededMemories).1
      (supersededMemories.stampAt eldestHash survivorHash) = some {} := by decide +kernel
  have hmoves : Others (p.scheduled Service.serve supersededAgain supersededMemories).1
      (StampsOther eldestHash survivorHash (reversalStamp 2)) := by
    unfold Others StampsOther
    decide +kernel
  rw [toOption_eq_some.mp hanswer] at hrun
  have hsame := hreversal _ _ _ _ _ _ _ _ _ hrun eldestHash survivorHash hmoves
  rw [hothers] at hsame
  exact ⟨_, link', _, _, hlink, hjudged, hlink', hjudged', hrun, hsame⟩

end Alaya
