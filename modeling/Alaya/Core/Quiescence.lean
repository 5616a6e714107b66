import Alaya.Core.Footprint

/-!
# Markers and edges at quiescence

Any number of supersessions and reversals run against both stores.  A supersession writes its marker
before its edge; a reversal removes the marker and then sweeps the edges, and its sweep is the next
thing it does.  So an edge into a live memory is either about to be swept, or it was written after
the last sweep: by a supersession whose marker was already reversed.  `Timely` rules that step out.
-/

namespace Alaya

open Json Interleave Labelled

/-- A stored memory without a marker. -/
def Service.Live (s : Service) (m : Memory) : Prop :=
  (∃ id, (s.points id).bind parsePayload = some m) ∧ m.supersessionMarker = none

/-- No live memory has an incoming SUPERSEDES edge. -/
def Service.EdgesAgree (s : Service) : Prop :=
  ∀ m, s.Live m → ∀ src, (src, m.contentHash) ∉ s.graph.supersedes

/-- A call of `mark_superseded` or `memory_unsupersede`, with the clock it reads. -/
inductive SupersessionRequest where
  | mark (oldHashes : List String) (newHash reason : String)
  | unsupersede (contentHash reason via : String) (now : ℚ)

def SupersessionRequest.program : SupersessionRequest → Program Reply Unit
  | mark oldHashes newHash reason => (MemoryService.markSuperseded oldHashes newHash reason).detach
  | unsupersede contentHash reason via now =>
    (MemoryService.memoryUnsupersede contentHash reason via now).detach

/-! ### The calls these operations make -/

/-- The calls a supersession or a reversal makes. -/
def Call.Supersedes : Call → Prop
  | .vectors (.getByHash _) | .vectors (.getBatch _) | .vectors (.retrieve _) => True
  | .vectors (.update (.markSuperseded ..) _) => True
  | .vectors (.update (.reverse contentHash ..) id) => hashToUuid contentHash = .ok id
  | .graph (.createSystemEdge ..) | .graph (.deleteIncomingSystemEdges _) => True
  | .graph (.settleContradiction ..) | .graph (.unsettleContradiction ..) => True
  | _ => False

/-- A call of theirs that reverses nothing. -/
def Call.Quiet (c : Call) : Prop := c.Supersedes ∧ ¬c.Reverses

/-- After a reversal that landed, the next call sweeps the edges into its memory. -/
def SweepsNext {α : Type} : (c : Call) → Reply c → Program Reply α → Prop
  | .vectors (.update (.reverse contentHash ..) _), r, rest =>
    ∀ (u : Updated) (p : Payload) (created : Bool), r = .ok u → u.update = .landed p created →
      rest.next? = some (.graph (.deleteIncomingSystemEdges contentHash))
  | _, _, _ => True

theorem sweepsNext_of_quiet {α : Type} {c : Call} (h : c.Quiet) (r : Reply c)
    (rest : Program Reply α) : SweepsNext c r rest := by
  unfold SweepsNext
  split
  · exact absurd trivial h.2
  · trivial

section

open Alaya.Flow Program

theorem quiet_markSuperseded (oldHashes : List String) (newHash reason : String) :
    (MemoryService.markSuperseded oldHashes newHash reason).run.Makes Call.Quiet := by
  refine (makes_markSuperseded ..).mono fun c hc => ?_
  unfold Call.OfMark at hc
  split at hc
  · exact ⟨trivial, id⟩
  · exact ⟨trivial, id⟩
  · rw [hc.1]
    exact ⟨trivial, id⟩
  · exact ⟨trivial, id⟩
  · cases hc

theorem supersedes_of_reversal {contentHash : String} {now : ℚ} {c : Call}
    (h : c.OfReversal contentHash now) : c.Supersedes := by
  unfold Call.OfReversal at h
  split at h
  · trivial
  · obtain ⟨⟨expected, reversal, rfl⟩, hid⟩ := h
    exact hid
  all_goals trivial

theorem quiet_of_around {contentHash : String} {now : ℚ} {c : Call}
    (h : c.AroundReversal contentHash now) : c.Quiet :=
  ⟨supersedes_of_reversal h.1, h.2⟩

/-- The calls of a program are theirs, and a reversal that landed is followed by its sweep. -/
def Sweeps {α : Type} (p : Program Reply α) : Prop :=
  p.Makes Call.Supersedes ∧ p.Follows SweepsNext

theorem sweeps_of_quiet {α : Type} {p : Program Reply α} (h : p.Makes Call.Quiet) : Sweeps p :=
  ⟨h.mono fun _ hc => hc.1, .of_makes (h.mono fun _ hc => sweepsNext_of_quiet hc)⟩

theorem Sweeps.seq {α β : Type} {p : Flow α} {f : α → Flow β} (h : p.run.Makes Call.Quiet)
    (hf : ∀ a, Sweeps (f a).run) : Sweeps (p >>= f).run :=
  ⟨(h.mono fun _ hc => hc.1).seq fun a => (hf a).1,
    .seq (h.mono fun _ hc => sweepsNext_of_quiet hc) fun a => (hf a).2⟩

/-- A reversal and what follows it, when a cleared marker is followed by the sweep. -/
theorem sweeps_reverse {β : Type} {contentHash : String} {expected : Value}
    {reversal : ReversalRecord} {f : ReversalOutcome → Flow β}
    (hf : ∀ outcome, (f outcome).run.Makes Call.Quiet)
    (hnext : ∀ reason, (f (.cleared reason)).run.next? =
      some (.graph (.deleteIncomingSystemEdges contentHash))) :
    Sweeps (Vectors.reverseSupersession contentHash expected reversal >>= f).run := by
  unfold Vectors.reverseSupersession
  cases hid : hashToUuid contentHash with
  | error e => exact ⟨trivial, trivial⟩
  | ok id =>
    have hrest : ∀ r : Reply (.vectors (.update (.reverse contentHash expected reversal) id)),
        ((ExceptT.mk (.done r) >>= fun updated : Updated =>
          ofExcept (Vectors.reversalOutcome contentHash updated)) >>= f).run.Makes Call.Quiet :=
      fun r => Makes.seq (Makes.seq trivial fun updated => .ofExcept _) hf
    refine ⟨⟨hid, fun r => ?_⟩, fun r => ⟨?_, ?_⟩⟩
    · exact (hrest r).mono fun _ hc => hc.1
    · rintro ⟨found, update⟩ p created rfl rfl
      exact hnext _
    · exact .of_makes ((hrest r).mono fun _ hc => sweepsNext_of_quiet hc)

theorem sweeps_memoryUnsupersede (contentHash reason via : String) (now : ℚ) :
    Sweeps (MemoryService.memoryUnsupersede contentHash reason via now).run := by
  have hquiet : ∀ {α : Type} {p : Flow α},
      p.run.Makes (Call.AroundReversal contentHash now) → p.run.Makes Call.Quiet :=
    fun h => h.mono fun _ hc => quiet_of_around hc
  refine .seq (.ofExcept _) fun checked => .seq (makes_ask ⟨trivial, id⟩) fun memory => ?_
  cases memory with
  | none => exact sweeps_of_quiet (.throw _)
  | some memory =>
    dsimp only
    cases memory.supersessionMarker with
    | none => exact sweeps_of_quiet (.pure _)
    | some marker =>
      exact .seq (hquiet (makes_settlePair ..)) fun stamped =>
        .seq (hquiet (makes_deleteIncoming ..)) fun edges =>
          sweeps_reverse (fun outcome => hquiet (makes_afterReversal ..)) fun _ => rfl

theorem sweeps_program (request : SupersessionRequest) : Sweeps request.program := by
  cases request with
  | mark oldHashes newHash reason =>
    exact sweeps_of_quiet (makes_detach (quiet_markSuperseded ..))
  | unsupersede contentHash reason via now =>
    obtain ⟨hmakes, hfollows⟩ := sweeps_memoryUnsupersede contentHash reason via now
    refine ⟨makes_detach hmakes, hfollows.map _ fun c r rest hnext => ?_⟩
    unfold SweepsNext at hnext ⊢
    split at hnext
    · exact fun u p created hr hu => next?_bind (hnext u p created hr hu) _
    · trivial

end

/-! ### One step of an interleaving -/

/-- Some program is about to sweep the edges into a memory. -/
def SweepPending {ι : Type} (pool : Pool ι Reply Unit Service) (contentHash : String) : Prop :=
  ∃ j, (pool.programs j).next? = some (.graph (.deleteIncomingSystemEdges contentHash))

/-- Every edge into a live memory is about to be swept. -/
def Swept {ι : Type} (pool : Pool ι Reply Unit Service) : Prop :=
  ∀ m, pool.state.Live m → ∀ src, (src, m.contentHash) ∈ pool.state.graph.supersedes →
    SweepPending pool m.contentHash

/-- The next call of program `i` comes in time: an edge between two nodes is written while its memory is
not live or about to be swept, and a reversal names its memory by the hash the edges into it carry. -/
def Timely {ι : Type} (pool : Pool ι Reply Unit Service) (i : ι) : Prop :=
  match (pool.programs i).next? with
  | some (.graph (.createSystemEdge src dst)) =>
    src ∈ pool.state.graph.nodes → dst ∈ pool.state.graph.nodes → ∀ m, pool.state.Live m →
      m.contentHash = dst → SweepPending pool dst
  | some (.vectors (.update (.reverse contentHash ..) id)) =>
    ∀ m src, (pool.state.points id).bind parsePayload = some m →
      (src, m.contentHash) ∈ pool.state.graph.supersedes → m.contentHash = contentHash
  | _ => True

/-- A step whose call comes in time. -/
def TimelyStep {ι : Type} [DecidableEq ι] (pool : Pool ι Reply Unit Service) (i : ι)
    (pool' : Pool ι Reply Unit Service) : Prop :=
  Timely pool i ∧ pool.step Service.serve i = some (i, pool')

section

variable {ι : Type} [DecidableEq ι] {pool pool' : Pool ι Reply Unit Service} {i : ι}

/-- A sweep that is due stays due while another program moves. -/
theorem SweepPending.other {h : String} {c : Call} {next : Reply c → Program Reply Unit}
    {rest : Program Reply Unit} (hpending : SweepPending pool h)
    (hprogram : pool.programs i = .call c next)
    (hc : c ≠ .graph (.deleteIncomingSystemEdges h))
    (hprograms : pool'.programs = Function.update pool.programs i rest) : SweepPending pool' h := by
  obtain ⟨j, hj⟩ := hpending
  have hji : j ≠ i := by
    rintro rfl
    rw [hprogram] at hj
    exact hc (Option.some.inj hj)
  refine ⟨j, ?_⟩
  rw [hprograms, Function.update_of_ne hji]
  exact hj

/-- A memory that is live after a write of a supersession or a reversal. -/
theorem live_of_landed {s : Service} {op : Op} {id : PointId} {p : Payload} {m : Memory}
    (hland : op.land s.mine (s.points id) = some p)
    (hop : ∀ params ctx mode, op ≠ .store params ctx mode)
    (hm : (s.write op id p).Live m) :
    s.Live m ∨ p.marker = none ∧ ∃ m', (s.points id).bind parsePayload = some m' ∧
      m'.contentHash = m.contentHash := by
  obtain ⟨⟨id', hid'⟩, hmarker⟩ := hm
  by_cases hsame : id' = id
  · subst hsame
    have hparse : parsePayload p = some m := by simpa [Service.write] using hid'
    right
    rw [supersessionMarker_of_parse hparse] at hmarker
    refine ⟨hmarker, ?_⟩
    cases hcell : s.points id' with
    | none =>
      rw [hcell] at hland
      obtain ⟨params, ctx, mode, rfl, -⟩ := record_of_created (created_of_land hland)
      exact (hop _ _ _ rfl).elim
    | some q =>
      rw [hcell] at hland
      exact (sameText_of_landing (landing_of_land hland) hop).parse hparse
  · have hcell : Function.update s.points id (some p) id' = s.points id' :=
      Function.update_of_ne hsame ..
    exact .inl ⟨⟨id', hcell ▸ hid'⟩, hmarker⟩

/-- **A step in time keeps every edge into a live memory due for a sweep.** -/
theorem swept_step (hpool : ∀ j, Sweeps (pool.programs j)) (hI : Swept pool)
    (h : TimelyStep pool i pool') : Swept pool' := by
  obtain ⟨htimely, hstep⟩ := h
  obtain ⟨c, next, hprogram, -, hprograms, hstate⟩ := Pool.step_eq_some hstep
  have hmakes : c.Supersedes ∧ SweepsNext c (Service.serve c pool.state).1
      (next (Service.serve c pool.state).1) := by
    have hi := hpool i
    rw [hprogram] at hi
    exact ⟨hi.1.1, (hi.2 _).1⟩
  have hdue : Timely pool i := htimely
  unfold Timely at hdue
  rw [hprogram] at hdue
  intro m hm src hsrc
  rw [hstate] at hm hsrc
  -- The call is one of a supersession's: the others keep the points and the edges.
  cases c with
  | vectors c =>
    cases c with
    | getByHash | getBatch | retrieve =>
      exact (hI m hm src hsrc).other hprogram nofun hprograms
    | existingHashes | delete => exact hmakes.1.elim
    | update op id =>
      have hother : ∀ h, SweepPending pool h → SweepPending pool' h :=
        fun h hp => hp.other hprogram (by simp) hprograms
      have heffect := Service.effect_of_serve (.vectors (.update op id)) pool.state
      generalize hs' : (Service.serve (.vectors (.update op id)) pool.state).2 = s' at heffect hm hsrc
      cases heffect with
      | quiet => exact hother _ (hI m hm src hsrc)
      | @landed _ _ p hland =>
        have hop : ∀ params ctx mode, op ≠ .store params ctx mode := by
          rintro params ctx mode rfl
          exact hmakes.1
        rcases live_of_landed hland hop hm with hlive | ⟨hnone, m', hm', hhash⟩
        · exact hother _ (hI m hlive src hsrc)
        · -- The write made the memory live: it is the reversal, and its sweep comes next.
          obtain ⟨q, hq, -⟩ := Option.bind_eq_some_iff.mp hm'
          rw [hq] at hland
          have hrecord := congrArg Record.marker (record_of_landing (landing_of_land hland))
          cases op with
          | markSuperseded => exact absurd (hnone.symm.trans hrecord) nofun
          | reverse contentHash expected reversal =>
            have hnamed : m'.contentHash = contentHash := by
              refine hdue m' src hm' ?_
              rw [hhash]
              exact hsrc
            rw [← hhash, hnamed]
            rw [← hq] at hland
            obtain ⟨u, created, hanswer, hu⟩ := Service.answer_of_land hland
            refine ⟨i, ?_⟩
            rw [hprograms, Function.update_self]
            exact hmakes.2 u p created hanswer hu
          | _ => exact hmakes.1.elim
  | query | enqueueStrengthen => exact hmakes.1.elim
  | graph c =>
    have hlive : pool.state.Live m := hm
    cases c with
    | createSystemEdge src' dst =>
      rcases (Graph.mem_supersedes_createSystemEdge _).mp hsrc with hold | ⟨⟨hsrcNode, hdstNode⟩, heq⟩
      · exact (hI m hlive src hold).other hprogram (by simp) hprograms
      · obtain ⟨rfl, hdst⟩ := Prod.mk.inj heq
        rw [hdst]
        exact (hdue hsrcNode hdstNode m hlive hdst).other hprogram (by simp) hprograms
    | deleteIncomingSystemEdges dst =>
      obtain ⟨hold, hne⟩ := (Graph.mem_supersedes_deleteIncoming _).mp hsrc
      refine (hI m hlive src hold).other hprogram ?_ hprograms
      simpa using fun h : dst = m.contentHash => hne h.symm
    | settleContradiction src' dst via ts | unsettleContradiction src' dst via ts =>
      replace hsrc : (src, m.contentHash) ∈ pool.state.graph.supersedes := by
        rwa [← Graph.supersedes_editLink pool.state.graph]
      exact (hI m hlive src hsrc).other hprogram (by simp) hprograms
    | _ => exact hmakes.1.elim

end

/-! ### All interleavings -/

/-- The calls at their start. -/
def startPool {ι : Type} (requests : ι → SupersessionRequest) (s : Service) :
    Pool ι Reply Unit Service :=
  ⟨fun i => (requests i).program, s⟩

theorem sweeps_step {ι : Type} [DecidableEq ι] {pool pool' : Pool ι Reply Unit Service} {i e : ι}
    (h : pool.step Service.serve i = some (e, pool')) (hpool : ∀ j, Sweeps (pool.programs j))
    (j : ι) : Sweeps (pool'.programs j) :=
  ⟨Pool.makes_step h (fun j => (hpool j).1) j, Pool.follows_step h (fun j => (hpool j).2) j⟩

/-- **At quiescence the edges agree with the markers.**  However supersessions and reversals
interleave, when every edge was written in time and every reversal named its memory by the hash of
its edges, no live memory has an incoming SUPERSEDES edge once all have returned. -/
theorem edges_agree_at_quiescence {ι : Type} [DecidableEq ι] {requests : ι → SupersessionRequest}
    {s : Service} (hs : s.EdgesAgree) {tr : List ι} {pool : Pool ι Reply Unit Service}
    (hrun : Run TimelyStep (startPool requests s) tr pool) (hreturned : pool.Returned) :
    pool.state.EdgesAgree := by
  have hinv : (∀ j, Sweeps (pool.programs j)) ∧ Swept pool := by
    refine hrun.preserves (fun pool => (∀ j, Sweeps (pool.programs j)) ∧ Swept pool) ?_ ?_
    · exact ⟨fun j => sweeps_program _, fun m hm src hsrc => absurd hsrc (hs m hm src)⟩
    · rintro pool i pool' ⟨hpool, hI⟩ hstep
      exact ⟨sweeps_step hstep.2 hpool, swept_step hpool hI hstep⟩
  intro m hm src hsrc
  obtain ⟨j, hj⟩ := hinv.2 m hm src hsrc
  rw [hreturned j] at hj
  cases hj

/-! ### An edge written too late -/

def eldestHash : String := String.ofList (List.replicate 64 'a')

def survivorHash : String := String.ofList (List.replicate 64 'b')

def eldestPoint : PointId := uuidToString (List.replicate 32 'a')

def survivorPoint : PointId := uuidToString (List.replicate 32 'b')

def storedPayload (content contentHash : String) : Payload :=
  [("content", .string content), ("content_hash", .string contentHash)]

/-- Two live memories, each with its node. -/
def twoMemories : Service where
  points := Function.update (Function.update (fun _ => none)
    survivorPoint (some (storedPayload "new" survivorHash))) eldestPoint (some (storedPayload "old" eldestHash))
  vectors := fun _ => none
  graph := (Graph.empty.ensureNode eldestHash).ensureNode survivorHash
  coAccess := []
  client := 0
  writes := 0
  answer := fun _ _ _ => .error (.embedding "no embedding service")

theorem points_twoMemories {id : PointId} {p : Payload} (h : twoMemories.points id = some p) :
    (id = eldestPoint ∧ p = storedPayload "old" eldestHash) ∨
      id = survivorPoint ∧ p = storedPayload "new" survivorHash := by
  unfold twoMemories at h
  dsimp only at h
  by_cases hold : id = eldestPoint
  · subst hold
    rw [Function.update_self] at h
    exact .inl ⟨rfl, (Option.some.inj h).symm⟩
  by_cases hnew : id = survivorPoint
  · subst hnew
    rw [Function.update_of_ne hold, Function.update_self] at h
    exact .inr ⟨rfl, (Option.some.inj h).symm⟩
  · rw [Function.update_of_ne hold, Function.update_of_ne hnew] at h
    cases h

/-- The edge a call writes. -/
def Call.edge : Call → Option (String × String)
  | .graph (.createSystemEdge src dst) => some (src, dst)
  | _ => none

/-- The update a call makes. -/
def Call.updates : Call → Option (Op × PointId)
  | .vectors (.update op id) => some (op, id)
  | _ => none

theorem edges_agree_twoMemories : twoMemories.EdgesAgree :=
  fun _ _ _ h => by simp [twoMemories, Graph.empty] at h

/-- Program `i` writes no edge next, and reverses only the memory stored under the hash it names. -/
def timelyCheck {ι : Type} (pool : Pool ι Reply Unit Service) (i : ι) : Bool :=
  match (pool.programs i).next? with
  | some (.graph (.createSystemEdge ..)) => false
  | some (.vectors (.update (.reverse contentHash ..) id)) =>
    ((pool.state.points id).bind parsePayload).all fun m => m.contentHash = contentHash
  | _ => true

theorem timely_of_check {ι : Type} {pool : Pool ι Reply Unit Service} {i : ι}
    (h : timelyCheck pool i = true) : Timely pool i := by
  unfold timelyCheck at h
  unfold Timely
  split at h
  · cases h
  · intro m src hm _
    rw [hm] at h
    exact of_decide_eq_true h
  · trivial

theorem Call.updates_eq_some {c : Call} {op : Op} {id : PointId} (h : c.updates = some (op, id)) :
    c = .vectors (.update op id) := by
  unfold Call.updates at h
  split at h
  · obtain ⟨rfl, rfl⟩ := Prod.mk.inj (Option.some.inj h)
    rfl
  · cases h

theorem Call.edge_eq_some {c : Call} {src dst : String} (h : c.edge = some (src, dst)) :
    c = .graph (.createSystemEdge src dst) := by
  unfold Call.edge at h
  split at h
  · obtain ⟨rfl, rfl⟩ := Prod.mk.inj (Option.some.inj h)
    rfl
  · cases h

/-- Once the old memory is marked it is not live. -/
theorem not_live_marked {s s' : Service} (hs : s.points = twoMemories.points)
    (h : s.Effect (.vectors (.update (.markSuperseded [eldestHash] survivorHash "outdated") eldestPoint)) s')
    (hlanded : (s'.points eldestPoint).bind Payload.marker ≠ none) {m : Memory} (hm : s'.Live m) :
    m.contentHash ≠ eldestHash := by
  obtain ⟨⟨id, hid⟩, hmarker⟩ := hm
  have hother : id ≠ eldestPoint → s'.points id = twoMemories.points id := by
    intro hne
    cases h with
    | quiet => rw [hs]
    | landed => rw [← hs]; exact Function.update_of_ne hne ..
  by_cases hold : id = eldestPoint
  · subst hold
    obtain ⟨p, hp, hparse⟩ := Option.bind_eq_some_iff.mp hid
    rw [hp, Option.bind_some, ← supersessionMarker_of_parse hparse] at hlanded
    exact absurd hmarker hlanded
  · have hstored : twoMemories.points id = Function.update (fun _ => none) survivorPoint
        (some (storedPayload "new" survivorHash)) id := Function.update_of_ne hold ..
    rw [hother hold, hstored] at hid
    by_cases hnew : id = survivorPoint
    · subst hnew
      rw [Function.update_self] at hid
      obtain rfl := Option.some.inj hid
      decide
    · rw [Function.update_of_ne hnew] at hid
      cases hid

/-- One call marks the old memory superseded, the other reverses that. -/
def markAndReverse : Bool → SupersessionRequest
  | true => .mark [eldestHash] survivorHash "outdated"
  | false => .unsupersede eldestHash "mistake" "cli" 1

/-- A step of one of the two calls, where the check lets it. -/
def checkedStep (pool : Pool Bool Reply Unit Service) (i : Bool) : Option (Pool Bool Reply Unit Service) :=
  if timelyCheck pool i then (pool.step Service.serve i).map Prod.snd else none

theorem timelyStep_of_checked {pool pool' : Pool Bool Reply Unit Service} {i : Bool}
    (h : checkedStep pool i = some pool') : TimelyStep pool i pool' := by
  unfold checkedStep at h
  split_ifs at h with hcheck
  obtain ⟨⟨e, pool'⟩, hstep, rfl⟩ := Option.map_eq_some_iff.mp h
  obtain ⟨-, -, -, rfl, -⟩ := Pool.step_eq_some hstep
  exact ⟨timely_of_check hcheck, hstep⟩

/-- The memory of a point, live. -/
def liveHash (s : Service) (id : PointId) : Option String :=
  ((s.points id).bind parsePayload).bind fun m =>
    if m.supersessionMarker = none then some m.contentHash else none

/-- A mark that runs to its end, its edge written while the marker stands, and then the reversal. -/
theorem edges_agree_reversed : ∃ tr linked tr' pool,
    Run TimelyStep (startPool markAndReverse twoMemories) tr linked ∧
      (survivorHash, eldestHash) ∈ linked.state.graph.supersedes ∧
    Run TimelyStep linked tr' pool ∧ pool.Returned ∧
      liveHash pool.state eldestPoint = some eldestHash ∧ pool.state.EdgesAgree := by
  set start := startPool markAndReverse twoMemories with hstart
  set read := start.after Service.serve true with hread
  set marked := read.after Service.serve true with hmarked
  set linked := marked.after Service.serve true with hlinked
  have hmark : ((start.programs true).next?.isSome ∧ timelyCheck start true = true) ∧
      (timelyCheck read true = true ∧ (read.programs true).next?.bind Call.updates =
        some (.markSuperseded [eldestHash] survivorHash "outdated", eldestPoint)) ∧
      ((marked.state.points eldestPoint).bind Payload.marker ≠ none ∧
        (marked.programs true).next?.bind Call.edge = some (survivorHash, eldestHash)) ∧
      (survivorHash, eldestHash) ∈ linked.state.graph.supersedes := by
    decide +kernel
  have hreverse : ((List.replicate 7 false).foldlM checkedStep linked).map (fun pool =>
      ((pool.programs true).next?.isNone && (pool.programs false).next?.isNone,
        liveHash pool.state eldestPoint)) = some (true, some eldestHash) := by
    decide +kernel
  obtain ⟨⟨hstart₁, hstart₂⟩, ⟨hread₁, hread₂⟩, ⟨hmarked₁, hmarked₂⟩, hwritten⟩ := hmark
  obtain ⟨c, hc, hupdate⟩ := Option.bind_eq_some_iff.mp hread₂
  obtain rfl := Call.updates_eq_some hupdate
  obtain ⟨c, hc', hedge⟩ := Option.bind_eq_some_iff.mp hmarked₂
  obtain rfl := Call.edge_eq_some hedge
  have hpoints : read.state.points = twoMemories.points := rfl
  have hstep₁ : TimelyStep start true read := ⟨timely_of_check hstart₂, Pool.step_after hstart₁⟩
  have hstep₂ : TimelyStep read true marked :=
    ⟨timely_of_check hread₁, Pool.step_after (by rw [hc]; rfl)⟩
  have hstep₃ : TimelyStep marked true linked := by
    refine ⟨?_, Pool.step_after (by rw [hc']; rfl)⟩
    unfold Timely
    rw [hc']
    intro _ _ m hm hhash
    have heffect := Service.effect_of_serve
      (.vectors (.update (.markSuperseded [eldestHash] survivorHash "outdated") eldestPoint))
      read.state
    rw [← Pool.state_after hc] at heffect
    exact absurd hhash (not_live_marked hpoints heffect hmarked₁ hm)
  have hlinks : Run TimelyStep start [true, true, true] linked :=
    ((Run.single hstep₁).append (Run.single hstep₂)).append (Run.single hstep₃)
  obtain ⟨pool, hpool, hended⟩ := Option.map_eq_some_iff.mp hreverse
  obtain ⟨hdone, hlive⟩ := Prod.mk.inj hended
  simp only [Bool.and_eq_true, Option.isNone_iff_eq_none] at hdone
  have hreverses : Run TimelyStep linked (List.replicate 7 false) pool :=
    run_of_foldlM (fun _ _ _ => timelyStep_of_checked) hpool
  have hreturned : pool.Returned := fun i => by cases i <;> simp only [hdone]
  exact ⟨_, linked, _, pool, hlinks, hwritten, hreverses, hreturned, hlive,
    edges_agree_at_quiescence edges_agree_twoMemories (hlinks.append hreverses) hreturned⟩

/-- The mark writes its marker, the reversal runs to its end, and then the mark writes its edge. -/
def lateEdge : List Bool := [true, true, false, false, false, false, false, false, false, true]

/-- **An edge written after the reversal's last sweep stays**: both calls return, the memory is live,
and it has an incoming SUPERSEDES edge. -/
theorem stale_edge_survives : ∃ tr pool, twoMemories.EdgesAgree ∧
    Run (Steps (Pool.step Service.serve)) (startPool markAndReverse twoMemories) tr pool ∧
    pool.Returned ∧ ¬pool.state.EdgesAgree := by
  have hexec : (exec (Pool.step Service.serve) (startPool markAndReverse twoMemories) lateEdge).map
      (fun r => ((r.2.programs true).next?.isNone && (r.2.programs false).next?.isNone,
        ((r.2.state.points eldestPoint).bind parsePayload).map fun m =>
          (m.contentHash, m.supersessionMarker),
        decide ((survivorHash, eldestHash) ∈ r.2.state.graph.supersedes))) =
      some (true, some (eldestHash, none), true) := by
    decide +kernel
  obtain ⟨⟨tr, pool⟩, hexec, hr⟩ := Option.map_eq_some_iff.mp hexec
  simp only [Prod.mk.injEq, Bool.and_eq_true, Option.isNone_iff_eq_none, decide_eq_true_eq,
    Option.map_eq_some_iff] at hr
  obtain ⟨⟨htrue, hfalse⟩, ⟨m, hm, hhash, hmarker⟩, hedge⟩ := hr
  refine ⟨tr, pool, edges_agree_twoMemories, run_of_exec hexec,
    fun i => by cases i <;> assumption, fun hagree => ?_⟩
  exact hagree m ⟨⟨eldestPoint, hm⟩, hmarker⟩ survivorHash (hhash ▸ hedge)

end Alaya
