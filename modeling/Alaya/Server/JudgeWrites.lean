import Alaya.Backends.JudgeClient
import Alaya.Lib.Quoted
import Alaya.Server.Backfill
import Alaya.Server.JudgeCap

/-!
# What a reply of the judge's model is written as

For each reply of the endpoint the calls of a judgement are known: a verdict's edge where the text is one, the
`unjudged` marker of a failure that would be one again, and nothing where the failure is transient.  No call writes a
memory.  A judgement is charged for when its request may have been billed, or was turned away as unacceptable.
-/

namespace Alaya

open Interleave Program Alaya.Flow

/-- The pair can be judged: two memories that the store holds. -/
structure Judgeable {σ : Type} (serve : Server Reply σ) (s : σ) (src dst : String) (a b : Memory) : Prop where
  src_valid : validateContentHash src = true
  dst_valid : validateContentHash dst = true
  distinct : src ≠ dst
  stored : ∃ batch : List Memory, (serve (.vectors (.getBatch [src, dst])) s).1 = .ok batch ∧
    batch.find? (fun m => m.contentHash = src) = some a ∧ batch.find? (fun m => m.contentHash = dst) = some b

section

variable {σ : Type} {serve : Server Reply σ} {s : σ} {src dst : String} {a b : Memory} {now : ℚ}

/-- A verdict that passes the bridge's checks is one call, which may fail. -/
theorem persistVerdict_eq_call {v : EdgeVerdict} (hsrc : validateContentHash src = true)
    (hdst : validateContentHash dst = true) (hsurvivor : ∀ x ∈ v.verdictSurvivor, validateContentHash x = true)
    (hconfidence : 0 ≤ v.verdictConfidence ∧ v.verdictConfidence ≤ 1) :
    ∃ landed : Reply (.graph (.setContradictionVerdict src dst v)) → Bool,
      (MemoryService.persistVerdict src dst v).run =
        .call (.graph (.setContradictionVerdict src dst v)) fun r => .done (.ok (landed r)) := by
  have hnone : ¬(v.verdictSurvivor.any fun x => !validateContentHash x) = true := by
    rw [Option.any_eq_true]
    rintro ⟨x, hx, hinvalid⟩
    rw [hsurvivor x hx] at hinvalid
    cases hinvalid
  unfold MemoryService.persistVerdict Bridge.setVerdict
  rw [if_neg (by simp [hsrc, hdst]), if_neg hnone, if_neg (not_not.mpr hconfidence)]
  refine ⟨fun | .ok matched => decide (0 < (show ℕ from matched)) | .error _ => false, ?_⟩
  exact congrArg (Program.call _) (funext fun r => by cases r <;> rfl)

/-- What is written of a reply. -/
def verdictsOf (model src dst : String) (now : ℚ) : Except AlayaError JudgeAnswer → List EdgeVerdict
  | .ok answer => [MemoryService.answerVerdict src dst answer now]
  | .error (.rateLimited _) => []
  | .error (.unavailable _ _) => []
  | .error e => [MemoryService.unjudgedMarker model e.display now]

theorem run_attempt_ask_bind {β : Type} (c : Call) (f : Except AlayaError c.Answer → Flow β) :
    (attempt (Flow.ask c) >>= f).run = .call c fun r => (f r).run :=
  congrArg (Program.call c) (funext fun r => by cases r <;> rfl)

/-- What is done with a judge's reply: at most one verdict is sent, and the outcome is charged as the reply is. -/
theorem calls_recordJudgement {judge : Judge} (hvalid : judge.Valid) (hsrc : validateContentHash src = true)
    (hdst : validateContentHash dst = true) (a b : Memory) (t : σ) :
    (MemoryService.recordJudgement judge src dst now (judge.judge a b)).run.calls serve t =
        (verdictsOf judge.modelName src dst now (judge.judge a b)).map
          (fun v => .graph (.setContradictionVerdict src dst v)) ∧
      ∃ outcome, ((MemoryService.recordJudgement judge src dst now (judge.judge a b)).run.run serve t).1 = .ok outcome ∧
        outcome.spent = charged (judge.judge a b) := by
  have hsent : ∀ (v : EdgeVerdict) (f : Bool → JudgeOutcome),
      (∀ x ∈ v.verdictSurvivor, validateContentHash x = true) →
      (0 ≤ v.verdictConfidence ∧ v.verdictConfidence ≤ 1) → (∀ x, (f x).spent = true) →
      (do let x ← MemoryService.persistVerdict src dst v; return f x : Flow JudgeOutcome).run.calls serve t =
          [.graph (.setContradictionVerdict src dst v)] ∧
        ∃ outcome, ((do let x ← MemoryService.persistVerdict src dst v; return f x :
          Flow JudgeOutcome).run.run serve t).1 = .ok outcome ∧ outcome.spent = true := by
    intro v f hsurvivor hconfidence hspent
    obtain ⟨landed, hrun⟩ := persistVerdict_eq_call hsrc hdst hsurvivor hconfidence
    have hprog : (do let x ← MemoryService.persistVerdict src dst v; return f x : Flow JudgeOutcome).run =
        .call (.graph (.setContradictionVerdict src dst v)) fun r => .done (.ok (f (landed r))) := by
      rw [ExceptT.run_bind, hrun]
      rfl
    rw [hprog]
    exact ⟨rfl, _, rfl, hspent _⟩
  have hmark : ∀ why, (0 : ℚ) ≤ (MemoryService.unjudgedMarker judge.modelName why now).verdictConfidence ∧
      (MemoryService.unjudgedMarker judge.modelName why now).verdictConfidence ≤ 1 := fun why =>
    ⟨le_refl _, zero_le_one⟩
  cases hanswer : judge.judge a b with
  | ok answer =>
    have hnamed : ∀ x ∈ (MemoryService.answerVerdict src dst answer now).verdictSurvivor,
        validateContentHash x = true := by
      intro x hx
      obtain ⟨side, -, rfl⟩ := Option.map_eq_some_iff.mp (show answer.survivor.map _ = some x from hx)
      cases side
      · exact hsrc
      · exact hdst
    exact hsent _ (.judged answer) hnamed (hvalid a b answer hanswer).2 fun _ => rfl
  | error e =>
    cases e
    case rateLimited secs => exact ⟨rfl, _, rfl, rfl⟩
    case unavailable message spent => exact ⟨rfl, _, rfl, rfl⟩
    all_goals exact hsent _ (.unjudged · true) nofun (hmark _) fun _ => rfl

/-- **The calls of a judgement**: a pair that can be judged is read, and what its reply is written as is sent. -/
theorem calls_judgeContradiction {judge : Judge} (hvalid : judge.Valid) (h : Judgeable serve s src dst a b) (now : ℚ) :
    (MemoryService.judgeContradiction (some judge) src dst now).run.calls serve s =
        .vectors (.getBatch [src, dst]) :: (verdictsOf judge.modelName src dst now (judge.judge a b)).map
          (fun v => .graph (.setContradictionVerdict src dst v)) ∧
      ∃ outcome, ((MemoryService.judgeContradiction (some judge) src dst now).run.run serve s).1 = .ok outcome ∧
        outcome.spent = charged (judge.judge a b) := by
  obtain ⟨batch, hbatch, ha, hb⟩ := h.stored
  have hcheck : ¬(!validateContentHash src || !validateContentHash dst || decide (src = dst)) = true := by
    simp [h.src_valid, h.dst_valid, h.distinct]
  obtain ⟨t, ht⟩ : ∃ t, t = (serve (.vectors (.getBatch [src, dst])) s).2 := ⟨_, rfl⟩
  obtain ⟨hcalls, houtcome⟩ := @calls_recordJudgement σ serve src dst now judge hvalid h.src_valid h.dst_valid a b t
  have hprog : ∃ next, (MemoryService.judgeContradiction (some judge) src dst now).run =
      .call (.vectors (.getBatch [src, dst])) next ∧
      next (serve (.vectors (.getBatch [src, dst])) s).1 =
        (MemoryService.recordJudgement judge src dst now (judge.judge a b)).run := by
    unfold MemoryService.judgeContradiction
    dsimp only
    rw [if_neg hcheck]
    refine ⟨_, run_attempt_ask_bind (.vectors (.getBatch [src, dst])) _, ?_⟩
    rw [hbatch]
    dsimp only
    rw [ha, hb]
  obtain ⟨next, hrun, hnext⟩ := hprog
  rw [hrun]
  constructor
  · rw [calls, hnext, ← ht, hcalls]
  · rw [run_call, hnext, ← ht]
    exact houtcome

theorem Judgeable.unique {a' b' : Memory} (h : Judgeable serve s src dst a b) (h' : Judgeable serve s src dst a' b') :
    a = a' ∧ b = b' := by
  obtain ⟨batch, hbatch, ha, hb⟩ := h.stored
  obtain ⟨batch', hbatch', ha', hb'⟩ := h'.stored
  obtain rfl : batch = batch' := Except.ok.inj (hbatch.symm.trans hbatch')
  exact ⟨Option.some.inj (ha.symm.trans ha'), Option.some.inj (hb.symm.trans hb')⟩

/-- A pair that cannot be judged costs nothing. -/
theorem spent_of_not_judgeable {judge : Judge} (h : ∀ a b, ¬Judgeable serve s src dst a b) :
    ∃ outcome, ((MemoryService.judgeContradiction (some judge) src dst now).run.run serve s).1 = .ok outcome ∧
      outcome.spent = false := by
  by_cases hcheck : (!validateContentHash src || !validateContentHash dst || decide (src = dst)) = true
  · unfold MemoryService.judgeContradiction
    dsimp only
    rw [if_pos hcheck]
    exact ⟨_, rfl, rfl⟩
  obtain ⟨⟨hsrc, hdst⟩, hne⟩ : (validateContentHash src = true ∧ validateContentHash dst = true) ∧ src ≠ dst := by
    simpa using hcheck
  have hprog : ∃ next, (MemoryService.judgeContradiction (some judge) src dst now).run =
      .call (.vectors (.getBatch [src, dst])) next ∧ ∀ t, ∃ outcome,
        ((next (serve (.vectors (.getBatch [src, dst])) s).1).run serve t).1 = .ok outcome ∧
          outcome.spent = false := by
    unfold MemoryService.judgeContradiction
    dsimp only
    rw [if_neg hcheck]
    refine ⟨_, run_attempt_ask_bind (.vectors (.getBatch [src, dst])) _, fun t => ?_⟩
    cases hbatch : (serve (.vectors (.getBatch [src, dst])) s).1 with
    | error e => exact ⟨_, rfl, rfl⟩
    | ok batch =>
      dsimp only
      split
      · next a b ha hb => exact absurd ⟨hsrc, hdst, hne, batch, hbatch, ha, hb⟩ (h a b)
      · obtain ⟨landed, hrun⟩ := persistVerdict_eq_call hsrc hdst
          (v := MemoryService.unjudgedMarker judge.modelName "endpoint missing from vector store" now) nofun
          ⟨le_refl _, zero_le_one⟩
        unfold MemoryService.markUnjudged
        rw [ExceptT.run_bind, hrun]
        exact ⟨_, rfl, rfl⟩
  obtain ⟨next, hrun, hnext⟩ := hprog
  rw [hrun]
  exact hnext _

/-! ### A model behind the judge -/

/-- A line that can be stored and logged: no control character, and at most 200 characters. -/
def CleanReason (s : String) : Prop := s.length ≤ 200 ∧ ∀ ch ∈ s.toList, isControl ch = false

theorem clean_sanitizeReason (s : String) : CleanReason (sanitizeReason s) := by
  unfold sanitizeReason
  constructor
  · rw [String.length_ofList]
    exact List.length_take_le ..
  · intro ch hch
    rw [String.toList_ofList] at hch
    have htrimmed := List.mem_of_mem_take hch
    unfold trim at htrimmed
    rw [String.toList_ofList, String.toList_ofList, List.mem_reverse] at htrimmed
    have hfiltered := (List.dropWhile_sublist _).mem (List.mem_reverse.mp ((List.dropWhile_sublist _).mem htrimmed))
    simpa using (List.mem_filter.mp hfiltered).2

theorem JudgeClient.valid_judge (c : JudgeClient) : c.judge.Valid := by
  intro a b answer h
  obtain ⟨raw, ⟨_, _, _, _, _, _, hspells⟩, rfl⟩ := JudgeClient.judgeReply_eq_ok_iff.mp h
  exact ⟨hspells.is_class, hspells.confidence_range⟩

/-- What is written of a verdict: who survives, by hash, and its reason on one clean line. -/
structure WrittenAs (raw : RawVerdict) (src dst : String) (v : EdgeVerdict) : Prop where
  same_class : v.verdict = raw.verdict
  same_confidence : v.verdictConfidence = raw.confidence
  survivor : v.verdict = .supersession ∨ v.verdict = .contradiction → v.verdictSurvivor = raw.survivor.map fun
    | .a => src
    | .b => dst
  endpoint : ∀ x ∈ v.verdictSurvivor, x = src ∨ x = dst
  present : v.verdict = .supersession → v.verdictSurvivor ≠ none
  absent : v.verdict = .coexist ∨ v.verdict = .unrelated → v.verdictSurvivor = none
  clean : CleanReason v.verdictReason

theorem writtenAs_answerVerdict {c : JudgeClient} {raw : RawVerdict} {v : Json.Value} (h : Spells v raw) :
    WrittenAs raw src dst (MemoryService.answerVerdict src dst (c.answerOf raw) now) := by
  have hkept : raw.verdict = .supersession ∨ raw.verdict = .contradiction → (c.answerOf raw).survivor = raw.survivor := by
    intro hverdict
    refine if_neg ?_
    rcases hverdict with hverdict | hverdict <;> simp [hverdict]
  refine ⟨rfl, rfl, ?_, ?_, ?_, ?_, clean_sanitizeReason raw.reason⟩
  · intro hverdict
    exact congrArg (Option.map _) (hkept hverdict)
  · intro x hx
    obtain ⟨side, -, rfl⟩ := Option.map_eq_some_iff.mp (show (c.answerOf raw).survivor.map _ = some x from hx)
    cases side
    · exact .inl rfl
    · exact .inr rfl
  · intro hverdict hnone
    have hsurvivor := Option.map_eq_none_iff.mp hnone
    rw [hkept (.inl hverdict)] at hsurvivor
    exact h.survivor_named hverdict hsurvivor
  · intro hverdict
    exact congrArg (Option.map _) (if_pos hverdict)

/-- The verdicts a judgement sends for its pair. -/
def SendsVerdict (serve : Server Reply σ) (s : σ) (judge : Option Judge) (src dst : String) (now : ℚ) (v : EdgeVerdict) : Prop :=
  Call.graph (.setContradictionVerdict src dst v) ∈
    (MemoryService.judgeContradiction judge src dst now).run.calls serve s

theorem sendsVerdict_iff {judge : Judge} (hvalid : judge.Valid) (h : Judgeable serve s src dst a b) (now : ℚ)
    (v : EdgeVerdict) : SendsVerdict serve s (some judge) src dst now v ↔ v ∈ verdictsOf judge.modelName src dst now (judge.judge a b) := by
  unfold SendsVerdict
  rw [(calls_judgeContradiction hvalid h now).1, List.mem_cons, List.mem_map]
  constructor
  · rintro (heq | ⟨v', hv', heq⟩)
    · cases heq
    · cases heq
      exact hv'
  · intro hv
    exact .inr ⟨v, hv, rfl⟩

/-- What a reply of the endpoint brings about, for a pair that can be judged. -/
structure Writes (c : JudgeClient) (serve : Server Reply σ) (s : σ) (src dst : String) (now : ℚ) (reply : HttpReply) :
    Prop where
  /-- A real verdict is sent exactly if the text of the reply is one. -/
  real_iff : (∃ v, SendsVerdict serve s (some c.judge) src dst now v ∧ v.verdict ≠ .unjudged) ↔ ∃ raw, c.Answers reply raw
  /-- What is sent is what the text says. -/
  written : ∀ v, SendsVerdict serve s (some c.judge) src dst now v → v.verdict ≠ .unjudged →
    ∃ raw, c.Answers reply raw ∧ WrittenAs raw src dst v
  /-- A marker names nobody, and says why on one clean line. -/
  marker : ∀ v, SendsVerdict serve s (some c.judge) src dst now v → v.verdict = .unjudged →
    v.verdictSurvivor = none ∧ CleanReason v.verdictReason
  /-- A failure of another kind is marked, and nothing else is sent. -/
  definitive : (∀ raw, ¬c.Answers reply raw) → reply.isTransient = false →
    ∃ marker, marker.verdict = .unjudged ∧ (MemoryService.judgeContradiction (some c.judge) src dst now).run.calls serve s =
      [.vectors (.getBatch [src, dst]), .graph (.setContradictionVerdict src dst marker)]
  transient : reply.isTransient = true →
    (MemoryService.judgeContradiction (some c.judge) src dst now).run.calls serve s = [.vectors (.getBatch [src, dst])]

theorem verdictsOf_error (model src dst : String) (now : ℚ) (e : AlayaError) :
    verdictsOf model src dst now (.error e) =
      if retried (α := JudgeAnswer) (.error e) then [] else [MemoryService.unjudgedMarker model e.display now] := by
  cases e <;> rfl

theorem writes_of_judgeable (c : JudgeClient) (h : Judgeable serve s src dst a b) :
    Writes c serve s src dst now (c.endpoint a b) := by
  have hsends := sendsVerdict_iff c.valid_judge h now
  have hcalls := (calls_judgeContradiction c.valid_judge h now).1
  have hretried := (JudgeClient.charged_judgeReply c (c.endpoint a b)).2
  have hreply : c.judge.judge a b = c.judgeReply (c.endpoint a b) := rfl
  rw [hreply] at hcalls
  simp only [hreply] at hsends
  cases hanswer : c.judgeReply (c.endpoint a b) with
  | ok answer =>
    obtain ⟨raw, hraw, rfl⟩ := JudgeClient.judgeReply_eq_ok_iff.mp hanswer
    obtain ⟨resp, text, v, hresp, htext, hv, hspells⟩ := id hraw
    rw [hanswer] at hretried
    have hreal : (MemoryService.answerVerdict src dst (c.answerOf raw) now).verdict ≠ .unjudged := hspells.is_class
    have honly : ∀ v, SendsVerdict serve s (some c.judge) src dst now v →
        v = MemoryService.answerVerdict src dst (c.answerOf raw) now := by
      intro v hv
      have hmem := (hsends v).mp hv
      rw [hanswer] at hmem
      exact List.mem_singleton.mp hmem
    constructor
    · refine ⟨fun _ => ⟨raw, hraw⟩, fun _ => ⟨_, (hsends _).mpr ?_, hreal⟩⟩
      rw [hanswer]
      exact List.mem_singleton.mpr rfl
    · intro v hv _
      rw [honly v hv]
      exact ⟨raw, hraw, writtenAs_answerVerdict hspells⟩
    · intro v hv hmarker
      rw [honly v hv] at hmarker
      exact absurd hmarker hreal
    · exact fun hnone => absurd hraw (hnone raw)
    · intro htransient
      rw [← hretried] at htransient
      cases htransient
  | error e =>
    have hnone : ∀ raw, ¬c.Answers (c.endpoint a b) raw := by
      intro raw hraw
      rw [JudgeClient.judgeReply_eq_ok_iff.mpr ⟨raw, hraw, rfl⟩] at hanswer
      cases hanswer
    rw [hanswer] at hretried hcalls
    rw [verdictsOf_error] at hcalls
    have honly : ∀ v, SendsVerdict serve s (some c.judge) src dst now v →
        v = MemoryService.unjudgedMarker c.judge.modelName e.display now := by
      intro v hv
      have hmem := (hsends v).mp hv
      rw [hanswer, verdictsOf_error] at hmem
      split at hmem
      · cases hmem
      · exact List.mem_singleton.mp hmem
    constructor
    · refine ⟨?_, fun ⟨raw, hraw⟩ => absurd hraw (hnone raw)⟩
      rintro ⟨v, hv, hreal⟩
      rw [honly v hv] at hreal
      exact absurd rfl hreal
    · intro v hv hreal
      rw [honly v hv] at hreal
      exact absurd rfl hreal
    · intro v hv _
      rw [honly v hv]
      exact ⟨rfl, clean_sanitizeReason _⟩
    · intro _ hfinal
      rw [hretried, hfinal] at hcalls
      exact ⟨_, rfl, hcalls⟩
    · intro htransient
      rw [hretried, htransient] at hcalls
      exact hcalls

/-- A call of a judgement: it reads the two memories, or writes a verdict on their edge. -/
def Call.OfJudgement (src dst : String) (c : Call) : Prop :=
  c = .vectors (.getBatch [src, dst]) ∨ ∃ v, c = .graph (.setContradictionVerdict src dst v)

/-- **Only a well-formed verdict reaches an edge**: whatever the endpoint replies about a pair, a real verdict is sent
exactly if the text of the reply is one, and as the text says; no call touches a memory; and a judgement is charged
for exactly when a request was made for a pair that may have been billed, or that was turned away as unacceptable. -/
theorem verdict_well_formed (serve : Server Reply σ) (s : σ) (client : Option JudgeClient) (src dst : String) (now : ℚ) :
    (∀ c ∈ client, ∀ a b, Judgeable serve s src dst a b → Writes c serve s src dst now (c.endpoint a b)) ∧
    (∀ call ∈ (MemoryService.judgeContradiction (client.map JudgeClient.judge) src dst now).run.calls serve s,
      call.OfJudgement src dst) ∧
    ∃ outcome, ((MemoryService.judgeContradiction (client.map JudgeClient.judge) src dst now).run.run serve s).1 =
        .ok outcome ∧
      (outcome.spent = true ↔ ∃ c ∈ client, ∃ a b, Judgeable serve s src dst a b ∧
        ((c.endpoint a b).billable c.native = true ∨ (c.endpoint a b).rejected = true)) := by
  refine ⟨fun c _ a b h => writes_of_judgeable c h, ?_, ?_⟩
  · exact Makes.mem_calls (makes_judgeContradiction _ (.inl rfl) fun _ v => .inr ⟨v, rfl⟩) serve s
  · cases client with
    | none => exact ⟨_, rfl, by simp [JudgeOutcome.spent]⟩
    | some c =>
      by_cases h : ∃ a b, Judgeable serve s src dst a b
      · obtain ⟨a, b, h⟩ := h
        obtain ⟨outcome, hrun, hspent⟩ := (calls_judgeContradiction c.valid_judge h now).2
        have hcharged : outcome.spent = ((c.endpoint a b).billable c.native || (c.endpoint a b).rejected) :=
          hspent.trans (JudgeClient.charged_judgeReply c (c.endpoint a b)).1
        refine ⟨outcome, hrun, ?_⟩
        rw [hcharged, Bool.or_eq_true]
        constructor
        · exact fun hbilled => ⟨c, rfl, a, b, h, hbilled⟩
        · rintro ⟨c', hc', a', b', h', hbilled⟩
          obtain rfl : c = c' := Option.some.inj hc'
          obtain ⟨rfl, rfl⟩ := h.unique h'
          exact hbilled
      · have hnone : ∀ a b, ¬Judgeable serve s src dst a b := fun a b hab => h ⟨a, b, hab⟩
        obtain ⟨outcome, hrun, hspent⟩ := spent_of_not_judgeable hnone
        refine ⟨outcome, hrun, ?_⟩
        rw [hspent]
        refine ⟨nofun, ?_⟩
        rintro ⟨_, _, a, b, hab, _⟩
        exact absurd hab (hnone a b)

end

/-! ### Replies about one pair -/

def memoryA : String := String.ofList (List.replicate 64 'a')

def memoryB : String := String.ofList (List.replicate 64 'b')

def heldMemory (hash : String) : Memory where
  content := "The default port is 8080."
  contentHash := hash
  tags := []
  memoryType := "note"
  metadata := none
  createdAt := 0
  updatedAt := 0
  embedding := none
  summary := none
  salienceScore := 0
  accessCount := 0
  accessTimestamps := []
  emotionalValence := none
  encodingContext := none
  provenance := none
  summaryEmbedding := none
  supersessionLog := none
  supersessionReason := none
  nearestSimilarity := none

/-- A store that holds the two memories, and a graph that is down. -/
def pairServer : Server Reply Unit
  | .vectors (.getBatch _), _ => (.ok [heldMemory memoryA, heldMemory memoryB], ())
  | _, _ => (.error (.graph "down"), ())

theorem judgeable_pair : Judgeable pairServer () memoryA memoryB (heldMemory memoryA) (heldMemory memoryB) where
  src_valid := by decide +kernel
  dst_valid := by decide +kernel
  distinct := by decide +kernel
  stored := ⟨[heldMemory memoryA, heldMemory memoryB], rfl, by decide +kernel, by decide +kernel⟩

/-- A message with one block of text. -/
def messageBody (text : String) : String :=
  "\x7b\"content\":[\x7b\"type\":\"text\",\"text\":\"" ++ String.ofList (Quoted.escape '\\' '"' text.toList) ++ "\"\x7d]\x7d"

/-- A client whose endpoint replies with a status and a message of one text, which spells a value. -/
def clientOf (status : ℕ) (text : String) (verdict : Json.Value) : JudgeClient where
  texts :=
    { fromStr := fun t => if t = text then some verdict else none
      fromSlice := fun bytes =>
        if bytes = (messageBody text).toUTF8.toList then
          some (.object [("content", .array [.object [("type", .string "text"), ("text", .string text)]])])
        else none
      lossy := fun _ => messageBody text
      bodyError := fun _ => "error decoding response body"
      verdictError := fun _ => "invalid type: integer, expected a string"
      status := fun n => if n = 400 then "400 Bad Request" else "200 OK"
      debug := fun s => "\"" ++ s ++ "\""
      float := fun _ => "0.9" }
  native := true
  provider := .anthropic
  model := "claude"
  endpoint := fun _ _ => .replied status none (.ok (messageBody text).toUTF8.toList)

theorem answers_clientOf {text : String} {verdict : Json.Value} {raw : RawVerdict} (htrim : trim text = text)
    (hne : text ≠ "") (h : Spells verdict raw) (a b : Memory) :
    (clientOf 200 text verdict).Answers ((clientOf 200 text verdict).endpoint a b) raw := by
  have hblock : SpellsBlock (.object [("type", .string "text"), ("text", .string text)]) text :=
    ⟨rfl, .inr ⟨_, rfl, rfl⟩⟩
  have hmessage : SpellsMessage
      (.object [("content", .array [.object [("type", .string "text"), ("text", .string text)]])]) [text] {} none :=
    ⟨rfl, ⟨_, rfl, _, rfl, .cons hblock .nil⟩, .inl ⟨rfl, rfl⟩, .inl ⟨rfl, rfl⟩⟩
  have hfirst : FirstText [text] text := ⟨[], text, [], rfl, nofun, htrim, hne⟩
  exact ⟨_, text, verdict, ⟨200, none, _, rfl, by decide, by decide, if_pos rfl⟩, ⟨_, _, _, hmessage, hfirst⟩,
    if_pos rfl, h⟩

theorem spells_of_answers {status : ℕ} {text : String} {verdict : Json.Value} {reply : HttpReply} {raw : RawVerdict}
    (h : (clientOf status text verdict).Answers reply raw) : Spells verdict raw := by
  obtain ⟨body, t, v, -, -, hv, hspells⟩ := h
  change (if t = text then some verdict else none) = some v at hv
  split at hv
  · rw [Option.some.inj hv]
    exact hspells
  · cases hv

def supersessionText : String :=
  "\x7b\"verdict\":\"supersession\",\"survivor\":\"b\",\"reason\":\"the port changed\",\"confidence\":0.9\x7d"

def supersededByB : Json.Value :=
  .object [("verdict", .string "supersession"), ("survivor", .string "b"), ("reason", .string "the port changed"),
    ("confidence", .ofF64 (9 / 10))]

/-- The second memory is written as the survivor of a supersession that names `b`. -/
theorem verdict_well_formed_superseded :
    ∃ v, SendsVerdict pairServer () (some (clientOf 200 supersessionText supersededByB).judge) memoryA memoryB 0 v ∧
      v.verdict = .supersession ∧ v.verdictSurvivor = some memoryB := by
  have hwrites := (verdict_well_formed pairServer () (some (clientOf 200 supersessionText supersededByB)) memoryA
    memoryB 0).1 _ rfl _ _ judgeable_pair
  have hspells : Spells supersededByB ⟨.supersession, some .b, "the port changed", 9 / 10⟩ :=
    spells_iff.mpr ⟨rfl, by decide +kernel, nofun, nofun⟩
  obtain ⟨v, hv, hreal⟩ := hwrites.real_iff.mpr
    ⟨_, answers_clientOf (by decide +kernel) (by decide +kernel) hspells _ _⟩
  obtain ⟨raw, hraw, hwritten⟩ := hwrites.written v hv hreal
  obtain rfl : ⟨.supersession, some .b, "the port changed", 9 / 10⟩ = raw :=
    Option.some.inj ((spells_iff.mp hspells).1.symm.trans (spells_iff.mp (spells_of_answers hraw)).1)
  exact ⟨v, hv, hwritten.same_class, hwritten.survivor (.inl hwritten.same_class)⟩

def mistypedText : String := "\x7b\"verdict\":\"coexist\",\"reason\":7,\"confidence\":0.5\x7d"

/-- A class and a probability, and a reason that is no text. -/
def mistyped : Json.Value :=
  .object [("verdict", .string "coexist"), ("reason", .ofU64 7), ("confidence", .ofF64 (1 / 2))]

/-- A request that is turned away as faulty is free and counts as spent, and a text with a class and a probability, but
a reason that is no text, is no verdict. -/
theorem rejected_counts_as_spent :
    (∃ outcome, ((MemoryService.judgeContradiction (some (clientOf 400 mistypedText mistyped).judge) memoryA memoryB
        0).run.run pairServer ()).1 = .ok outcome ∧ outcome.spent = true) ∧
    ((clientOf 400 mistypedText mistyped).endpoint (heldMemory memoryA) (heldMemory memoryB)).billable true = false ∧
    Json.field mistyped "verdict" 0 = some (some (.string "coexist")) ∧
    Json.field mistyped "confidence" 3 = some (some (.ofF64 (1 / 2))) ∧
    ¬∃ v, SendsVerdict pairServer () (some (clientOf 200 mistypedText mistyped).judge) memoryA memoryB 0 v ∧
      v.verdict ≠ .unjudged := by
  refine ⟨?_, rfl, rfl, rfl, ?_⟩
  · obtain ⟨outcome, hrun, hspent⟩ :=
      (calls_judgeContradiction (clientOf 400 mistypedText mistyped).valid_judge judgeable_pair 0).2
    refine ⟨outcome, hrun, hspent.trans ?_⟩
    exact (JudgeClient.charged_judgeReply (clientOf 400 mistypedText mistyped) _).1
  · rw [(writes_of_judgeable (clientOf 200 mistypedText mistyped) judgeable_pair).real_iff]
    rintro ⟨raw, hraw⟩
    cases (spells_iff.mp (spells_of_answers hraw)).1

end Alaya
