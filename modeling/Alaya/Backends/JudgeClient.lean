import Alaya.Backends.Transport
import Alaya.Core.Judge

/-!
# The judge behind a model endpoint

The model's text is read as a verdict and checked; what is no well-formed verdict is a failure of the judge.
`judgeReply_eq_ok_iff` says which replies answer, and `charged_judgeReply` how the others are charged.
-/

namespace Alaya

open Json

/-- The model's JSON. -/
structure RawVerdict where
  verdict : Verdict
  survivor : Option Survivor
  reason : String
  confidence : ℚ

def readVerdict (v : Value) : Option Verdict := (variantName v).bind Verdict.parse

def readSurvivor (v : Value) : Option Survivor :=
  match variantName v with
  | some "a" => some .a
  | some "b" => some .b
  | _ => none

def readRawVerdict (v : Value) : Option RawVerdict := do
  if shaped 4 v then
    return ⟨← required v "verdict" 0 readVerdict, ← optional v "survivor" 1 none (readOption readSurvivor),
      ← optional v "reason" 2 "" Value.asStr, ← required v "confidence" 3 Value.asF64⟩
  else none

/-- Who survives: nobody where nothing gives way, and somebody where one replaces the other. -/
def RawVerdict.survivorOf (raw : RawVerdict) : Except AlayaError (Option Survivor) :=
  match raw.verdict with
  | .coexist | .unrelated => .ok none
  | .contradiction => .ok raw.survivor
  | .supersession =>
    match raw.survivor with
    | some s => .ok (some s)
    | none => .error (.judge "supersession without a survivor")
  | .unjudged => .error (.judge "model answered 'unjudged', which is not a class")

def RawVerdict.validate (texts : Texts) (raw : RawVerdict) (model : String) : Except AlayaError JudgeAnswer :=
  if ¬(0 ≤ raw.confidence ∧ raw.confidence ≤ 1) then
    .error (.judge ("confidence " ++ texts.float raw.confidence ++ " outside 0.0..=1.0"))
  else do
    let survivor ← raw.survivorOf
    return ⟨raw.verdict, survivor, sanitizeReason raw.reason, raw.confidence, model⟩

/-- What the judge makes of a completion. -/
def judgeCompletion (texts : Texts) (model : String) (resp : Completion) : Except AlayaError JudgeAnswer :=
  let stop := resp.stopReason.getD ""
  match resp.text with
  | none => .error (.judge ("empty completion (stop_reason=" ++ texts.debug stop ++ ")"))
  | some text =>
    match (texts.fromStr text).bind readRawVerdict with
    | none =>
      .error (.judge ("verdict is not valid JSON (stop_reason=" ++ texts.debug stop ++ "): " ++ texts.verdictError text))
    | some raw => raw.validate texts model

/-- A judge over an endpoint: how it is called, and what becomes of the request about two memories. -/
structure JudgeClient where
  texts : Texts
  /-- Whether the client runs natively. -/
  native : Bool
  provider : Provider
  model : String
  endpoint : Memory → Memory → HttpReply

namespace JudgeClient

variable (c : JudgeClient)

def judgeReply (reply : HttpReply) : Except AlayaError JudgeAnswer := do
  let resp ← complete c.texts c.native c.provider reply
  judgeCompletion c.texts c.model resp

def judge : Judge where
  modelName := c.model
  judge a b := c.judgeReply (c.endpoint a b)

end JudgeClient

/-! ### The verdicts a text can spell -/

/-- The letter a survivor is named by. -/
def Survivor.letter : Survivor → String
  | .a => "a"
  | .b => "b"

/-- A value spells a verdict: a class, a survivor where one memory gives way to the other, and a probability, each in
its own field and of its type. -/
structure Spells (v : Value) (raw : RawVerdict) : Prop where
  shape : shaped 4 v = true
  class_field : ∃ x, field v "verdict" 0 = some (some x) ∧ variantName x = some raw.verdict.asStr
  is_class : raw.verdict ≠ .unjudged
  survivor_field : field v "survivor" 1 = some none ∧ raw.survivor = none ∨
    field v "survivor" 1 = some (some .null) ∧ raw.survivor = none ∨
    ∃ x side, field v "survivor" 1 = some (some x) ∧ variantName x = some side.letter ∧ raw.survivor = some side
  survivor_named : raw.verdict = .supersession → raw.survivor ≠ none
  reason_field : field v "reason" 2 = some none ∧ raw.reason = "" ∨
    field v "reason" 2 = some (some (.string raw.reason))
  confidence_field : ∃ x, field v "confidence" 3 = some (some x) ∧ x.asF64 = some raw.confidence
  confidence_range : 0 ≤ raw.confidence ∧ raw.confidence ≤ 1

theorem readVerdict_eq_some_iff {x : Value} {verdict : Verdict} :
    readVerdict x = some verdict ↔ variantName x = some verdict.asStr := by
  unfold readVerdict
  rw [Option.bind_eq_some_iff]
  constructor
  · rintro ⟨name, hname, hparse⟩
    have hfound : verdict.asStr = name := by
      unfold Verdict.parse at hparse
      simpa using List.find?_some hparse
    rw [hname, hfound]
  · intro h
    exact ⟨_, h, Verdict.parse_asStr verdict⟩

theorem readSurvivor_eq_some_iff {x : Value} {side : Survivor} :
    readSurvivor x = some side ↔ variantName x = some side.letter := by
  unfold readSurvivor
  constructor
  · intro h
    split at h
    · next hname =>
      cases h
      exact hname
    · next hname =>
      cases h
      exact hname
    · cases h
  · intro h
    rw [h]
    cases side <;> rfl

theorem reads_nullable_survivor :
    Reads (OrNull fun x side => variantName x = some (Survivor.letter side)) (readOption readSurvivor) :=
  Reads.orNull (fun _ _ => readSurvivor_eq_some_iff) fun _ => nofun

/-- What validates: a class, a probability, and a survivor for a supersession. -/
theorem validate_eq_ok_iff {texts : Texts} {raw : RawVerdict} {model : String} {answer : JudgeAnswer} :
    raw.validate texts model = .ok answer ↔
      (0 ≤ raw.confidence ∧ raw.confidence ≤ 1) ∧ raw.verdict ≠ .unjudged ∧
        (raw.verdict = .supersession → raw.survivor ≠ none) ∧
        answer = ⟨raw.verdict, if raw.verdict = .coexist ∨ raw.verdict = .unrelated then none else raw.survivor,
          sanitizeReason raw.reason, raw.confidence, model⟩ := by
  unfold RawVerdict.validate RawVerdict.survivorOf
  by_cases hrange : 0 ≤ raw.confidence ∧ raw.confidence ≤ 1
  · rw [if_neg (not_not.mpr hrange)]
    obtain ⟨verdict, survivor, reason, confidence⟩ := raw
    cases verdict
    case supersession => cases survivor <;> simp [bind, Except.bind, pure, Except.pure, hrange, eq_comm]
    all_goals simp [bind, Except.bind, pure, Except.pure, hrange, eq_comm]
  · rw [if_pos hrange]
    simp [hrange]

theorem readRawVerdict_eq_some_iff {v : Value} {raw : RawVerdict} : readRawVerdict v = some raw ↔
    shaped 4 v = true ∧ required v "verdict" 0 readVerdict = some raw.verdict ∧
      optional v "survivor" 1 none (readOption readSurvivor) = some raw.survivor ∧
      optional v "reason" 2 "" Value.asStr = some raw.reason ∧
      required v "confidence" 3 Value.asF64 = some raw.confidence := by
  unfold readRawVerdict
  split
  · next hshape =>
    constructor
    · intro h
      obtain ⟨verdict, hverdict, h⟩ := Option.bind_eq_some_iff.mp h
      obtain ⟨survivor, hsurvivor, h⟩ := Option.bind_eq_some_iff.mp h
      obtain ⟨reason, hreason, h⟩ := Option.bind_eq_some_iff.mp h
      obtain ⟨confidence, hconfidence, h⟩ := Option.bind_eq_some_iff.mp h
      cases h
      exact ⟨hshape, hverdict, hsurvivor, hreason, hconfidence⟩
    · rintro ⟨-, hverdict, hsurvivor, hreason, hconfidence⟩
      rw [hverdict, hsurvivor, hreason, hconfidence]
      rfl
  · next hshape =>
    exact ⟨nofun, fun h => absurd h.1 hshape⟩

/-- **What is read and validates is what spells a verdict.** -/
theorem spells_iff {v : Value} {raw : RawVerdict} : Spells v raw ↔
    readRawVerdict v = some raw ∧ (0 ≤ raw.confidence ∧ raw.confidence ≤ 1) ∧ raw.verdict ≠ .unjudged ∧
      (raw.verdict = .supersession → raw.survivor ≠ none) := by
  have hreason : optional v "reason" 2 "" Value.asStr = some raw.reason ↔
      field v "reason" 2 = some none ∧ raw.reason = "" ∨ field v "reason" 2 = some (some (.string raw.reason)) := by
    rw [reads_asStr.optional_iff]
    simp [InField, IsString]
  have hsurvivor : optional v "survivor" 1 none (readOption readSurvivor) = some raw.survivor ↔
      field v "survivor" 1 = some none ∧ raw.survivor = none ∨
        field v "survivor" 1 = some (some .null) ∧ raw.survivor = none ∨
        ∃ x side, field v "survivor" 1 = some (some x) ∧ variantName x = some side.letter ∧
          raw.survivor = some side := by
    rw [reads_nullable_survivor.optional_iff]
    unfold InField
    cases raw.survivor with
    | none => simp [OrNull]
    | some side => simp [OrNull]
  rw [readRawVerdict_eq_some_iff, hreason, hsurvivor, required_eq_some_iff, required_eq_some_iff]
  simp only [readVerdict_eq_some_iff]
  constructor
  · intro h
    exact ⟨⟨h.shape, h.class_field, h.survivor_field, h.reason_field, h.confidence_field⟩, h.confidence_range,
      h.is_class, h.survivor_named⟩
  · rintro ⟨⟨hshape, hclass, hside, htext, hconfidence⟩, hrange, hjudged, hnamed⟩
    exact ⟨hshape, hclass, hjudged, hside, hnamed, htext, hconfidence, hrange⟩

/-! ### The replies that answer -/

namespace JudgeClient

variable {c : JudgeClient} {reply : HttpReply}

/-- The text of a reply is a verdict. -/
def Answers (c : JudgeClient) (reply : HttpReply) (raw : RawVerdict) : Prop :=
  ∃ body text v, reply.Carries c.texts body ∧ c.provider.HasText body text ∧ c.texts.fromStr text = some v ∧
    Spells v raw

/-- What a verdict is answered as. -/
def answerOf (c : JudgeClient) (raw : RawVerdict) : JudgeAnswer :=
  ⟨raw.verdict, if raw.verdict = .coexist ∨ raw.verdict = .unrelated then none else raw.survivor,
    sanitizeReason raw.reason, raw.confidence, c.model⟩

/-- **The judge answers exactly the replies whose text is a verdict.** -/
theorem judgeReply_eq_ok_iff {answer : JudgeAnswer} :
    c.judgeReply reply = .ok answer ↔ ∃ raw, c.Answers reply raw ∧ answer = c.answerOf raw := by
  unfold judgeReply
  rw [bind_eq_ok]
  constructor
  · rintro ⟨resp, hresp, hanswer⟩
    unfold judgeCompletion at hanswer
    split at hanswer
    · cases hanswer
    · next text htext =>
      split at hanswer
      · cases hanswer
      · next raw hraw =>
        obtain ⟨v, hv, hread⟩ := Option.bind_eq_some_iff.mp hraw
        obtain ⟨hrange, hclass, hnamed, rfl⟩ := validate_eq_ok_iff.mp hanswer
        obtain ⟨body, hbody, hsaid⟩ := complete_text_iff.mp ⟨resp, hresp, htext⟩
        exact ⟨raw, ⟨body, text, v, hbody, hsaid, hv, spells_iff.mpr ⟨hread, hrange, hclass, hnamed⟩⟩, rfl⟩
  · rintro ⟨raw, ⟨body, text, v, hbody, hsaid, hv, hspells⟩, rfl⟩
    obtain ⟨resp, hresp, htext⟩ := complete_text_iff.mpr ⟨body, hbody, hsaid⟩
    obtain ⟨hread, hrange, hclass, hnamed⟩ := spells_iff.mp hspells
    refine ⟨resp, hresp, ?_⟩
    unfold judgeCompletion
    rw [htext]
    dsimp only
    rw [hv, Option.bind_some, hread]
    exact validate_eq_ok_iff.mpr ⟨hrange, hclass, hnamed, rfl⟩

theorem definitive_judgeCompletion (texts : Texts) (model : String) (resp : Completion) :
    Definitive (judgeCompletion texts model resp) := by
  have hsurvivor : ∀ raw : RawVerdict, Definitive raw.survivorOf := by
    intro raw
    unfold RawVerdict.survivorOf
    split
    · exact .inl ⟨_, rfl⟩
    · exact .inl ⟨_, rfl⟩
    · exact .inl ⟨_, rfl⟩
    · split
      · exact .inl ⟨_, rfl⟩
      · exact .inr ⟨_, rfl⟩
    · exact .inr ⟨_, rfl⟩
  unfold judgeCompletion
  dsimp only
  split
  · exact .inr ⟨_, rfl⟩
  · split
    · exact .inr ⟨_, rfl⟩
    · next raw _ =>
      unfold RawVerdict.validate
      split
      · exact .inr ⟨_, rfl⟩
      · rcases hsurvivor raw with ⟨survivor, h⟩ | ⟨m, h⟩
        · rw [h]
          exact .inl ⟨_, rfl⟩
        · rw [h]
          exact .inr ⟨_, rfl⟩

/-- The judge's answer is charged, and retried, as the reply calls for. -/
theorem charged_judgeReply (c : JudgeClient) (reply : HttpReply) :
    charged (c.judgeReply reply) = (reply.billable c.native || reply.rejected) ∧
      retried (c.judgeReply reply) = reply.isTransient := by
  obtain ⟨hcharged, hretried⟩ := charged_bind (complete c.texts c.native c.provider reply)
    (definitive_judgeCompletion c.texts c.model)
  obtain ⟨hbilled, htransient⟩ := charged_complete c.texts c.native c.provider reply
  exact ⟨hcharged.trans hbilled, hretried.trans htransient⟩

end JudgeClient

end Alaya
