import Alaya.Lib.Derived
import Alaya.Types.Citation
import Alaya.Types.Error
import Alaya.Types.Memory

/-!
# The transport to a model

One request goes out on either wire, and what came of it is read as a completion.  A failure is classified: a rate
limit, a failure of the request itself, which will fail the same way again, or one that has nothing to do with the
request and says whether it may have been billed.
-/

namespace Alaya

open Json

/-- The wire a request goes out on. -/
inductive Provider where
  | anthropic
  | openAi
  deriving DecidableEq

/-- What became of a request. -/
inductive HttpReply where
  /-- No reply: the connection was not made, or what followed it failed. -/
  | failed (isConnect : Bool) (message : String)
  /-- A status with its headers, and a body or the error that cut it off. -/
  | replied (status : ℕ) (retryAfter : Option String) (body : Except String (List UInt8))

/-- The texts and the readings that come from outside. -/
structure Texts where
  /-- The value a JSON text spells, with the members of its objects in order. -/
  fromStr : String → Option Value
  /-- The same of the bytes of a body. -/
  fromSlice : List UInt8 → Option Value
  /-- The text of a body. -/
  lossy : List UInt8 → String
  /-- Why a body is not read as a reply, and a text not as a verdict. -/
  bodyError : List UInt8 → String
  verdictError : String → String
  /-- A status, and its reason phrase. -/
  status : ℕ → String
  /-- A text, quoted. -/
  debug : String → String
  /-- A double. -/
  float : ℚ → String

def logClipBytes : ℕ := 256

/-- The characters of a text within its first `n` bytes. -/
def headBytes : ℕ → List Char → List Char
  | _, [] => []
  | n, c :: cs => if c.utf8Size ≤ n then c :: headBytes (n - c.utf8Size) cs else []

/-- The body of a reply that is no success, as an error quotes it: without control characters, and clipped. -/
def errorBody (texts : Texts) : Except String (List UInt8) → String
  | .error _ => "<unreadable>"
  | .ok bytes =>
    let body := (texts.lossy bytes).toList.filter fun c => !isControl c
    if utf8Len body ≤ logClipBytes then String.ofList body
    else
      String.ofList (headBytes logClipBytes body) ++ "… (" ++ toString (utf8Len body) ++ " bytes)"

/-- The statuses of a request that is itself unacceptable. -/
def isRequestFault (status : ℕ) : Bool := status = 400 || status = 413 || status = 422

def isSuccess (status : ℕ) : Bool := 200 ≤ status && status < 300

def isServerError (status : ℕ) : Bool := 500 ≤ status && status < 600

/-- Whether a failed request got past connect; only a native client can tell that it did not. -/
def reachedUpstream (native isConnect : Bool) : Bool := !(native && isConnect)

/-- The seconds of a `retry-after` header. -/
def retryAfterSecs (header : String) : Option ℕ :=
  match (trim header).toList with
  | '+' :: cs => parseU64 cs
  | cs => parseU64 cs

section Post

variable (texts : Texts) (native : Bool) {α : Type}

/-- Decode the reply to a request, or classify its failure. -/
def post (api : String) (decode : Value → Option α) : HttpReply → Except AlayaError α
  | .failed isConnect message => .error (.unavailable message (reachedUpstream native isConnect))
  | .replied status retryAfter body =>
    if status = 429 then .error (.rateLimited (retryAfter.bind retryAfterSecs))
    else if !isSuccess status then
      let msg := api ++ " returned " ++ texts.status status ++ ": " ++ errorBody texts body
      if isRequestFault status then .error (.judge msg) else .error (.unavailable msg (isServerError status))
    else
      match body with
      | .error message => .error (.unavailable ("response body: " ++ message) true)
      | .ok bytes =>
        match (texts.fromSlice bytes).bind decode with
        | some a => .ok a
        | none => .error (.judge ("failed to parse response: " ++ texts.bodyError bytes))

end Post

/-! ### The two wires -/

structure Usage where
  inputTokens : UInt64 := 0
  cacheCreationInputTokens : UInt64 := 0
  cacheReadInputTokens : UInt64 := 0
  outputTokens : UInt64 := 0

/-- What came back: the first text that is not empty, and why the model stopped. -/
structure Completion where
  text : Option String
  usage : Usage
  stopReason : Option String

def readUsage (v : Value) : Option Usage := do
  if shaped 4 v then
    return ⟨← optional v "input_tokens" 0 0 Value.asU64, ← optional v "cache_creation_input_tokens" 1 0 Value.asU64,
      ← optional v "cache_read_input_tokens" 2 0 Value.asU64, ← optional v "output_tokens" 3 0 Value.asU64⟩
  else none

/-- The text of a content block; a block of another kind has none. -/
def readContentBlock (v : Value) : Option String :=
  if shaped 1 v then optional v "text" 0 "" Value.asStr else none

/-- The first text block that is not empty, trimmed. -/
def firstText (content : List String) : Option String := (content.map trim).find? fun t => t ≠ ""

/-- `MessagesResponse`, as a completion. -/
def readMessages (v : Value) : Option Completion := do
  if shaped 3 v then
    let content ← required v "content" 0 (readArray readContentBlock)
    let usage ← optional v "usage" 1 {} readUsage
    let stopReason ← optional v "stop_reason" 2 none (readOption Value.asStr)
    return ⟨firstText content, usage, stopReason⟩
  else none

structure ChatMessage where
  content : Option String
  refusal : Option String

structure Choice where
  message : Option ChatMessage
  finishReason : Option String

structure ChatResponse where
  choices : List Choice
  usage : Option Usage

def readChatMessage (v : Value) : Option ChatMessage := do
  if shaped 2 v then
    return ⟨← optional v "content" 0 none (readOption Value.asStr), ← optional v "refusal" 1 none (readOption Value.asStr)⟩
  else none

def readChoice (v : Value) : Option Choice := do
  if shaped 2 v then
    return ⟨← optional v "message" 0 none (readOption readChatMessage),
      ← optional v "finish_reason" 1 none (readOption Value.asStr)⟩
  else none

/-- The tokens of a prompt include the cached ones. -/
def readChatUsage (v : Value) : Option Usage := do
  if shaped 2 v then
    let promptTokens ← optional v "prompt_tokens" 0 0 Value.asU64
    let completionTokens ← optional v "completion_tokens" 1 0 Value.asU64
    return { inputTokens := promptTokens, outputTokens := completionTokens }
  else none

def readChat (v : Value) : Option ChatResponse := do
  if shaped 2 v then
    return ⟨← optional v "choices" 0 [] (readArray readChoice), ← optional v "usage" 1 none (readOption readChatUsage)⟩
  else none

/-- The first choice; a content-filter stop or a refusal would be one again. -/
def ChatResponse.intoCompletion (texts : Texts) (r : ChatResponse) : Except AlayaError Completion :=
  let usage := r.usage.getD {}
  match r.choices with
  | [] => .ok ⟨none, usage, none⟩
  | choice :: _ =>
    let message := choice.message.getD ⟨none, none⟩
    if choice.finishReason = some "content_filter" then
      .error (.judge "chat completion stopped by the content filter")
    else if message.refusal.any fun r => trim r ≠ "" then
      .error (.judge ("model refused the request (finish_reason=" ++ texts.debug (choice.finishReason.getD "") ++ ")"))
    else .ok ⟨(message.content.map trim).filter fun c => c ≠ "", usage, choice.finishReason⟩

/-- Read the reply on the wire the request went out on. -/
def complete (texts : Texts) (native : Bool) (provider : Provider) (reply : HttpReply) : Except AlayaError Completion :=
  match provider with
  | .anthropic => post texts native "messages API" readMessages reply
  | .openAi => do
    let resp ← post texts native "chat completions API" readChat reply
    resp.intoCompletion texts

/-! ### What may have been billed -/

/-- A request that may have been billed: one that got past connect and failed, that was answered, or that failed on
the other side. -/
def HttpReply.billable (native : Bool) : HttpReply → Bool
  | .failed isConnect _ => reachedUpstream native isConnect
  | .replied status _ _ => isSuccess status || isServerError status

/-- A request that was turned away as unacceptable. -/
def HttpReply.rejected : HttpReply → Bool
  | .failed .. => false
  | .replied status _ _ => isRequestFault status

/-- Whether a result is charged for: an answer, a failure of the request itself, or one that says so. -/
def charged {α : Type} : Except AlayaError α → Bool
  | .ok _ => true
  | .error (.rateLimited _) => false
  | .error (.unavailable _ spent) => spent
  | .error _ => true

/-- A failure that has nothing to do with the request: no reply, a rate limit, a refusal that is not of the request
itself, or a body that was cut off. -/
def HttpReply.isTransient : HttpReply → Bool
  | .failed .. => true
  | .replied status _ body => status = 429 || (if isSuccess status then !body.isOk else !isRequestFault status)

/-- A result that says so. -/
def retried {α : Type} : Except AlayaError α → Bool
  | .error (.rateLimited _) => true
  | .error (.unavailable _ _) => true
  | _ => false

/-- An answer, or a failure that would be one again. -/
def Definitive {α : Type} (x : Except AlayaError α) : Prop := (∃ a, x = .ok a) ∨ ∃ m, x = .error (.judge m)

/-- What is definitive after an answer is charged, and retried, as the answer is. -/
theorem charged_bind {α β : Type} (x : Except AlayaError α) {f : α → Except AlayaError β} (hf : ∀ a, Definitive (f a)) :
    charged (x >>= f) = charged x ∧ retried (x >>= f) = retried x := by
  cases x with
  | ok a =>
    show charged (f a) = true ∧ retried (f a) = false
    rcases hf a with ⟨b, hb⟩ | ⟨m, hm⟩
    · rw [hb]
      exact ⟨rfl, rfl⟩
    · rw [hm]
      exact ⟨rfl, rfl⟩
  | error e => cases e <;> exact ⟨rfl, rfl⟩

theorem charged_post (texts : Texts) (native : Bool) {α : Type} (api : String) (decode : Value → Option α)
    (reply : HttpReply) :
    charged (post texts native api decode reply) = (reply.billable native || reply.rejected) := by
  cases reply with
  | failed isConnect message => exact (Bool.or_false _).symm
  | replied status retryAfter body =>
    unfold post HttpReply.billable HttpReply.rejected
    dsimp only
    split
    · next hlimit =>
      subst hlimit
      rfl
    · split
      · next hstatus =>
        rw [Bool.not_eq_true'] at hstatus
        rw [hstatus, Bool.false_or]
        split
        · next hfault => simp [charged, hfault]
        · next hfault => simp [charged, hfault]
      · next hstatus =>
        have hsuccess : isSuccess status = true := by simpa using hstatus
        rw [hsuccess, Bool.true_or, Bool.true_or]
        split
        · rfl
        · split <;> rfl

theorem retried_post (texts : Texts) (native : Bool) {α : Type} (api : String) (decode : Value → Option α)
    (reply : HttpReply) : retried (post texts native api decode reply) = reply.isTransient := by
  cases reply with
  | failed isConnect message => rfl
  | replied status retryAfter body =>
    unfold post HttpReply.isTransient
    dsimp only
    split
    · next hlimit => simp [retried, hlimit]
    · next hlimit =>
      rw [decide_eq_false hlimit, Bool.false_or]
      split
      · next hstatus =>
        rw [Bool.not_eq_true'] at hstatus
        rw [hstatus, if_neg Bool.false_ne_true]
        split
        · next hfault => simp [retried, hfault]
        · next hfault => simp [retried, hfault]
      · next hstatus =>
        have hsuccess : isSuccess status = true := by simpa using hstatus
        rw [hsuccess, if_pos rfl]
        cases body with
        | error message => rfl
        | ok bytes =>
          dsimp only
          split <;> rfl

/-! ### The text of a reply -/

/-- The value of a reply that succeeds, where its body is JSON. -/
def HttpReply.Carries (texts : Texts) (reply : HttpReply) (v : Value) : Prop :=
  ∃ status retryAfter bytes, reply = .replied status retryAfter (.ok bytes) ∧ 200 ≤ status ∧ status < 300 ∧
    texts.fromSlice bytes = some v

structure SpellsUsage (v : Value) (usage : Usage) : Prop where
  shape : shaped 4 v = true
  input_tokens : InField IsCount v "input_tokens" 0 0 usage.inputTokens
  cache_creation : InField IsCount v "cache_creation_input_tokens" 1 0 usage.cacheCreationInputTokens
  cache_read : InField IsCount v "cache_read_input_tokens" 2 0 usage.cacheReadInputTokens
  output_tokens : InField IsCount v "output_tokens" 3 0 usage.outputTokens

/-- A content block of any kind, with its text. -/
structure SpellsBlock (v : Value) (text : String) : Prop where
  shape : shaped 1 v = true
  text_field : InField IsString v "text" 0 "" text

/-- A message: the texts of its blocks, what it used and why it stopped. -/
structure SpellsMessage (v : Value) (content : List String) (usage : Usage) (stopReason : Option String) : Prop where
  shape : shaped 3 v = true
  content_field : ∃ x, field v "content" 0 = some (some x) ∧ EachItem SpellsBlock x content
  usage_field : InField SpellsUsage v "usage" 1 {} usage
  stop_reason : InField (OrNull IsString) v "stop_reason" 2 none stopReason

structure SpellsChatMessage (v : Value) (message : ChatMessage) : Prop where
  shape : shaped 2 v = true
  content_field : InField (OrNull IsString) v "content" 0 none message.content
  refusal_field : InField (OrNull IsString) v "refusal" 1 none message.refusal

structure SpellsChoice (v : Value) (choice : Choice) : Prop where
  shape : shaped 2 v = true
  message_field : InField (OrNull SpellsChatMessage) v "message" 0 none choice.message
  finish_reason : InField (OrNull IsString) v "finish_reason" 1 none choice.finishReason

/-- The tokens of a prompt include the cached ones. -/
structure SpellsChatUsage (v : Value) (usage : Usage) : Prop where
  shape : shaped 2 v = true
  no_creation : usage.cacheCreationInputTokens = 0
  no_read : usage.cacheReadInputTokens = 0
  prompt_tokens : InField IsCount v "prompt_tokens" 0 0 usage.inputTokens
  completion_tokens : InField IsCount v "completion_tokens" 1 0 usage.outputTokens

structure SpellsChat (v : Value) (r : ChatResponse) : Prop where
  shape : shaped 2 v = true
  choices_field : InField (EachItem SpellsChoice) v "choices" 0 [] r.choices
  usage_field : InField (OrNull SpellsChatUsage) v "usage" 1 none r.usage

/-- Some of the texts are not blank, and `text` is the first of them, trimmed. -/
def FirstText (content : List String) (text : String) : Prop :=
  ∃ before t after, content = before ++ t :: after ∧ (∀ b ∈ before, trim b = "") ∧ trim t = text ∧ text ≠ ""

/-- The text of a chat completion is that of its first choice, which was neither filtered nor refused. -/
structure ChatText (choice : Choice) (text : String) : Prop where
  not_filtered : choice.finishReason ≠ some "content_filter"
  not_refused : ∀ message refusal, choice.message = some message → message.refusal = some refusal → trim refusal = ""
  content : ∃ message t, choice.message = some message ∧ message.content = some t ∧ trim t = text ∧ text ≠ ""

/-- A value has a text on a wire. -/
def Provider.HasText : Provider → Value → String → Prop
  | .anthropic, v, text => ∃ content usage stop, SpellsMessage v content usage stop ∧ FirstText content text
  | .openAi, v, text => ∃ r choice rest, SpellsChat v r ∧ r.choices = choice :: rest ∧ ChatText choice text

theorem definitive_intoCompletion (texts : Texts) (r : ChatResponse) : Definitive (r.intoCompletion texts) := by
  unfold ChatResponse.intoCompletion
  dsimp only
  split
  · exact .inl ⟨_, rfl⟩
  · split
    · exact .inr ⟨_, rfl⟩
    · split
      · exact .inr ⟨_, rfl⟩
      · exact .inl ⟨_, rfl⟩

/-- **A reply is charged for when it may have been billed, or was turned away as unacceptable**, and it is retried
when what failed was not the request. -/
theorem charged_complete (texts : Texts) (native : Bool) (provider : Provider) (reply : HttpReply) :
    charged (complete texts native provider reply) = (reply.billable native || reply.rejected) ∧
      retried (complete texts native provider reply) = reply.isTransient := by
  cases provider with
  | anthropic => exact ⟨charged_post .., retried_post ..⟩
  | openAi =>
    unfold complete
    dsimp only
    obtain ⟨hcharged, hretried⟩ := charged_bind (post texts native "chat completions API" readChat reply)
      (definitive_intoCompletion texts)
    rw [hcharged, hretried]
    exact ⟨charged_post .., retried_post ..⟩

/-! ### What is read is what is spelled -/

theorem reads_usage : Reads SpellsUsage readUsage := by
  intro v usage
  unfold readUsage
  constructor
  · intro h
    split at h
    · next hshape =>
      obtain ⟨input, hinput, h⟩ := Option.bind_eq_some_iff.mp h
      obtain ⟨creation, hcreation, h⟩ := Option.bind_eq_some_iff.mp h
      obtain ⟨cached, hcached, h⟩ := Option.bind_eq_some_iff.mp h
      obtain ⟨output, houtput, h⟩ := Option.bind_eq_some_iff.mp h
      cases h
      exact ⟨hshape, reads_asU64.optional_iff.mp hinput, reads_asU64.optional_iff.mp hcreation,
        reads_asU64.optional_iff.mp hcached, reads_asU64.optional_iff.mp houtput⟩
    · cases h
  · intro h
    rw [if_pos h.shape, reads_asU64.optional_iff.mpr h.input_tokens, reads_asU64.optional_iff.mpr h.cache_creation,
      reads_asU64.optional_iff.mpr h.cache_read, reads_asU64.optional_iff.mpr h.output_tokens]
    rfl

theorem reads_block : Reads SpellsBlock readContentBlock := by
  intro v text
  unfold readContentBlock
  constructor
  · intro h
    split at h
    · next hshape => exact ⟨hshape, reads_asStr.optional_iff.mp h⟩
    · cases h
  · intro h
    rw [if_pos h.shape]
    exact reads_asStr.optional_iff.mpr h.text_field

theorem reads_nullable_string : Reads (OrNull IsString) (readOption Value.asStr) := reads_asStr.orNull fun _ => nofun

theorem reads_chatMessage : Reads SpellsChatMessage readChatMessage := by
  intro v message
  unfold readChatMessage
  constructor
  · intro h
    split at h
    · next hshape =>
      obtain ⟨content, hcontent, h⟩ := Option.bind_eq_some_iff.mp h
      obtain ⟨refusal, hrefusal, h⟩ := Option.bind_eq_some_iff.mp h
      cases h
      exact ⟨hshape, reads_nullable_string.optional_iff.mp hcontent, reads_nullable_string.optional_iff.mp hrefusal⟩
    · cases h
  · intro h
    rw [if_pos h.shape, reads_nullable_string.optional_iff.mpr h.content_field,
      reads_nullable_string.optional_iff.mpr h.refusal_field]
    rfl

theorem reads_nullable_chatMessage : Reads (OrNull SpellsChatMessage) (readOption readChatMessage) :=
  reads_chatMessage.orNull fun _ h => Bool.false_ne_true h.shape

theorem reads_choice : Reads SpellsChoice readChoice := by
  intro v choice
  unfold readChoice
  constructor
  · intro h
    split at h
    · next hshape =>
      obtain ⟨message, hmessage, h⟩ := Option.bind_eq_some_iff.mp h
      obtain ⟨finish, hfinish, h⟩ := Option.bind_eq_some_iff.mp h
      cases h
      exact ⟨hshape, reads_nullable_chatMessage.optional_iff.mp hmessage,
        reads_nullable_string.optional_iff.mp hfinish⟩
    · cases h
  · intro h
    rw [if_pos h.shape, reads_nullable_chatMessage.optional_iff.mpr h.message_field,
      reads_nullable_string.optional_iff.mpr h.finish_reason]
    rfl

theorem reads_chatUsage : Reads SpellsChatUsage readChatUsage := by
  intro v usage
  unfold readChatUsage
  constructor
  · intro h
    split at h
    · next hshape =>
      obtain ⟨prompt, hprompt, h⟩ := Option.bind_eq_some_iff.mp h
      obtain ⟨completion, hcompletion, h⟩ := Option.bind_eq_some_iff.mp h
      cases h
      exact ⟨hshape, rfl, rfl, reads_asU64.optional_iff.mp hprompt, reads_asU64.optional_iff.mp hcompletion⟩
    · cases h
  · intro h
    obtain ⟨inputTokens, creation, cached, outputTokens⟩ := usage
    obtain ⟨hshape, rfl, rfl, hprompt, hcompletion⟩ := h
    rw [if_pos hshape, reads_asU64.optional_iff.mpr hprompt, reads_asU64.optional_iff.mpr hcompletion]
    rfl

theorem reads_chat : Reads SpellsChat readChat := by
  have husages : Reads (OrNull SpellsChatUsage) (readOption readChatUsage) :=
    reads_chatUsage.orNull fun _ h => Bool.false_ne_true h.shape
  intro v r
  unfold readChat
  constructor
  · intro h
    split at h
    · next hshape =>
      obtain ⟨choices, hchoices, h⟩ := Option.bind_eq_some_iff.mp h
      obtain ⟨usage, husage, h⟩ := Option.bind_eq_some_iff.mp h
      cases h
      exact ⟨hshape, reads_choice.eachItem.optional_iff.mp hchoices, husages.optional_iff.mp husage⟩
    · cases h
  · intro h
    rw [if_pos h.shape, reads_choice.eachItem.optional_iff.mpr h.choices_field, husages.optional_iff.mpr h.usage_field]
    rfl

theorem firstText_eq_some_iff {content : List String} {text : String} :
    firstText content = some text ↔ FirstText content text := by
  unfold firstText FirstText
  rw [List.find?_eq_some_iff_append]
  constructor
  · rintro ⟨hne, before, after, hsplit, hbefore⟩
    obtain ⟨before, rest, rfl, rfl, hrest⟩ := List.map_eq_append_iff.mp hsplit
    obtain ⟨t, after, rfl, rfl, -⟩ := List.map_eq_cons_iff.mp hrest
    refine ⟨before, t, after, rfl, fun b hb => ?_, rfl, by simpa using hne⟩
    simpa using hbefore _ (List.mem_map_of_mem hb)
  · rintro ⟨before, t, after, rfl, hbefore, rfl, hne⟩
    refine ⟨by simpa using hne, before.map trim, after.map trim, by simp, fun b hb => ?_⟩
    obtain ⟨blank, hblank, rfl⟩ := List.mem_map.mp hb
    simp [hbefore blank hblank]

theorem readMessages_text_iff {v : Value} {text : String} :
    (∃ resp, readMessages v = some resp ∧ resp.text = some text) ↔ Provider.anthropic.HasText v text := by
  unfold readMessages
  constructor
  · rintro ⟨resp, h, htext⟩
    split at h
    · next hshape =>
      obtain ⟨content, hcontent, h⟩ := Option.bind_eq_some_iff.mp h
      obtain ⟨usage, husage, h⟩ := Option.bind_eq_some_iff.mp h
      obtain ⟨stop, hstop, h⟩ := Option.bind_eq_some_iff.mp h
      cases h
      exact ⟨content, usage, stop, ⟨hshape, reads_block.eachItem.required_iff.mp hcontent,
        reads_usage.optional_iff.mp husage, reads_nullable_string.optional_iff.mp hstop⟩,
        firstText_eq_some_iff.mp htext⟩
    · cases h
  · rintro ⟨content, usage, stop, h, htext⟩
    refine ⟨⟨firstText content, usage, stop⟩, ?_, firstText_eq_some_iff.mpr htext⟩
    rw [if_pos h.shape, reads_block.eachItem.required_iff.mpr h.content_field,
      reads_usage.optional_iff.mpr h.usage_field, reads_nullable_string.optional_iff.mpr h.stop_reason]
    rfl

theorem intoCompletion_text_iff {texts : Texts} {r : ChatResponse} {text : String} :
    (∃ resp, r.intoCompletion texts = .ok resp ∧ resp.text = some text) ↔
      ∃ choice rest, r.choices = choice :: rest ∧ ChatText choice text := by
  unfold ChatResponse.intoCompletion
  dsimp only
  constructor
  · rintro ⟨resp, h, htext⟩
    split at h
    · cases h
      cases htext
    · next choice rest hchoices =>
      split at h
      · cases h
      · next hfiltered =>
        split at h
        · cases h
        · next hrefused =>
          cases h
          obtain ⟨hcontent, hne⟩ := Option.filter_eq_some_iff.mp htext
          obtain ⟨t, ht, rfl⟩ := Option.map_eq_some_iff.mp hcontent
          refine ⟨choice, rest, hchoices, hfiltered, ?_, ?_⟩
          · intro message refusal hmessage hrefusal
            rw [hmessage, Option.getD_some, hrefusal] at hrefused
            simpa using hrefused
          · cases hmessage : choice.message with
            | none =>
              rw [hmessage] at ht
              cases ht
            | some message =>
              rw [hmessage] at ht
              exact ⟨message, t, rfl, ht, rfl, by simpa using hne⟩
  · rintro ⟨choice, rest, hchoices, hfiltered, hrefused, message, t, hmessage, ht, rfl, hne⟩
    refine ⟨⟨some (trim t), r.usage.getD {}, choice.finishReason⟩, ?_, rfl⟩
    have hrefusal : ¬(message.refusal.any fun r => trim r ≠ "") = true := by
      rw [Option.any_eq_true]
      rintro ⟨refusal, hrefusal, hblank⟩
      exact of_decide_eq_true hblank (hrefused message refusal hmessage hrefusal)
    rw [hchoices]
    dsimp only
    rw [if_neg hfiltered, hmessage, Option.getD_some, if_neg hrefusal, ht]
    simp [hne]

theorem post_eq_ok_iff {texts : Texts} {native : Bool} {α : Type} {api : String} {decode : Value → Option α}
    {reply : HttpReply} {a : α} :
    post texts native api decode reply = .ok a ↔ ∃ v, reply.Carries texts v ∧ decode v = some a := by
  constructor
  · intro h
    cases reply with
    | failed isConnect message => cases h
    | replied status retryAfter body =>
      unfold post at h
      dsimp only at h
      split at h
      · cases h
      · split at h
        · split at h <;> cases h
        · next hstatus =>
          split at h
          · cases h
          · next bytes =>
            split at h
            · next hread =>
              cases h
              obtain ⟨v, hv, hdecode⟩ := Option.bind_eq_some_iff.mp hread
              have hrange : 200 ≤ status ∧ status < 300 := by simpa [isSuccess] using hstatus
              exact ⟨v, ⟨status, retryAfter, bytes, rfl, hrange.1, hrange.2, hv⟩, hdecode⟩
            · cases h
  · rintro ⟨v, ⟨status, retryAfter, bytes, rfl, hlower, hupper, hv⟩, hdecode⟩
    have hsuccess : isSuccess status = true := by simp [isSuccess, hlower, hupper]
    unfold post
    dsimp only
    rw [if_neg (by omega), if_neg (by simp [hsuccess]), hv, Option.bind_some, hdecode]

/-- **A completion has the text that the reply's value has on its wire.** -/
theorem complete_text_iff {texts : Texts} {native : Bool} {provider : Provider} {reply : HttpReply} {text : String} :
    (∃ resp, complete texts native provider reply = .ok resp ∧ resp.text = some text) ↔
      ∃ v, reply.Carries texts v ∧ provider.HasText v text := by
  cases provider with
  | anthropic =>
    constructor
    · rintro ⟨resp, hresp, htext⟩
      obtain ⟨v, hv, hread⟩ := post_eq_ok_iff.mp hresp
      exact ⟨v, hv, readMessages_text_iff.mp ⟨resp, hread, htext⟩⟩
    · rintro ⟨v, hv, htext⟩
      obtain ⟨resp, hread, htext⟩ := readMessages_text_iff.mpr htext
      exact ⟨resp, post_eq_ok_iff.mpr ⟨v, hv, hread⟩, htext⟩
  | openAi =>
    unfold complete
    dsimp only
    constructor
    · rintro ⟨resp, hresp, htext⟩
      obtain ⟨r, hr, hresp⟩ := bind_eq_ok.mp hresp
      obtain ⟨v, hv, hread⟩ := post_eq_ok_iff.mp hr
      obtain ⟨choice, rest, hchoices, hchat⟩ := intoCompletion_text_iff.mp ⟨resp, hresp, htext⟩
      exact ⟨v, hv, r, choice, rest, (reads_chat v r).mp hread, hchoices, hchat⟩
    · rintro ⟨v, hv, r, choice, rest, hr, hchoices, hchat⟩
      obtain ⟨resp, hresp, htext⟩ := intoCompletion_text_iff.mpr ⟨choice, rest, hchoices, hchat⟩
      exact ⟨resp, bind_eq_ok.mpr ⟨r, post_eq_ok_iff.mpr ⟨v, hv, (reads_chat v r).mpr hr⟩, hresp⟩, htext⟩

end Alaya
