import Alaya.Backends.Payload
import Alaya.Lib.Digits
import Alaya.Lib.Recent

/-!
# Conditional writes: `updatePoints`

Every write to an existing point commits only while the point still carries the revision it read,
and stamps a fresh one; the writer then reads back to learn whether it landed (`landed`).
`updatePoints` runs up to `maxWriteAttempts` rounds of read, write and read-back over its points.

A call is modelled as a machine that stops at each of its network calls: a `Phase` says which answer
it waits for, and the functions below take it from one answer to the next.  What happens between two
answers is one step, as it is in the source between two awaits.  Vectors are left out: no function
here reads them.
-/

namespace Alaya

open Json

/-! ### Revision tokens -/

/-- Payload key: the revision token of the last write. -/
def revKey : String := "rev"

/-- Payload key: the last `revLogLen` revision tokens, oldest first. -/
def revLogKey : String := "rev_log"

def revLogLen : ℕ := 8

/-- Rounds a writer retries a lost race before it returns an error. -/
def maxWriteAttempts : ℕ := 8

/-- A client process, named by the random `instance` it drew at its start: two processes with one
instance would be one client here. -/
abbrev Client := UInt64

/-- The token of a client's `n`-th write, `{:016x}-{:x}`.  The counter is a natural number: an
`AtomicU64` would take `2 ^ 64` writes of one process to wrap. -/
def token (client : Client) (n : ℕ) : String :=
  String.ofList ((Nat.toDigits 16 client.toNat).leftpad 16 '0' ++ '-' :: Nat.toDigits 16 n)

/-- The revision log of a payload, as stored. -/
def Payload.revLog (p : Payload) : List Value := ((p.get revLogKey).bind Value.asArray).getD []

/-- Stamp a write with its token, appended to the log that was read. -/
def stamp (mine : String) (write : Payload) (prev : Option Payload) : Payload :=
  let log := ((prev.map Payload.revLog).getD []) ++ [.string mine]
  write.insert revKey (.string mine)
    |>.insert revLogKey (.array (Recent.keepLast revLogLen log))

def revOf (p : Payload) : Option String := (p.get revKey).bind Value.asStr

/-- Matches a point whose revision is `rev`; `none` matches a point with no revision yet. -/
def revCondition : Option String → Condition
  | some r => .matchValue revKey r
  | none => .isEmpty revKey

/-- Whether a conditional write landed, judged from its read-back. -/
inductive Landed where
  | yes
  /-- Lost the race: another write took the revision first. -/
  | no
  /-- More than `revLogLen` writes, or a delete and re-create, since the read. -/
  | unknown
  /-- The point is gone. -/
  | gone
  deriving DecidableEq, Repr

/-- The tokens of the log that are strings. -/
def Payload.revTokens (p : Payload) : List String := p.revLog.filterMap Value.asStr

def reachesBack (readRev : Option String) (log : List String) : Bool :=
  match readRev with
  | some r => r ∈ log
  | none => log.length < revLogLen

/-- Judge whether a write stamped `mine` and conditional on `readRev` landed. -/
def landed (readRev : Option String) (readback : Option Payload) (mine : String) : Landed :=
  match readback with
  | none => .gone
  | some payload =>
    if mine ∈ payload.revTokens then .yes
    else if reachesBack readRev payload.revTokens then .no
    else .unknown

/-! ### The call -/

/-- How a conditional payload write lands. -/
inductive PayloadWrite where
  | merge
  | replace
  deriving DecidableEq, Repr

/-- How a payload write treats a point absent from its first read. -/
inductive Batch where
  | strict
  | bestEffort
  deriving DecidableEq, Repr

inductive Commit where
  | payload (how : PayloadWrite) (batch : Batch)
  | upsert (insert : Payload)
  deriving DecidableEq

/-- Why a write is not known to have landed. -/
inductive Unconfirmed where
  | sendFailed (e : AlayaError)
  | lostTrack (mine : String)
  | lostRaces
  deriving DecidableEq

/-- The reason as the source words it. -/
def Unconfirmed.text : Unconfirmed → String
  | sendFailed e => e.display
  | lostTrack mine => "could not confirm write " ++ mine ++ ": more than " ++ toString revLogLen ++
      " writes or a delete landed before its read-back; it may or may not have applied"
  | lostRaces => "write lost " ++ toString maxWriteAttempts ++ " races in a row; not applied"

/-- What `updatePoints` did to one point. -/
inductive Update where
  | landed (payload : Payload) (created : Bool)
  | skipped
  | absent
  | deleted
  | unconfirmed (why : Unconfirmed)
  deriving DecidableEq

abbrev Outcome := List (PointId × Update)

/-- The arguments of `updatePoints`. -/
structure UpdateCall where
  ids : List PointId
  keys : Option (List String)
  commit : Commit
  modify : Payload → Except AlayaError (Option Payload)

/-- A write built from a read. -/
structure Write where
  id : PointId
  created : Bool
  readRev : Option String
  mine : String
  payload : Payload
  deriving DecidableEq

/-- The payload of a retrieved point: restricted to `keys`, or whole. -/
def restrict (keys : Option (List String)) (p : Payload) : Payload :=
  match keys with
  | none => p
  | some keys => p.only keys

namespace UpdateCall

def readKeys (call : UpdateCall) : Option (List String) :=
  call.keys.map (· ++ [revKey, revLogKey])

def backKeys (call : UpdateCall) : Option (List String) :=
  match call.commit with
  | .payload .. => call.readKeys
  | .upsert _ => some [revKey, revLogKey]

def isStrict (call : UpdateCall) : Bool :=
  match call.commit with
  | .payload _ .strict => true
  | _ => false

/-- The points to update: a repeat is dropped. -/
def pending (call : UpdateCall) : List PointId := call.ids.eraseDups

/-- The request that commits a write. -/
def request (call : UpdateCall) (w : Write) : Request :=
  match call.commit with
  | .payload .merge _ => .setPayload w.payload (revCondition w.readRev)
  | .payload .replace _ => .overwritePayload w.payload (revCondition w.readRev)
  | .upsert _ =>
    if w.created then .upsertInsertOnly w.payload
    else .upsertUpdateOnly w.payload (revCondition w.readRev)

/-- What a round does with one point it read. -/
inductive Decision where
  | write (payload : Payload)
  | settle (update : Update)

def decide (call : UpdateCall) (round : ℕ) : Option Payload → Except AlayaError Decision
  | some prev =>
    match call.modify prev with
    | .error e => .error e
    | .ok none => .ok (.settle .skipped)
    | .ok (some payload) => .ok (.write payload)
  | none =>
    match call.commit with
    | .upsert insert => .ok (.write insert)
    | .payload .. => .ok (.settle (if round = 0 then .absent else .deleted))

/-- The write for a point read as `prev`. -/
def plan (id : PointId) (prev : Option Payload) (mine : String) (payload : Payload) : Write where
  id := id
  created := prev.isNone
  readRev := prev.bind revOf
  mine := mine
  payload := stamp mine payload prev

/-- Build every write of a round before any is sent: the writes, the points settled without one, and
the client's next write number.  An error from `modify` aborts with nothing written. -/
def build (call : UpdateCall) (client : Client) (round : ℕ) :
    ℕ → List (PointId × Option Payload) → ℕ × Except AlayaError (List Write × Outcome)
  | n, [] => (n, .ok ([], []))
  | n, (id, prev) :: rest =>
    match call.decide round prev with
    | .error e => (n, .error e)
    | .ok (.settle update) =>
      let (n', built) := build call client round n rest
      (n', built.map fun (ws, settled) => (ws, (id, update) :: settled))
    | .ok (.write payload) =>
      let (n', built) := build call client round (n + 1) rest
      (n', built.map fun (ws, settled) => (plan id prev (token client n) payload :: ws, settled))

end UpdateCall

/-! ### The machine -/

/-- The answer a call waits for. -/
inductive Phase where
  /-- Retrieving the points of a round; those of `got` are read. -/
  | reading (got : List (PointId × Option Payload)) (left : List PointId)
  /-- Sending the writes of a round; those of `written` were answered 200. -/
  | writing (written left : List Write)
  /-- Reading back; `lost` holds the points that lost their race. -/
  | readingBack (left : List Write) (lost : List PointId)
  | returned (result : Except AlayaError Outcome)
  /-- The caller dropped the call: it takes no further step. -/
  | dropped

/-- How far a call has got. -/
structure Progress where
  round : ℕ
  outcome : Outcome
  phase : Phase

namespace UpdateCall

/-- Start a round on the points still pending, or end the call. -/
def startRound (round : ℕ) (pending : List PointId) (outcome : Outcome) : Progress where
  round := round
  outcome := outcome
  phase :=
    if pending = [] ∨ maxWriteAttempts ≤ round then
      .returned (.ok (outcome ++ pending.map fun id => (id, .unconfirmed .lostRaces)))
    else .reading [] pending

/-- Every point of the round is read: build the writes.  Also the client's next write number. -/
def afterReads (call : UpdateCall) (client : Client) (n : ℕ) (round : ℕ) (outcome : Outcome)
    (got : List (PointId × Option Payload)) : ℕ × Progress :=
  if round = 0 ∧ call.isStrict ∧ got.any fun r => r.2.isNone then
    (n, ⟨round, outcome, .returned (.ok (outcome ++
      got.map fun r => (r.1, if r.2.isNone then .absent else .skipped)))⟩)
  else
    match call.build client round n got with
    | (n', .error e) => (n', ⟨round, outcome, .returned (.error e)⟩)
    | (n', .ok ([], settled)) => (n', ⟨round, outcome ++ settled, .returned (.ok (outcome ++ settled))⟩)
    | (n', .ok (w :: ws, settled)) => (n', ⟨round, outcome ++ settled, .writing [] (w :: ws)⟩)

/-- A write of the round was answered. -/
def afterSend (round : ℕ) (outcome : Outcome) (written left : List Write) : Progress where
  round := round
  outcome := outcome
  phase :=
    match left, written with
    | _ :: _, _ => .writing written left
    | [], [] => .returned (.ok outcome)
    | [], _ :: _ => .readingBack written []

/-- A point of the round was read back as `back`. -/
def afterReadBack (round : ℕ) (outcome : Outcome) (w : Write) (left : List Write)
    (lost : List PointId) (back : Option Payload) : Progress :=
  let (outcome', lost') :=
    match Alaya.landed w.readRev back w.mine with
    | .yes => (outcome ++ [(w.id, .landed (back.getD []) w.created)], lost)
    | .no => (outcome, lost ++ [w.id])
    | .gone => (outcome ++ [(w.id, .deleted)], lost)
    | .unknown => (outcome ++ [(w.id, .unconfirmed (.lostTrack w.mine))], lost)
  match left with
  | [] => startRound (round + 1) lost' outcome'
  | _ :: _ => ⟨round, outcome', .readingBack left lost'⟩

end UpdateCall

theorem nodup_eraseDups {α : Type} [DecidableEq α] (l : List α) : l.eraseDups.Nodup := by
  induction hn : l.length using Nat.strongRecOn generalizing l with
  | _ n ih =>
    cases l with
    | nil => simp
    | cons a l =>
      rw [List.eraseDups_cons, List.nodup_cons]
      refine ⟨by simp, ih _ ?_ _ rfl⟩
      have hle := List.length_filter_le (fun b => !b == a) l
      rw [← hn, List.length_cons]
      omega

/-! ### Tokens are unique -/

theorem token_inj {c d : Client} {m n : ℕ} (h : token c m = token d n) : c = d ∧ m = n := by
  have hlist := String.ofList_injective h
  have hlen : ∀ e : Client, ((Nat.toDigits 16 e.toNat).leftpad 16 '0').length = 16 := by
    intro e
    have hle : (Nat.toDigits 16 e.toNat).length ≤ 16 := by
      rw [Nat.length_toDigits_le_iff (by decide) (by decide)]
      exact e.toNat_lt
    rw [List.length_leftpad]
    omega
  obtain ⟨hinst, htail⟩ := List.append_inj hlist (by rw [hlen, hlen])
  obtain ⟨-, hnum⟩ := List.cons.inj htail
  constructor
  · have hread := congrArg (Digits.readDigits 16) hinst
    rw [Digits.readDigits_leftpad, Digits.readDigits_leftpad,
      Digits.readDigits_toDigits (by decide) (by decide),
      Digits.readDigits_toDigits (by decide) (by decide)] at hread
    exact UInt64.toNat.inj hread
  · have hread := congrArg (Digits.readDigits 16) hnum
    rwa [Digits.readDigits_toDigits (by decide) (by decide),
      Digits.readDigits_toDigits (by decide) (by decide)] at hread

/-! ### What a round builds -/

namespace UpdateCall

variable {call : UpdateCall} {client : Client} {round : ℕ}

theorem decide_some_eq_write {prev payload : Payload}
    (h : call.decide round (some prev) = .ok (.write payload)) :
    call.modify prev = .ok (some payload) := by
  simp only [decide] at h
  split at h
  · cases h
  · cases h
  · next hmod =>
    cases h
    exact hmod

theorem decide_none_eq_write {payload : Payload}
    (h : call.decide round none = .ok (.write payload)) : call.commit = .upsert payload := by
  simp only [decide] at h
  split at h
  · next hcommit =>
    cases h
    exact hcommit
  · cases h

/-- One point of a round: it is settled, or it takes the client's next token. -/
theorem build_cons {n n' : ℕ} {id : PointId} {prev : Option Payload}
    {rest : List (PointId × Option Payload)} {ws : List Write} {settled : Outcome}
    (h : call.build client round n ((id, prev) :: rest) = (n', .ok (ws, settled))) :
    (∃ update settled', call.decide round prev = .ok (.settle update) ∧
      settled = (id, update) :: settled' ∧
      call.build client round n rest = (n', .ok (ws, settled'))) ∨
    ∃ payload ws', call.decide round prev = .ok (.write payload) ∧
      ws = plan id prev (token client n) payload :: ws' ∧
      call.build client round (n + 1) rest = (n', .ok (ws', settled)) := by
  simp only [build] at h
  split at h
  · cases h
  · next update hdec =>
    rcases hb : call.build client round n rest with ⟨m, built⟩
    rw [hb] at h
    cases built with
    | error e => cases h
    | ok ws0 =>
      obtain ⟨rfl, rfl, rfl⟩ : m = n' ∧ ws0.1 = ws ∧ (id, update) :: ws0.2 = settled := by
        simpa [Except.map] using h
      exact .inl ⟨update, ws0.2, hdec, rfl, rfl⟩
  · next payload hdec =>
    rcases hb : call.build client round (n + 1) rest with ⟨m, built⟩
    rw [hb] at h
    cases built with
    | error e => cases h
    | ok ws0 =>
      obtain ⟨rfl, rfl, rfl⟩ : m = n' ∧
          plan id prev (token client n) payload :: ws0.1 = ws ∧ ws0.2 = settled := by
        simpa [Except.map] using h
      exact .inr ⟨payload, ws0.1, hdec, rfl, rfl⟩

theorem le_build (n : ℕ) (got : List (PointId × Option Payload)) :
    n ≤ (call.build client round n got).1 := by
  induction got generalizing n with
  | nil => exact le_rfl
  | cons r rest ih =>
    obtain ⟨id, prev⟩ := r
    simp only [build]
    split
    · exact le_rfl
    · exact ih n
    · exact (Nat.le_succ n).trans (ih (n + 1))

/-- The writes of a round carry tokens the client had not used, each its own. -/
theorem build_tokens {n n' : ℕ} {got : List (PointId × Option Payload)} {ws : List Write}
    {settled : Outcome} (h : call.build client round n got = (n', .ok (ws, settled))) :
    (∀ w ∈ ws, ∃ m, n ≤ m ∧ m < n' ∧ w.mine = token client m) ∧
      (ws.map Write.mine).Nodup := by
  induction got generalizing n ws settled with
  | nil =>
    obtain ⟨-, rfl, -⟩ : n = n' ∧ [] = ws ∧ [] = settled := by simpa [build] using h
    simp
  | cons r rest ih =>
    obtain ⟨id, prev⟩ := r
    rcases build_cons h with ⟨update, settled', -, rfl, hrest⟩ | ⟨payload, ws', -, rfl, hrest⟩
    · exact ih hrest
    · obtain ⟨htok, hnodup⟩ := ih hrest
      have hlt : n + 1 ≤ n' := by
        have hle : n + 1 ≤ (call.build client round (n + 1) rest).1 := le_build _ _
        rwa [hrest] at hle
      refine ⟨?_, ?_⟩
      · intro w hw
        rcases List.mem_cons.mp hw with rfl | hw
        · exact ⟨n, le_rfl, hlt, rfl⟩
        · obtain ⟨m, hle, hm, htok⟩ := htok w hw
          exact ⟨m, by omega, hm, htok⟩
      · rw [List.map_cons, List.nodup_cons]
        refine ⟨?_, hnodup⟩
        intro hmem
        obtain ⟨w, hw, hmine⟩ := List.mem_map.mp hmem
        obtain ⟨m, hle, -, htok⟩ := htok w hw
        have := (token_inj (htok.symm.trans hmine)).2
        omega

/-- Each write of a round was built from what the round read of its point. -/
theorem build_plan {n n' : ℕ} {got : List (PointId × Option Payload)} {ws : List Write}
    {settled : Outcome} (h : call.build client round n got = (n', .ok (ws, settled))) :
    ∀ w ∈ ws, ∃ prev payload, (w.id, prev) ∈ got ∧ call.decide round prev = .ok (.write payload) ∧
      w = plan w.id prev w.mine payload := by
  induction got generalizing n ws settled with
  | nil =>
    obtain ⟨-, rfl, -⟩ : n = n' ∧ [] = ws ∧ [] = settled := by simpa [build] using h
    simp
  | cons r rest ih =>
    obtain ⟨id, prev⟩ := r
    intro w hw
    rcases build_cons h with ⟨update, settled', -, rfl, hrest⟩ | ⟨payload, ws', hdec, rfl, hrest⟩
    · obtain ⟨prev', payload, hmem, hrest'⟩ := ih hrest w hw
      exact ⟨prev', payload, List.mem_cons_of_mem _ hmem, hrest'⟩
    · rcases List.mem_cons.mp hw with rfl | hw
      · exact ⟨prev, payload, List.mem_cons_self, hdec, rfl⟩
      · obtain ⟨prev', payload, hmem, hrest'⟩ := ih hrest w hw
        exact ⟨prev', payload, List.mem_cons_of_mem _ hmem, hrest'⟩

/-- The points of a round are settled or written, each once. -/
theorem build_ids {n n' : ℕ} {got : List (PointId × Option Payload)} {ws : List Write} {settled : Outcome}
    (h : call.build client round n got = (n', .ok (ws, settled))) :
    (settled.map Prod.fst ++ ws.map Write.id).Perm (got.map Prod.fst) := by
  induction got generalizing n ws settled with
  | nil =>
    obtain ⟨-, rfl, rfl⟩ : n = n' ∧ [] = ws ∧ [] = settled := by simpa [build] using h
    exact .refl _
  | cons r rest ih =>
    obtain ⟨id, prev⟩ := r
    rcases build_cons h with ⟨update, settled', -, rfl, hrest⟩ | ⟨payload, ws', -, rfl, hrest⟩
    · exact (ih hrest).cons id
    · exact (List.perm_middle.trans ((ih hrest).cons id))

/-- A round settles a point without a write only as skipped, absent or deleted. -/
theorem build_settled {n n' : ℕ} {got : List (PointId × Option Payload)} {ws : List Write} {settled : Outcome}
    (h : call.build client round n got = (n', .ok (ws, settled))) :
    ∀ x ∈ settled, x.2 = .skipped ∨ x.2 = .absent ∨ x.2 = .deleted := by
  induction got generalizing n ws settled with
  | nil =>
    obtain ⟨-, -, rfl⟩ : n = n' ∧ [] = ws ∧ [] = settled := by simpa [build] using h
    simp
  | cons r rest ih =>
    obtain ⟨id, prev⟩ := r
    rcases build_cons h with ⟨update, settled', hdec, rfl, hrest⟩ | ⟨payload, ws', -, rfl, hrest⟩
    · intro x hx
      rcases List.mem_cons.mp hx with rfl | hx
      · cases prev with
        | some prev =>
          simp only [decide] at hdec
          split at hdec <;> cases hdec
          exact .inl rfl
        | none =>
          simp only [decide] at hdec
          split at hdec
          · cases hdec
          · split_ifs at hdec <;> cases hdec
            · exact .inr (.inl rfl)
            · exact .inr (.inr rfl)
      · exact ih hrest x hx
    · exact ih hrest

/-- How a round goes on once its points are read. -/
theorem afterReads_cases {n n' : ℕ} {outcome : Outcome} {got : List (PointId × Option Payload)}
    {progress : Progress}
    (h : call.afterReads client n round outcome got = (n', progress)) :
    (n' = n ∧ progress = ⟨round, outcome, .returned (.ok (outcome ++
      got.map fun r => (r.1, if r.2.isNone then .absent else .skipped)))⟩) ∨
    (∃ e, call.build client round n got = (n', .error e) ∧
      progress = ⟨round, outcome, .returned (.error e)⟩) ∨
    (∃ settled, call.build client round n got = (n', .ok ([], settled)) ∧
      progress = ⟨round, outcome ++ settled, .returned (.ok (outcome ++ settled))⟩) ∨
    ∃ w ws settled, call.build client round n got = (n', .ok (w :: ws, settled)) ∧
      progress = ⟨round, outcome ++ settled, .writing [] (w :: ws)⟩ := by
  unfold afterReads at h
  split_ifs at h
  · obtain ⟨rfl, rfl⟩ := Prod.mk.inj h
    exact .inl ⟨rfl, rfl⟩
  · rcases hb : call.build client round n got with ⟨m, built⟩
    rw [hb] at h
    rcases built with e | ⟨_ | ⟨w, ws⟩, settled⟩ <;> obtain ⟨rfl, rfl⟩ := Prod.mk.inj h
    · exact .inr (.inl ⟨e, rfl, rfl⟩)
    · exact .inr (.inr (.inl ⟨settled, rfl, rfl⟩))
    · exact .inr (.inr (.inr ⟨w, ws, settled, rfl, rfl⟩))

/-- What a point read back settles: its outcome, or one more point to write again. -/
def readBackOutcome (outcome : Outcome) (w : Write) (lost : List PointId) (back : Option Payload) :
    Outcome × List PointId :=
  match Alaya.landed w.readRev back w.mine with
  | .yes => (outcome ++ [(w.id, .landed (back.getD []) w.created)], lost)
  | .no => (outcome, lost ++ [w.id])
  | .gone => (outcome ++ [(w.id, .deleted)], lost)
  | .unknown => (outcome ++ [(w.id, .unconfirmed (.lostTrack w.mine))], lost)

/-- How a round goes on once a point is read back. -/
theorem afterReadBack_of_landed {outcome outcome' : Outcome} {w : Write} {lost lost' : List PointId}
    {back : Option Payload} (round : ℕ) (left : List Write)
    (h : readBackOutcome outcome w lost back = (outcome', lost')) :
    (left = [] → afterReadBack round outcome w left lost back =
      startRound (round + 1) lost' outcome') ∧
    (left ≠ [] → afterReadBack round outcome w left lost back =
      ⟨round, outcome', .readingBack left lost'⟩) := by
  unfold readBackOutcome at h
  unfold afterReadBack
  rw [h]
  cases left <;> simp

end UpdateCall

/-! ### What a stamp leaves -/

@[simp] theorem get_rev_stamp (mine : String) (write : Payload) (prev : Option Payload) :
    (stamp mine write prev).get revKey = some (.string mine) := by
  simp [stamp, Object.get_insert, revKey, revLogKey]

theorem get_stamp_of_ne {k : String} (h : k ≠ revKey) (h' : k ≠ revLogKey) (mine : String)
    (write : Payload) (prev : Option Payload) : (stamp mine write prev).get k = write.get k := by
  simp [stamp, Object.get_insert, h, h']

theorem revLog_stamp (mine : String) (write : Payload) (prev : Option Payload) :
    (stamp mine write prev).revLog =
      Recent.keepLast revLogLen ((prev.map Payload.revLog).getD [] ++ [.string mine]) := by
  simp [stamp, Payload.revLog]

theorem revOf_eq_some {p : Payload} {r : String} :
    revOf p = some r ↔ p.get revKey = some (.string r) := by
  simp [revOf, Option.bind_eq_some_iff, Value.asStr_eq_some]

end Alaya
