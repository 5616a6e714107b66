import Alaya.Backends.UpdatePoints
import Alaya.Lib.Run
import Mathlib.Data.List.Perm.Subperm

/-!
# One call to `updatePoints`, whatever it is answered

A call exchanges reads, writes and read-backs with the collection until it returns.  The other writers
are in the answers: any point may be found in any state, and any request may fail.

`Tracked` says what the exchanges so far have to do with where the call stands.  From it: a call ends,
returns one outcome for each of its points, sends at most one write for a point in a round and a second
one only after the first lost its race, and a strict call that misses a point writes nothing.
-/

namespace Alaya

open Labelled

/-- A request of a call, and its answer. -/
inductive Exchange where
  | read (round : ℕ) (id : PointId) (found : Option Payload)
  | sent (round : ℕ) (write : Write) (answer : Except AlayaError Unit)
  | readBack (write : Write) (found : Option Payload)
  /-- A read or a read-back failed. -/
  | failed (e : AlayaError)

namespace UpdateCall

/-- One exchange.  The client's other calls draw from the same write numbers: a round takes its tokens from
where the counter then stands. -/
inductive Step (call : UpdateCall) (client : Client) : Progress → Exchange → Progress → Prop
  | read {round : ℕ} {outcome : Outcome} {got : List (PointId × Option Payload)} {id id' : PointId}
      {left : List PointId} (found : Option Payload) :
      Step call client ⟨round, outcome, .reading got (id :: id' :: left)⟩ (.read round id found)
        ⟨round, outcome, .reading (got ++ [(id, found)]) (id' :: left)⟩
  | lastRead (n : ℕ) {round : ℕ} {outcome : Outcome} {got : List (PointId × Option Payload)} {id : PointId}
      (found : Option Payload) :
      Step call client ⟨round, outcome, .reading got [id]⟩ (.read round id found)
        (call.afterReads client n round outcome (got ++ [(id, found)])).2
  | readFails {round : ℕ} {outcome : Outcome} {got : List (PointId × Option Payload)} {left : List PointId}
      (e : AlayaError) :
      Step call client ⟨round, outcome, .reading got left⟩ (.failed e) ⟨round, outcome, .returned (.error e)⟩
  | sent {round : ℕ} {outcome : Outcome} {written left : List Write} {write : Write} :
      Step call client ⟨round, outcome, .writing written (write :: left)⟩ (.sent round write (.ok ()))
        (afterSend round outcome (written ++ [write]) left)
  | sendFails {round : ℕ} {outcome : Outcome} {written left : List Write} {write : Write} (e : AlayaError) :
      Step call client ⟨round, outcome, .writing written (write :: left)⟩ (.sent round write (.error e))
        (afterSend round (outcome ++ [(write.id, .unconfirmed (.sendFailed e))]) written left)
  | readBack {round : ℕ} {outcome : Outcome} {left : List Write} {write : Write} {lost : List PointId}
      (found : Option Payload) :
      Step call client ⟨round, outcome, .readingBack (write :: left) lost⟩ (.readBack write found)
        (afterReadBack round outcome write left lost found)
  | readBackFails {round : ℕ} {outcome : Outcome} {left : List Write} {lost : List PointId} (e : AlayaError) :
      Step call client ⟨round, outcome, .readingBack left lost⟩ (.failed e) ⟨round, outcome, .returned (.error e)⟩

def start (call : UpdateCall) : Progress := startRound 0 call.pending []

end UpdateCall

/-! ### Where a call stands -/

namespace Progress

/-- The points still to be settled. -/
def openIds (p : Progress) : List PointId :=
  match p.phase with
  | .reading got left => got.map Prod.fst ++ left
  | .writing written left => (written ++ left).map Write.id
  | .readingBack left lost => left.map Write.id ++ lost
  | _ => []

/-- The points settled and still to be settled. -/
def accounted (p : Progress) : List PointId :=
  match p.phase with
  | .returned (.ok outcome) => outcome.map Prod.fst
  | _ => p.outcome.map Prod.fst ++ p.openIds

/-- The points the round has read. -/
def got (p : Progress) : List (PointId × Option Payload) :=
  match p.phase with
  | .reading got _ => got
  | _ => []

/-- The writes of the round still to be sent. -/
def unsent (p : Progress) : List Write :=
  match p.phase with
  | .writing _ left => left
  | _ => []

/-- The writes of the round that were answered and are not read back. -/
def awaiting (p : Progress) : List Write :=
  match p.phase with
  | .writing written _ => written
  | .readingBack left _ => left
  | _ => []

def Reading (p : Progress) : Prop := ∃ got left, p.phase = .reading got left

def Returned (p : Progress) : Prop := ∃ result, p.phase = .returned result

/-- A call that has not returned has a request to make, in one of its rounds. -/
def Live (p : Progress) : Prop :=
  match p.phase with
  | .reading _ left => left ≠ [] ∧ p.round < maxWriteAttempts
  | .writing _ left => left ≠ [] ∧ p.round < maxWriteAttempts
  | .readingBack left _ => left ≠ [] ∧ p.round < maxWriteAttempts
  | .returned _ => True
  | .dropped => False

/-- The exchanges the round still takes, at most. -/
def inRound (p : Progress) : ℕ :=
  match p.phase with
  | .reading got left => left.length + 2 * (got.length + left.length)
  | .writing written left => left.length + (written.length + left.length)
  | .readingBack left _ => left.length
  | _ => 0

/-- The exchanges the call still takes, at most, of `n` points. -/
def remaining (n : ℕ) (p : Progress) : ℕ :=
  match p.phase with
  | .returned _ => 0
  | _ => 3 * n * (maxWriteAttempts - 1 - p.round) + p.inRound

section Phases

variable (round : ℕ) (outcome : Outcome) (got : List (PointId × Option Payload)) (ids : List PointId)
  (written left : List Write)

@[simp] theorem accounted_reading : (⟨round, outcome, .reading got ids⟩ : Progress).accounted =
    outcome.map Prod.fst ++ (got.map Prod.fst ++ ids) := rfl
@[simp] theorem accounted_writing : (⟨round, outcome, .writing written left⟩ : Progress).accounted =
    outcome.map Prod.fst ++ (written ++ left).map Write.id := rfl
@[simp] theorem accounted_readingBack : (⟨round, outcome, .readingBack left ids⟩ : Progress).accounted =
    outcome.map Prod.fst ++ (left.map Write.id ++ ids) := rfl

@[simp] theorem openIds_reading :
    (⟨round, outcome, .reading got ids⟩ : Progress).openIds = got.map Prod.fst ++ ids := rfl
@[simp] theorem openIds_writing :
    (⟨round, outcome, .writing written left⟩ : Progress).openIds = (written ++ left).map Write.id := rfl
@[simp] theorem openIds_readingBack :
    (⟨round, outcome, .readingBack left ids⟩ : Progress).openIds = left.map Write.id ++ ids := rfl
@[simp] theorem openIds_returned (result : Except AlayaError Outcome) :
    (⟨round, outcome, .returned result⟩ : Progress).openIds = [] := rfl

@[simp] theorem got_reading : (⟨round, outcome, .reading got ids⟩ : Progress).got = got := rfl
@[simp] theorem got_writing : (⟨round, outcome, .writing written left⟩ : Progress).got = [] := rfl
@[simp] theorem got_readingBack : (⟨round, outcome, .readingBack left ids⟩ : Progress).got = [] := rfl
@[simp] theorem got_returned (result : Except AlayaError Outcome) :
    (⟨round, outcome, .returned result⟩ : Progress).got = [] := rfl

@[simp] theorem unsent_reading : (⟨round, outcome, .reading got ids⟩ : Progress).unsent = [] := rfl
@[simp] theorem unsent_writing : (⟨round, outcome, .writing written left⟩ : Progress).unsent = left := rfl
@[simp] theorem unsent_readingBack : (⟨round, outcome, .readingBack left ids⟩ : Progress).unsent = [] := rfl
@[simp] theorem unsent_returned (result : Except AlayaError Outcome) :
    (⟨round, outcome, .returned result⟩ : Progress).unsent = [] := rfl

@[simp] theorem awaiting_reading : (⟨round, outcome, .reading got ids⟩ : Progress).awaiting = [] := rfl
@[simp] theorem awaiting_writing : (⟨round, outcome, .writing written left⟩ : Progress).awaiting = written := rfl
@[simp] theorem awaiting_readingBack : (⟨round, outcome, .readingBack left ids⟩ : Progress).awaiting = left := rfl
@[simp] theorem awaiting_returned (result : Except AlayaError Outcome) :
    (⟨round, outcome, .returned result⟩ : Progress).awaiting = [] := rfl

end Phases

end Progress

namespace UpdateCall

variable {call : UpdateCall} {client : Client} {p p' : Progress} {e : Exchange}

/-! ### After each answer -/

section StartRound

variable (round : ℕ) (ids : List PointId) (outcome : Outcome)

@[simp] theorem accounted_startRound :
    (startRound round ids outcome).accounted = outcome.map Prod.fst ++ ids := by
  unfold startRound Progress.accounted
  split_ifs <;> simp [Progress.openIds, Function.comp_def]

theorem openIds_startRound_subset : (startRound round ids outcome).openIds ⊆ ids := by
  unfold startRound Progress.openIds
  split_ifs <;> simp

@[simp] theorem got_startRound : (startRound round ids outcome).got = [] := by
  unfold startRound Progress.got
  split_ifs <;> rfl

@[simp] theorem unsent_startRound : (startRound round ids outcome).unsent = [] := by
  unfold startRound Progress.unsent
  split_ifs <;> rfl

@[simp] theorem awaiting_startRound : (startRound round ids outcome).awaiting = [] := by
  unfold startRound Progress.awaiting
  split_ifs <;> rfl

theorem live_startRound : (startRound round ids outcome).Live := by
  unfold startRound Progress.Live
  split_ifs with h
  · trivial
  · exact ⟨fun hnil => h (.inl hnil), not_le.mp fun hle => h (.inr hle)⟩

end StartRound

section AfterSend

variable (round : ℕ) (outcome : Outcome) (written left : List Write)

@[simp] theorem accounted_afterSend : (afterSend round outcome written left).accounted =
    outcome.map Prod.fst ++ (written ++ left).map Write.id := by
  cases left <;> cases written <;> simp [afterSend, Progress.accounted, Progress.openIds]

@[simp] theorem openIds_afterSend :
    (afterSend round outcome written left).openIds = (written ++ left).map Write.id := by
  cases left <;> cases written <;> simp [afterSend, Progress.openIds]

@[simp] theorem got_afterSend : (afterSend round outcome written left).got = [] := by
  cases left <;> cases written <;> rfl

@[simp] theorem unsent_afterSend : (afterSend round outcome written left).unsent = left := by
  cases left <;> cases written <;> rfl

@[simp] theorem awaiting_afterSend : (afterSend round outcome written left).awaiting = written := by
  cases left <;> cases written <;> rfl

theorem live_afterSend (h : round < maxWriteAttempts) : (afterSend round outcome written left).Live := by
  cases left <;> cases written <;> simp [afterSend, Progress.Live, h]

@[simp] theorem not_reading_afterSend : ¬ (afterSend round outcome written left).Reading := by
  cases left <;> cases written <;> simp [afterSend, Progress.Reading]

end AfterSend

/-- What a read-back settles: its point, or nothing where the write lost its race. -/
theorem afterReadBack_cases (round : ℕ) (outcome : Outcome) (w : Write) (left : List Write)
    (lost : List PointId) (found : Option Payload) :
    ∃ outcome' lost', ((outcome' = outcome ∧ lost' = lost ++ [w.id] ∧ Alaya.landed w.readRev found w.mine = .no) ∨
        (∃ update, outcome' = outcome ++ [(w.id, update)]) ∧ lost' = lost) ∧
      (left = [] → afterReadBack round outcome w left lost found = startRound (round + 1) lost' outcome') ∧
      (left ≠ [] → afterReadBack round outcome w left lost found = ⟨round, outcome', .readingBack left lost'⟩) := by
  obtain ⟨outcome', lost', hmatch⟩ : ∃ outcome' lost', readBackOutcome outcome w lost found = (outcome', lost') :=
    ⟨_, _, rfl⟩
  refine ⟨outcome', lost', ?_, afterReadBack_of_landed round left hmatch⟩
  unfold readBackOutcome at hmatch
  cases h : Alaya.landed w.readRev found w.mine <;> rw [h] at hmatch <;> obtain ⟨rfl, rfl⟩ := Prod.mk.inj hmatch
  case no => exact .inl ⟨rfl, rfl, rfl⟩
  all_goals exact .inr ⟨⟨_, rfl⟩, rfl⟩

/-! ### Every point once -/

/-- Unless the call failed, its points are settled or open, each once. -/
structure Accounts (call : UpdateCall) (p : Progress) : Prop where
  perm : (∀ e, p.phase ≠ .returned (.error e)) → p.accounted.Perm call.pending
  live : p.Live

theorem accounts_start (call : UpdateCall) : Accounts call call.start where
  perm _ := by simp [start]
  live := live_startRound ..

theorem Accounts.afterReads {n n' round : ℕ} {outcome : Outcome} {got : List (PointId × Option Payload)}
    (hperm : (outcome.map Prod.fst ++ got.map Prod.fst).Perm call.pending) (hround : round < maxWriteAttempts)
    (h : call.afterReads client n round outcome got = (n', p')) : Accounts call p' := by
  rcases afterReads_cases h with ⟨-, rfl⟩ | ⟨err, hb, rfl⟩ | ⟨settled, hb, rfl⟩ | ⟨w, ws, settled, hb, rfl⟩
  · exact ⟨fun _ => by simpa [Progress.accounted, Function.comp_def] using hperm, trivial⟩
  · exact ⟨fun hne => absurd rfl (hne err), trivial⟩
  · have hids := build_ids hb
    simp only [List.map_nil, List.append_nil] at hids
    refine ⟨fun _ => ?_, trivial⟩
    simpa [Progress.accounted] using (hids.append_left _).trans hperm
  · have hids := build_ids hb
    refine ⟨fun _ => ?_, ⟨List.cons_ne_nil _ _, hround⟩⟩
    simpa [Progress.accounted, Progress.openIds, List.append_assoc] using (hids.append_left _).trans hperm

/-- One step keeps the account. -/
theorem Accounts.step (h : Accounts call p) (hstep : Step call client p e p') : Accounts call p' := by
  obtain ⟨hperm, hlive⟩ := h
  cases hstep with
  | read found =>
    refine ⟨fun _ => ?_, ⟨List.cons_ne_nil _ _, hlive.2⟩⟩
    simpa using hperm nofun
  | @lastRead n round outcome got id found =>
    rcases hafter : call.afterReads client n round outcome (got ++ [(id, found)]) with ⟨n', next⟩
    refine Accounts.afterReads ?_ hlive.2 hafter
    simpa using hperm nofun
  | readFails err => exact ⟨fun hne => absurd rfl (hne err), trivial⟩
  | sent =>
    refine ⟨fun _ => ?_, live_afterSend _ _ _ _ hlive.2⟩
    simpa using hperm nofun
  | sendFails err =>
    refine ⟨fun _ => ?_, live_afterSend _ _ _ _ hlive.2⟩
    refine List.Perm.trans ?_ (hperm nofun)
    simp only [accounted_afterSend, Progress.accounted_writing, List.map_append, List.map_cons, List.map_nil,
      List.append_assoc, List.cons_append, List.nil_append]
    exact List.Perm.append_left _ (List.perm_middle.symm)
  | @readBack round outcome left write lost found =>
    obtain ⟨outcome', lost', hsettled, hlast, hmore⟩ := afterReadBack_cases round outcome write left lost found
    have hids : (outcome'.map Prod.fst ++ (left.map Write.id ++ lost')).Perm call.pending := by
      refine List.Perm.trans ?_ (hperm nofun)
      rw [Progress.accounted_readingBack, List.map_cons]
      rcases hsettled with ⟨rfl, rfl, -⟩ | ⟨⟨update, rfl⟩, rfl⟩
      · refine List.Perm.append_left _ ?_
        rw [← List.append_assoc]
        exact List.perm_append_singleton _ _
      · simp
    by_cases hleft : left = []
    · rw [hlast hleft]
      refine ⟨fun _ => ?_, live_startRound ..⟩
      simpa [hleft] using hids
    · rw [hmore hleft]
      exact ⟨fun _ => hids, ⟨hleft, hlive.2⟩⟩
  | readBackFails err => exact ⟨fun hne => absurd rfl (hne err), trivial⟩

/-! ### What was sent -/

/-- A write of a round that was built from what the round read of its point. -/
def Built (call : UpdateCall) (tr : List Exchange) (round : ℕ) (w : Write) : Prop :=
  ∃ found payload, .read round w.id found ∈ tr ∧ call.decide round found = .ok (.write payload) ∧
    w = plan w.id found w.mine payload

/-- The rounds in which a write was sent for a point. -/
def sendRounds (id : PointId) (tr : List Exchange) : List ℕ :=
  tr.filterMap fun
    | .sent round w _ => if w.id = id then some round else none
    | _ => none

/-- The reads of a round in progress are those of the trace, and every write was built from one. -/
structure Traced (call : UpdateCall) (tr : List Exchange) (p : Progress) : Prop where
  got : ∀ x ∈ p.got, .read p.round x.1 x.2 ∈ tr
  reads : ∀ r id found, .read r id found ∈ tr →
    r ≤ p.round ∧ (r = p.round → p.Reading → (id, found) ∈ p.got)
  unsent : ∀ w ∈ p.unsent, Built call tr p.round w
  sends : ∀ r w answer, .sent r w answer ∈ tr → Built call tr r w ∧ r < maxWriteAttempts ∧
    r ≤ p.round ∧ (r = p.round → ¬ p.Reading ∧ w.id ∉ p.unsent.map Write.id)
  once : ∀ id, (sendRounds id tr).Nodup

theorem Built.mono {tr : List Exchange} {round : ℕ} {w : Write} (h : Built call tr round w) (e : Exchange) :
    Built call (tr ++ [e]) round w := by
  obtain ⟨found, payload, hread, hrest⟩ := h
  exact ⟨found, payload, List.mem_append_left _ hread, hrest⟩

theorem mem_sendRounds {id : PointId} {tr : List Exchange} {r : ℕ} :
    r ∈ sendRounds id tr ↔ ∃ w answer, .sent r w answer ∈ tr ∧ w.id = id := by
  simp only [sendRounds, List.mem_filterMap]
  constructor
  · rintro ⟨e, he, h⟩
    cases e <;> simp only [reduceCtorEq] at h
    rename_i round w answer
    split_ifs at h with hid
    obtain rfl := Option.some.inj h
    exact ⟨w, answer, he, hid⟩
  · rintro ⟨w, answer, he, hid⟩
    exact ⟨_, he, if_pos hid⟩

/-- An exchange that sends nothing. -/
theorem sendRounds_append {tr : List Exchange} (he : ∀ r w answer, e ≠ .sent r w answer) (id : PointId) :
    sendRounds id (tr ++ [e]) = sendRounds id tr := by
  cases e <;> simp_all [sendRounds]

theorem traced_start (call : UpdateCall) : Traced call [] call.start where
  got := by simp [start]
  reads := by simp
  unsent := by simp [start]
  sends := by simp
  once := by simp [sendRounds]

@[simp] theorem reading_reading (round : ℕ) (outcome : Outcome) (got : List (PointId × Option Payload))
    (left : List PointId) : (⟨round, outcome, .reading got left⟩ : Progress).Reading := ⟨_, _, rfl⟩

@[simp] theorem not_reading_writing (round : ℕ) (outcome : Outcome) (written left : List Write) :
    ¬ (⟨round, outcome, .writing written left⟩ : Progress).Reading := by
  rintro ⟨_, _, h⟩
  cases h

@[simp] theorem not_reading_readingBack (round : ℕ) (outcome : Outcome) (left : List Write)
    (lost : List PointId) : ¬ (⟨round, outcome, .readingBack left lost⟩ : Progress).Reading := by
  rintro ⟨_, _, h⟩
  cases h

@[simp] theorem not_reading_returned (round : ℕ) (outcome : Outcome) (result : Except AlayaError Outcome) :
    ¬ (⟨round, outcome, .returned result⟩ : Progress).Reading := by
  rintro ⟨_, _, h⟩
  cases h

@[simp] theorem round_startRound (round : ℕ) (ids : List PointId) (outcome : Outcome) :
    (startRound round ids outcome).round = round := rfl

@[simp] theorem round_afterSend (round : ℕ) (outcome : Outcome) (written left : List Write) :
    (afterSend round outcome written left).round = round := rfl

/-- What has to be seen of an exchange for the trace to keep its account. -/
theorem Traced.next {tr : List Exchange} (h : Traced call tr p) (hround : p.round ≤ p'.round)
    (hgot : ∀ x ∈ p'.got, .read p'.round x.1 x.2 ∈ tr ++ [e])
    (hreads : p'.round = p.round → p'.Reading → p.Reading ∧ p.got ⊆ p'.got)
    (hread : ∀ r id found, e = .read r id found →
      r = p.round ∧ (p'.round = p.round → p'.Reading → (id, found) ∈ p'.got))
    (hunsent : ∀ w ∈ p'.unsent, Built call (tr ++ [e]) p'.round w)
    (hsends : p'.round = p.round → ¬ p.Reading →
      ¬ p'.Reading ∧ p'.unsent.map Write.id ⊆ p.unsent.map Write.id)
    (hsent : ∀ r w answer, e = .sent r w answer → r = p.round ∧ p'.round = p.round ∧ r < maxWriteAttempts ∧
      w ∈ p.unsent ∧ ¬ p'.Reading ∧ w.id ∉ p'.unsent.map Write.id) : Traced call (tr ++ [e]) p' where
  got := hgot
  reads r id found hmem := by
    rcases List.mem_append.mp hmem with hmem | hmem
    · obtain ⟨hle, hin⟩ := h.reads r id found hmem
      refine ⟨hle.trans hround, fun hr hreading => ?_⟩
      have hsame : p'.round = p.round := le_antisymm (hr ▸ hle) hround
      obtain ⟨hreading', hsub⟩ := hreads hsame hreading
      exact hsub (hin (hr.trans hsame) hreading')
    · obtain ⟨hr, hin⟩ := hread r id found (List.mem_singleton.mp hmem).symm
      exact ⟨hr ▸ hround, fun hr' hreading => hin (hr' ▸ hr) hreading⟩
  unsent := hunsent
  sends r w answer hmem := by
    rcases List.mem_append.mp hmem with hmem | hmem
    · obtain ⟨hbuilt, hlt, hle, hnot⟩ := h.sends r w answer hmem
      refine ⟨hbuilt.mono e, hlt, hle.trans hround, fun hr => ?_⟩
      have hsame : p'.round = p.round := le_antisymm (hr ▸ hle) hround
      obtain ⟨hreading, hid⟩ := hnot (hr.trans hsame)
      obtain ⟨hreading', hsub⟩ := hsends hsame hreading
      exact ⟨hreading', fun hin => hid (hsub hin)⟩
    · obtain ⟨hr, hsame, hlt, hw, hreading, hid⟩ := hsent r w answer (List.mem_singleton.mp hmem).symm
      exact ⟨hr ▸ (h.unsent w hw).mono e, hlt, (hr.trans hsame.symm).le, fun _ => ⟨hreading, hid⟩⟩
  once id := by
    by_cases he : ∃ r w answer, e = .sent r w answer
    · obtain ⟨r, w, answer, rfl⟩ := he
      obtain ⟨hr, -, -, hw, -, -⟩ := hsent r w answer rfl
      have happend : sendRounds id (tr ++ [.sent r w answer]) =
          sendRounds id tr ++ if w.id = id then [r] else [] := by
        by_cases hid : w.id = id <;> simp [sendRounds, hid]
      rw [happend]
      split_ifs with hid
      · -- A write of this round for the point would no longer be unsent.
        refine List.nodup_append.mpr ⟨h.once id, by simp, ?_⟩
        rintro r' hr' _ hmem rfl
        obtain rfl := List.mem_singleton.mp hmem
        obtain ⟨w', answer', hsent', hid'⟩ := mem_sendRounds.mp hr'
        refine ((h.sends _ _ _ hsent').2.2.2 hr).2 ?_
        rw [hid', ← hid]
        exact List.mem_map_of_mem hw
      · rw [List.append_nil]
        exact h.once id
    · rw [sendRounds_append fun r w answer hsend => he ⟨r, w, answer, hsend⟩]
      exact h.once id

/-- Writes of a round have different points. -/
theorem Accounts.nodup (h : Accounts call p) (hp : ∀ e, p.phase ≠ .returned (.error e)) :
    p.accounted.Nodup :=
  (h.perm hp).nodup_iff.mpr (nodup_eraseDups _)

/-- The write that is answered is for none of the other points of the round. -/
theorem Accounts.disjoint {round : ℕ} {outcome : Outcome} {written left : List Write} {write : Write}
    (h : Accounts call ⟨round, outcome, .writing written (write :: left)⟩) :
    write.id ∉ written.map Write.id ∧ write.id ∉ left.map Write.id := by
  have hnodup := h.nodup nofun
  rw [Progress.accounted_writing, List.map_append, List.map_cons] at hnodup
  obtain ⟨-, htail, hdisj⟩ := List.nodup_append.mp (List.nodup_append.mp hnodup).2.1
  exact ⟨fun hmem => hdisj _ hmem _ List.mem_cons_self rfl, (List.nodup_cons.mp htail).1⟩

theorem Traced.mem_got {tr : List Exchange} {round : ℕ} {outcome : Outcome}
    {got : List (PointId × Option Payload)} {left : List PointId}
    (h : Traced call tr ⟨round, outcome, .reading got left⟩) (id : PointId) (found : Option Payload) :
    ∀ x ∈ got ++ [(id, found)], Exchange.read round x.1 x.2 ∈ tr ++ [.read round id found] := by
  intro x hx
  rcases List.mem_append.mp hx with hx | hx
  · exact List.mem_append_left _ (h.got x hx)
  · obtain rfl := List.mem_singleton.mp hx
    exact List.mem_append_right _ (List.mem_singleton_self _)

/-- A write was answered, whatever the answer. -/
theorem Traced.sent {tr : List Exchange} {round : ℕ} {outcome : Outcome} {written left : List Write} {write : Write}
    (h : Traced call tr ⟨round, outcome, .writing written (write :: left)⟩)
    (hacc : Accounts call ⟨round, outcome, .writing written (write :: left)⟩) (answer : Except AlayaError Unit)
    (outcome' : Outcome) (written' : List Write) :
    Traced call (tr ++ [.sent round write answer]) (afterSend round outcome' written' left) := by
  have hid := hacc.disjoint.2
  refine h.next le_rfl (by simp) (fun _ hr => absurd hr (not_reading_afterSend round outcome' written' left))
    (by simp) ?_ ?_ ?_
  · rw [unsent_afterSend]
    exact fun w hw => (h.unsent w (List.mem_cons_of_mem _ hw)).mono _
  · exact fun _ _ => ⟨not_reading_afterSend round outcome' written' left, by simp⟩
  · rintro r w ans he
    obtain ⟨rfl, rfl, -⟩ : round = r ∧ write = w ∧ answer = ans := by simpa using he
    exact ⟨rfl, rfl, hacc.live.2, List.mem_cons_self, not_reading_afterSend round outcome' written' left,
      by simpa using hid⟩

theorem Traced.step {tr : List Exchange} (h : Traced call tr p) (hacc : Accounts call p)
    (hstep : Step call client p e p') : Traced call (tr ++ [e]) p' := by
  cases hstep with
  | @read round outcome got id id' left found =>
    have hmem := h.mem_got id found
    refine h.next le_rfl hmem (fun _ _ => ⟨reading_reading .., ?_⟩) ?_ (by simp) (by simp) (by simp)
    · exact fun x hx => List.mem_append_left _ hx
    · rintro r i f he
      obtain ⟨rfl, rfl, rfl⟩ : round = r ∧ id = i ∧ found = f := by simpa using he
      exact ⟨rfl, fun _ _ => List.mem_append_right _ (List.mem_singleton_self _)⟩
  | @lastRead n round outcome got id found =>
    have hmem := h.mem_got id found
    have hread : ∀ r i f, Exchange.read round id found = .read r i f → r = round := by
      rintro r i f he
      simp only [Exchange.read.injEq] at he
      exact he.1.symm
    rcases hafter : call.afterReads client n round outcome (got ++ [(id, found)]) with ⟨n', next⟩
    rcases afterReads_cases hafter with ⟨-, rfl⟩ | ⟨err, hb, rfl⟩ | ⟨settled, hb, rfl⟩ | ⟨w, ws, settled, hb, rfl⟩
    · exact h.next le_rfl (by simp) (by simp) (fun r i f he => ⟨hread r i f he, by simp⟩) (by simp) (by simp) (by simp)
    · exact h.next le_rfl (by simp) (by simp) (fun r i f he => ⟨hread r i f he, by simp⟩) (by simp) (by simp) (by simp)
    · exact h.next le_rfl (by simp) (by simp) (fun r i f he => ⟨hread r i f he, by simp⟩) (by simp) (by simp) (by simp)
    · refine h.next le_rfl (by simp) (by simp) (fun r i f he => ⟨hread r i f he, by simp⟩) ?_ ?_ (by simp)
      · intro w' hw'
        obtain ⟨prev, payload, hgot, hdec, hplan⟩ := build_plan hb w' hw'
        exact ⟨prev, payload, hmem _ hgot, hdec, hplan⟩
      · exact fun _ hreading => absurd (reading_reading ..) hreading
  | @readFails round outcome got left err =>
    exact h.next le_rfl (by simp) (by simp) (by simp) (by simp) (by simp) (by simp)
  | sent => exact h.sent hacc ..
  | sendFails err => exact h.sent hacc ..
  | @readBack round outcome left write lost found =>
    obtain ⟨outcome', lost', -, hlast, hmore⟩ := afterReadBack_cases round outcome write left lost found
    by_cases hleft : left = []
    · rw [hlast hleft]
      exact h.next (Nat.le_succ round) (by simp) (fun hr => absurd hr (by simp)) (by simp) (by simp)
        (fun hr => absurd hr (by simp)) (by simp)
    · rw [hmore hleft]
      exact h.next le_rfl (by simp) (by simp) (by simp) (by simp) (by simp) (by simp)
  | @readBackFails round outcome left lost err =>
    exact h.next le_rfl (by simp) (by simp) (by simp) (by simp) (by simp) (by simp)

/-! ### All or nothing at the first read -/

/-- A first read after which nothing is written: a strict call misses the point, or cannot be applied to
what the point holds. -/
def Spoils (call : UpdateCall) (x : Exchange) : Prop :=
  (call.isStrict = true ∧ ∃ id, x = .read 0 id none) ∨
    ∃ id prev err, x = .read 0 id (some prev) ∧ call.modify prev = .error err

theorem Spoils.read (h : call.Spoils e) : ∃ id found, e = .read 0 id found := by
  rcases h with ⟨-, id, h⟩ | ⟨id, prev, err, h, -⟩
  · exact ⟨id, none, h⟩
  · exact ⟨id, some prev, h⟩

/-- Where a first read spoils the call, nothing is sent and the call is about to return. -/
structure FirstRead (call : UpdateCall) (tr : List Exchange) (p : Progress) : Prop where
  unsent : (∃ x ∈ tr, call.Spoils x) → ∀ r w answer, .sent r w answer ∉ tr
  ends : (∃ x ∈ tr, call.Spoils x) → p.Returned ∨ p.round = 0 ∧ p.Reading

theorem decide_of_build {n n' round : ℕ} {got : List (PointId × Option Payload)} {ws : List Write}
    {settled : Outcome} (h : call.build client round n got = (n', .ok (ws, settled))) :
    ∀ x ∈ got, ∃ decision, call.decide round x.2 = .ok decision := by
  induction got generalizing n ws settled with
  | nil => simp
  | cons r rest ih =>
    obtain ⟨id, prev⟩ := r
    rcases build_cons h with ⟨update, settled', hdec, -, hrest⟩ | ⟨payload, ws', hdec, -, hrest⟩
    · exact List.forall_mem_cons.mpr ⟨⟨_, hdec⟩, ih hrest⟩
    · exact List.forall_mem_cons.mpr ⟨⟨_, hdec⟩, ih hrest⟩

theorem returned_of_spoils {n : ℕ} {outcome : Outcome} {got : List (PointId × Option Payload)} {id : PointId}
    {found : Option Payload} (hmem : (id, found) ∈ got) (h : call.Spoils (.read 0 id found)) :
    (call.afterReads client n 0 outcome got).2.Returned := by
  unfold afterReads
  split_ifs with hif
  · exact ⟨_, rfl⟩
  · rcases h with ⟨hstrict, i, hx⟩ | ⟨i, prev, err, hx, hmod⟩
    · obtain ⟨rfl, rfl⟩ : id = i ∧ found = none := by simpa using hx
      exact absurd ⟨rfl, hstrict, List.any_eq_true.mpr ⟨_, hmem, rfl⟩⟩ hif
    · obtain ⟨rfl, rfl⟩ : id = i ∧ found = some prev := by simpa using hx
      rcases hb : call.build client 0 n got with ⟨n', err' | ⟨ws, settled⟩⟩
      · exact ⟨_, rfl⟩
      · obtain ⟨decision, hdec⟩ := decide_of_build hb _ hmem
        simp [decide, hmod] at hdec

theorem not_returned_of_step (hstep : Step call client p e p') : ¬ p.Returned := by
  rintro ⟨result, hret⟩
  cases hstep <;> cases hret

theorem FirstRead.step {tr : List Exchange} (h : FirstRead call tr p) (htr : Traced call tr p)
    (hstep : Step call client p e p') : FirstRead call (tr ++ [e]) p' := by
  -- The call is still in its first reads, and has sent nothing.
  have hreading : (∃ x ∈ tr ++ [e], call.Spoils x) →
      p.round = 0 ∧ p.Reading ∧ ∀ r w answer, .sent r w answer ∉ tr := by
    rintro ⟨x, hx, hspoils⟩
    rcases List.mem_append.mp hx with hx | hx
    · rcases h.ends ⟨x, hx, hspoils⟩ with hret | ⟨hround, hreading⟩
      · exact absurd hret (not_returned_of_step hstep)
      · exact ⟨hround, hreading, h.unsent ⟨x, hx, hspoils⟩⟩
    · obtain rfl := List.mem_singleton.mp hx
      obtain ⟨id, found, rfl⟩ := hspoils.read
      have hp : p.round = 0 ∧ p.Reading := by
        cases hstep with
        | read => exact ⟨rfl, reading_reading ..⟩
        | lastRead => exact ⟨rfl, reading_reading ..⟩
      refine ⟨hp.1, hp.2, fun r w answer hsent => ?_⟩
      obtain ⟨-, -, hle, hnot⟩ := htr.sends r w answer hsent
      exact (hnot (by omega)).1 hp.2
  constructor
  · rintro hspoiled r w answer hmem
    obtain ⟨-, hp, hunsent⟩ := hreading hspoiled
    rcases List.mem_append.mp hmem with hmem | hmem
    · exact hunsent r w answer hmem
    · obtain rfl := (List.mem_singleton.mp hmem).symm
      cases hstep <;> simp at hp
  · intro hspoiled
    obtain ⟨hround, hp, -⟩ := hreading hspoiled
    cases hstep with
    | read found => exact .inr ⟨hround, reading_reading ..⟩
    | @lastRead n round outcome got id found =>
      dsimp only at hround
      subst hround
      obtain ⟨x, hx, hspoils⟩ := hspoiled
      left
      obtain ⟨i, f, rfl⟩ := hspoils.read
      refine returned_of_spoils ?_ hspoils
      rcases List.mem_append.mp hx with hx | hx
      · exact List.mem_append_left _ ((htr.reads _ _ _ hx).2 rfl (reading_reading ..))
      · obtain ⟨rfl, rfl⟩ : i = id ∧ f = found := by simpa using hx
        exact List.mem_append_right _ (List.mem_singleton_self _)
    | readFails err => exact .inl ⟨_, rfl⟩
    | sent => simp at hp
    | sendFails => simp at hp
    | readBack => simp at hp
    | readBackFails err => exact .inl ⟨_, rfl⟩

/-! ### Retries -/

/-- A write was read back as having lost its race. -/
def LostRace (w : Write) (tr : List Exchange) : Prop :=
  ∃ found, .readBack w found ∈ tr ∧ Alaya.landed w.readRev found w.mine = .no

/-- A point that was written and is still open waits for its read-back, or its write lost its race; and
between two writes for a point, the first one was read back as lost. -/
structure Retried (tr : List Exchange) (p : Progress) : Prop where
  unsettled : ∀ a r w answer b, tr = a ++ .sent r w answer :: b → w.id ∈ p.openIds →
    answer = .ok () ∧ (w ∈ p.awaiting ∨ LostRace w b)
  again : ∀ a r w answer b r' w' answer' c,
    tr = a ++ .sent r w answer :: (b ++ .sent r' w' answer' :: c) → w'.id = w.id →
    answer = .ok () ∧ LostRace w b

theorem LostRace.mono {w : Write} {tr : List Exchange} (h : LostRace w tr) (e : Exchange) :
    LostRace w (tr ++ [e]) := by
  obtain ⟨found, hmem, hno⟩ := h
  exact ⟨found, List.mem_append_left _ hmem, hno⟩

theorem retried_start (call : UpdateCall) : Retried [] call.start := by
  constructor
  · intro a r w answer b h
    simp at h
  · intro a r w answer b r' w' answer' c h
    simp at h

/-- A list with one more element, split at an element: it is the last one, or the rest ends in the last. -/
theorem concat_eq_append_cons {α : Type} {xs a b : List α} {x y : α} (h : xs ++ [y] = a ++ x :: b) :
    (b = [] ∧ xs = a ∧ y = x) ∨ ∃ b', b = b' ++ [y] ∧ xs = a ++ x :: b' := by
  rcases List.eq_nil_or_concat b with rfl | ⟨b', z, rfl⟩
  · obtain ⟨rfl, hyx⟩ := List.append_inj' h rfl
    exact .inl ⟨rfl, rfl, by simpa using hyx⟩
  · right
    rw [List.concat_eq_append, ← List.cons_append, ← List.append_assoc] at h
    obtain ⟨rfl, hyz⟩ := List.append_inj' h rfl
    obtain rfl : y = z := by simpa using hyz
    exact ⟨b', List.concat_eq_append, rfl⟩

/-- What has to be seen of an exchange. -/
theorem Retried.next {tr : List Exchange} (h : Retried tr p)
    (hopen : ∀ w, w.id ∈ p'.openIds → w.id ∈ p.openIds ∧ (w ∈ p.awaiting → w ∈ p'.awaiting ∨ LostRace w [e]))
    (hsent : ∀ r w answer, e = .sent r w answer → w.id ∈ p.openIds ∧ (∀ w' ∈ p.awaiting, w'.id ≠ w.id) ∧
      (w.id ∈ p'.openIds → answer = .ok () ∧ w ∈ p'.awaiting)) : Retried (tr ++ [e]) p' where
  unsettled a r w answer b htr hid := by
    rcases concat_eq_append_cons htr with ⟨rfl, rfl, rfl⟩ | ⟨b', rfl, rfl⟩
    · obtain ⟨-, -, hnew⟩ := hsent r w answer rfl
      obtain ⟨hok, hw⟩ := hnew hid
      exact ⟨hok, .inl hw⟩
    · obtain ⟨hold, hkeep⟩ := hopen w hid
      obtain ⟨hok, hw⟩ := h.unsettled a r w answer b' rfl hold
      refine ⟨hok, ?_⟩
      rcases hw with hw | hlost
      · rcases hkeep hw with hw | ⟨found, hmem, hno⟩
        · exact .inl hw
        · exact .inr ⟨found, List.mem_append_right _ hmem, hno⟩
      · exact .inr (hlost.mono e)
  again a r w answer b r' w' answer' c htr hid := by
    rw [← List.cons_append, ← List.append_assoc] at htr
    rcases concat_eq_append_cons htr with ⟨rfl, rfl, rfl⟩ | ⟨c', rfl, rfl⟩
    · obtain ⟨hold, hothers, -⟩ := hsent r' w' answer' rfl
      obtain ⟨hok, hw⟩ := h.unsettled a r w answer b rfl (hid ▸ hold)
      rcases hw with hw | hlost
      · exact absurd hid.symm (hothers w hw)
      · exact ⟨hok, hlost⟩
    · exact h.again a r w answer b r' w' answer' c' (by simp) hid

theorem Retried.step {tr : List Exchange} (h : Retried tr p) (hacc : Accounts call p)
    (hstep : Step call client p e p') : Retried (tr ++ [e]) p' := by
  cases hstep with
  | read found => exact h.next (fun w hw => ⟨by simpa using hw, by simp⟩) (by simp)
  | @lastRead n round outcome got id found =>
    refine h.next (fun w hw => ⟨?_, by simp⟩) (by simp)
    rcases hafter : call.afterReads client n round outcome (got ++ [(id, found)]) with ⟨n', next⟩
    rw [hafter] at hw
    rcases afterReads_cases hafter with ⟨-, rfl⟩ | ⟨err, hb, rfl⟩ | ⟨settled, hb, rfl⟩ | ⟨w', ws, settled, hb, rfl⟩
    · simp at hw
    · simp at hw
    · simp at hw
    · have hids := (build_ids hb).subset (List.mem_append_right _ hw)
      simpa using hids
  | readFails err => exact h.next (by simp) (by simp)
  | @sent round outcome written left write =>
    refine h.next (fun w hw => ⟨by simpa using hw, fun hmem => .inl ?_⟩) ?_
    · rw [awaiting_afterSend]
      exact List.mem_append_left _ hmem
    · rintro r w answer he
      obtain ⟨rfl, rfl, rfl⟩ : round = r ∧ write = w ∧ .ok () = answer := by simpa using he
      refine ⟨by simp, fun w' hw' hid => ?_, fun _ => ⟨rfl, by simp⟩⟩
      exact hacc.disjoint.1 (hid ▸ List.mem_map_of_mem hw')
  | @sendFails round outcome written left write err =>
    refine h.next (fun w hw => ⟨?_, fun hmem => .inl (by rwa [awaiting_afterSend])⟩) ?_
    · rw [openIds_afterSend, List.map_append] at hw
      simp only [Progress.openIds_writing, List.map_append, List.map_cons]
      exact (List.mem_append.mp hw).elim (List.mem_append_left _)
        fun hw => List.mem_append_right _ (List.mem_cons_of_mem _ hw)
    · rintro r w answer he
      obtain ⟨rfl, rfl, -⟩ : round = r ∧ write = w ∧ .error err = answer := by simpa using he
      refine ⟨by simp, fun w' hw' hid => ?_, fun hopen => ?_⟩
      · exact hacc.disjoint.1 (hid ▸ List.mem_map_of_mem hw')
      · rw [openIds_afterSend, List.map_append] at hopen
        exact absurd hopen (fun hmem => (List.mem_append.mp hmem).elim hacc.disjoint.1 hacc.disjoint.2)
  | @readBack round outcome left write lost found =>
    obtain ⟨outcome', lost', hsettled, hlast, hmore⟩ := afterReadBack_cases round outcome write left lost found
    have hnodup : (left.map Write.id ++ lost).Nodup ∧ write.id ∉ left.map Write.id ++ lost := by
      have hall := hacc.nodup nofun
      rw [Progress.accounted_readingBack, List.map_cons, List.cons_append] at hall
      obtain ⟨hnotin, hrest⟩ := List.nodup_cons.mp (List.nodup_append.mp hall).2.1
      exact ⟨hrest, hnotin⟩
    have hsub : ∀ i, i ∈ left.map Write.id ++ lost' → i ∈ write.id :: (left.map Write.id ++ lost) := by
      intro i hi
      rcases hsettled with ⟨-, rfl, -⟩ | ⟨-, rfl⟩
      · simp only [List.mem_append, List.mem_cons, List.not_mem_nil, or_false] at hi ⊢
        tauto
      · exact List.mem_cons_of_mem _ hi
    have hlostRace : write.id ∈ left.map Write.id ++ lost' → LostRace write [.readBack write found] := by
      intro hi
      rcases hsettled with ⟨-, -, hno⟩ | ⟨-, rfl⟩
      · exact ⟨found, List.mem_singleton_self _, hno⟩
      · exact absurd hi hnodup.2
    by_cases hleft : left = []
    · rw [hlast hleft]
      subst hleft
      refine h.next (fun w hw => ?_) (by simp)
      have hlost' := openIds_startRound_subset _ _ _ hw
      refine ⟨hsub _ hlost', fun hmem => .inr ?_⟩
      obtain rfl : w = write := by simpa using hmem
      exact hlostRace hlost'
    · rw [hmore hleft]
      refine h.next (fun w hw => ⟨hsub _ hw, fun hmem => ?_⟩) (by simp)
      rcases List.mem_cons.mp hmem with rfl | hmem
      · exact .inr (hlostRace hw)
      · exact .inl hmem
  | readBackFails err => exact h.next (by simp) (by simp)

/-! ### The end -/

/-- The points of a call that is not over are at most its own. -/
theorem Accounts.length_openIds_le (h : Accounts call p) : p.openIds.length ≤ call.pending.length := by
  cases hphase : p.phase with
  | returned result => simp [Progress.openIds, hphase]
  | dropped => simp [Progress.openIds, hphase]
  | _ =>
    have hlen := (h.perm (by simp [hphase])).length_eq
    simp only [Progress.accounted, hphase, List.length_append, List.length_map] at hlen
    omega

theorem remaining_afterSend_le (n round : ℕ) (outcome : Outcome) (written left : List Write) :
    (afterSend round outcome written left).remaining n ≤
      3 * n * (maxWriteAttempts - 1 - round) + (left.length + (written.length + left.length)) := by
  cases left <;> cases written <;> simp [afterSend, Progress.remaining, Progress.inRound]

theorem remaining_startRound_le {n : ℕ} (round : ℕ) {ids : List PointId} (outcome : Outcome)
    (hids : ids.length ≤ n) :
    (startRound (round + 1) ids outcome).remaining n ≤ 3 * n * (maxWriteAttempts - 1 - round) := by
  unfold startRound Progress.remaining
  split_ifs with hend
  · exact Nat.zero_le _
  · have hnext : round + 1 < maxWriteAttempts := not_le.mp fun hle => hend (.inr hle)
    have hrounds : maxWriteAttempts - 1 - round = maxWriteAttempts - 1 - (round + 1) + 1 := by omega
    rw [hrounds, Nat.mul_succ]
    simp only [Progress.inRound, List.length_nil]
    omega

/-- Every exchange brings the call nearer to its end. -/
theorem remaining_step (hacc : Accounts call p) (hstep : Step call client p e p') :
    p'.remaining call.pending.length + 1 ≤ p.remaining call.pending.length := by
  cases hstep with
  | read found =>
    simp only [Progress.remaining, Progress.inRound, List.length_append, List.length_cons, List.length_nil]
    omega
  | @lastRead n round outcome got id found =>
    rcases hafter : call.afterReads client n round outcome (got ++ [(id, found)]) with ⟨n', next⟩
    rcases afterReads_cases hafter with ⟨-, rfl⟩ | ⟨err, hb, rfl⟩ | ⟨settled, hb, rfl⟩ | ⟨w, ws, settled, hb, rfl⟩
    · simp only [Progress.remaining, Progress.inRound, List.length_cons]
      omega
    · simp only [Progress.remaining, Progress.inRound, List.length_cons]
      omega
    · simp only [Progress.remaining, Progress.inRound, List.length_cons]
      omega
    · have hlen := (build_ids hb).length_eq
      simp only [List.length_append, List.length_map, List.length_cons, List.length_nil] at hlen
      simp only [Progress.remaining, Progress.inRound, List.length_cons, List.length_nil]
      omega
  | @readFails round outcome got left err =>
    have hne := List.length_pos_of_ne_nil hacc.live.1
    simp only [Progress.remaining, Progress.inRound]
    omega
  | @sent round outcome written left write =>
    have hle := remaining_afterSend_le call.pending.length round outcome (written ++ [write]) left
    simp only [List.length_append, List.length_cons, List.length_nil] at hle
    simp only [Progress.remaining, Progress.inRound, List.length_cons] at hle ⊢
    omega
  | @sendFails round outcome written left write err =>
    have hle := remaining_afterSend_le call.pending.length round
      (outcome ++ [(write.id, .unconfirmed (.sendFailed err))]) written left
    simp only [Progress.remaining, Progress.inRound, List.length_cons] at hle ⊢
    omega
  | @readBack round outcome left write lost found =>
    obtain ⟨outcome', lost', hsettled, hlast, hmore⟩ := afterReadBack_cases round outcome write left lost found
    by_cases hleft : left = []
    · have hids : lost'.length ≤ call.pending.length := by
        have hopen := hacc.length_openIds_le
        simp only [Progress.openIds_readingBack, List.length_append, List.length_map, List.length_cons] at hopen
        rcases hsettled with ⟨-, rfl, -⟩ | ⟨-, rfl⟩
        · simp only [List.length_append, List.length_cons, List.length_nil]
          omega
        · omega
      rw [hlast hleft]
      have hle := remaining_startRound_le round outcome' hids
      simp only [Progress.remaining, Progress.inRound, List.length_cons] at hle ⊢
      omega
    · rw [hmore hleft]
      simp only [Progress.remaining, Progress.inRound, List.length_cons]
      omega
  | @readBackFails round outcome left lost err =>
    have hne := List.length_pos_of_ne_nil hacc.live.1
    simp only [Progress.remaining, Progress.inRound]
    omega

theorem remaining_start_le (call : UpdateCall) :
    call.start.remaining call.pending.length ≤ 3 * maxWriteAttempts * call.pending.length := by
  unfold start startRound Progress.remaining
  split_ifs
  · exact Nat.zero_le _
  · simp only [Progress.inRound, List.length_nil, maxWriteAttempts]
    omega

/-- What holds of a call after every run. -/
structure Tracked (call : UpdateCall) (tr : List Exchange) (p : Progress) : Prop where
  accounts : Accounts call p
  traced : Traced call tr p
  first : FirstRead call tr p
  retried : Retried tr p
  bounded : tr.length + p.remaining call.pending.length ≤ 3 * maxWriteAttempts * call.pending.length

theorem tracked_run {tr : List Exchange} (hrun : Run (Step call client) call.start tr p) :
    Tracked call tr p := by
  induction hrun with
  | start =>
    refine ⟨accounts_start call, traced_start call, ⟨by simp, by simp⟩, retried_start call, ?_⟩
    simpa using remaining_start_le call
  | step _ hstep ih =>
    refine ⟨ih.accounts.step hstep, ih.traced.step ih.accounts hstep, ih.first.step ih.traced hstep,
      ih.retried.step ih.accounts hstep, ?_⟩
    have hle := remaining_step ih.accounts hstep
    have hbound := ih.bounded
    rw [List.length_append, List.length_singleton]
    omega

/-- A call that has not returned goes on, whatever it is answered. -/
theorem Accounts.goes_on (h : Accounts call p) (hp : ¬ p.Returned) (client : Client) :
    ∃ e p', Step call client p e p' := by
  obtain ⟨round, outcome, phase⟩ := p
  have hlive := h.live
  cases phase with
  | reading got left =>
    rcases left with _ | ⟨id, _ | ⟨id', left⟩⟩
    · exact absurd rfl hlive.1
    · exact ⟨_, _, .lastRead 0 none⟩
    · exact ⟨_, _, .read none⟩
  | writing written left =>
    rcases left with _ | ⟨write, left⟩
    · exact absurd rfl hlive.1
    · exact ⟨_, _, .sent⟩
  | readingBack left lost =>
    rcases left with _ | ⟨write, left⟩
    · exact absurd rfl hlive.1
    · exact ⟨_, _, .readBack none⟩
  | returned result => exact absurd ⟨result, rfl⟩ hp
  | dropped => exact hlive.elim

/-- A request that applies only to the copy a write was built from: conditional on its revision, or
insert-only where there was none. -/
inductive ConditionalOn : Option Payload → Request → Prop
  | setPayload (prev payload : Payload) :
      ConditionalOn (some prev) (.setPayload payload (revCondition (revOf prev)))
  | overwritePayload (prev payload : Payload) :
      ConditionalOn (some prev) (.overwritePayload payload (revCondition (revOf prev)))
  | upsertUpdateOnly (prev payload : Payload) :
      ConditionalOn (some prev) (.upsertUpdateOnly payload (revCondition (revOf prev)))
  | upsertInsertOnly (payload : Payload) : ConditionalOn none (.upsertInsertOnly payload)

theorem Built.conditionalOn {tr : List Exchange} {round : ℕ} {w : Write} (h : Built call tr round w) :
    ∃ found, .read round w.id found ∈ tr ∧ ConditionalOn found (call.request w) := by
  obtain ⟨found, payload, hread, hdec, hplan⟩ := h
  refine ⟨found, hread, ?_⟩
  rw [hplan]
  cases hcommit : call.commit with
  | payload how batch =>
    cases found with
    | none => simp [decide, hcommit] at hdec
    | some prev => cases how <;> simp only [request, hcommit, plan, Option.bind_some] <;> constructor
  | upsert insert =>
    cases found <;> simp [request, hcommit, plan] <;> constructor

/-- A call, whatever it is answered.  It writes nothing where a strict call misses a point at its first read
or where `modify` fails there; what it returns settles each of its points once and no other; it sends at
most one write for a point in each of its rounds, on the condition that the copy it read is still there, and
a second one only where the first was read back as lost; and it ends. -/
theorem update_points_run {tr : List Exchange} (hrun : Run (Step call client) call.start tr p) :
    ((∃ x ∈ tr, call.Spoils x) → ∀ r w answer, .sent r w answer ∉ tr) ∧
    (∀ outcome, p.phase = .returned (.ok outcome) →
      (outcome.map Prod.fst).Nodup ∧ ∀ id, id ∈ outcome.map Prod.fst ↔ id ∈ call.ids) ∧
    (∀ id, (sendRounds id tr).length ≤ maxWriteAttempts) ∧
    (∀ r w answer, .sent r w answer ∈ tr →
      ∃ found, .read r w.id found ∈ tr ∧ ConditionalOn found (call.request w)) ∧
    (∀ a r w answer b r' w' answer' c, tr = a ++ .sent r w answer :: (b ++ .sent r' w' answer' :: c) →
      w'.id = w.id → answer = .ok () ∧ LostRace w b) ∧
    tr.length ≤ 3 * maxWriteAttempts * call.pending.length ∧
    (¬ p.Returned → ∃ e p', Step call client p e p') := by
  have h := tracked_run hrun
  refine ⟨h.first.unsent, fun outcome hret => ?_, fun id => ?_, fun r w answer hsent => ?_, h.retried.again, ?_,
    fun hp => h.accounts.goes_on hp client⟩
  · have hperm := h.accounts.perm (by simp [hret])
    simp only [Progress.accounted, hret] at hperm
    refine ⟨hperm.nodup_iff.mpr (nodup_eraseDups _), fun id => ?_⟩
    rw [hperm.mem_iff]
    simp [pending]
  · have hlt : ∀ r ∈ sendRounds id tr, r ∈ List.range maxWriteAttempts := by
      intro r hr
      obtain ⟨w, answer, hsent, -⟩ := mem_sendRounds.mp hr
      exact List.mem_range.mpr (h.traced.sends r w answer hsent).2.1
    simpa using (List.subperm_of_subset (h.traced.once id) hlt).length_le
  · exact (h.traced.sends r w answer hsent).1.conditionalOn
  · have hbound := h.bounded
    omega

/-- A strict call that names one point, twice. -/
def strictCall : UpdateCall where
  ids := ["a", "a"]
  keys := none
  commit := .payload .merge .strict
  modify prev := .ok (some prev)

/-- The point as the call finds it, with no revision yet. -/
def foundPoint : Payload := [("tags", .array [])]

/-- What another client makes of it before the first write of the call is there. -/
def takenPoint : Payload := stamp (token 1 0) foundPoint (some foundPoint)

def firstWrite : Write := plan "a" (some foundPoint) (token 0 0) foundPoint

def secondWrite : Write := plan "a" (some takenPoint) (token 0 1) takenPoint

/-- The first write loses its race, the second one lands. -/
def lostOnce : List Exchange :=
  [.read 0 "a" (some foundPoint), .sent 0 firstWrite (.ok ()), .readBack firstWrite (some takenPoint),
    .read 1 "a" (some takenPoint), .sent 1 secondWrite (.ok ()), .readBack secondWrite (some secondWrite.payload)]

/-- A round that finds the point as `prev`, whose write is read back as `back`. -/
theorem run_round (n round : ℕ) (prev back : Payload) :
    Run (Step strictCall 0) ⟨round, [], .reading [] ["a"]⟩
      [.read round "a" (some prev), .sent round (plan "a" (some prev) (token 0 n) prev) (.ok ()),
        .readBack (plan "a" (some prev) (token 0 n) prev) (some back)]
      (afterReadBack round [] (plan "a" (some prev) (token 0 n) prev) [] [] (some back)) := by
  have hreads : (strictCall.afterReads 0 n round [] [("a", some prev)]).2 =
      ⟨round, [], .writing [] [plan "a" (some prev) (token 0 n) prev]⟩ := by
    simp [afterReads, build, decide, strictCall, Except.map]
  have hread : Run (Step strictCall 0) ⟨round, [], .reading [] ["a"]⟩ [.read round "a" (some prev)]
      ⟨round, [], .writing [] [plan "a" (some prev) (token 0 n) prev]⟩ :=
    hreads ▸ Run.single (.lastRead n (some prev))
  exact (hread.step .sent).step (.readBack (some back))

theorem run_lostOnce : Run (Step strictCall 0) strictCall.start lostOnce
    ⟨2, [("a", .landed secondWrite.payload false)], .returned (.ok [("a", .landed secondWrite.payload false)])⟩ := by
  have hpending : strictCall.pending = ["a"] := by simp [pending, strictCall, List.eraseDups_cons]
  have hstart : strictCall.start = ⟨0, [], .reading [] ["a"]⟩ := by
    simp [start, startRound, hpending, maxWriteAttempts]
  have hlost : Alaya.landed firstWrite.readRev (some takenPoint) firstWrite.mine = .no := by decide +kernel
  have hlands : Alaya.landed secondWrite.readRev (some secondWrite.payload) secondWrite.mine = .yes := by
    decide +kernel
  have hfirst : afterReadBack 0 [] firstWrite [] [] (some takenPoint) = ⟨1, [], .reading [] ["a"]⟩ := by
    unfold afterReadBack
    rw [hlost]
    rfl
  have hsecond : afterReadBack 1 [] secondWrite [] [] (some secondWrite.payload) =
      ⟨2, [("a", .landed secondWrite.payload false)],
        .returned (.ok [("a", .landed secondWrite.payload false)])⟩ := by
    unfold afterReadBack
    rw [hlands]
    rfl
  rw [hstart, ← hsecond]
  exact (hfirst ▸ run_round 0 0 foundPoint takenPoint).append (run_round 1 1 takenPoint secondWrite.payload)

/-- It settles its point once, and writes it a second time because the first write lost. -/
theorem update_points_run_lostOnce : ∃ p outcome, Run (Step strictCall 0) strictCall.start lostOnce p ∧
    p.phase = .returned (.ok outcome) ∧ outcome = [("a", .landed secondWrite.payload false)] ∧
    (∀ id, id ∈ outcome.map Prod.fst ↔ id ∈ strictCall.ids) ∧
    sendRounds "a" lostOnce = [0, 1] ∧ (sendRounds "a" lostOnce).length ≤ maxWriteAttempts ∧
    LostRace firstWrite [.readBack firstWrite (some takenPoint), .read 1 "a" (some takenPoint)] := by
  obtain ⟨-, hsettled, hfew, -, hagain, -⟩ := update_points_run run_lostOnce
  exact ⟨_, _, run_lostOnce, rfl, rfl, (hsettled _ rfl).2, rfl, hfew "a",
    (hagain [_] 0 firstWrite _ [_, _] 1 secondWrite _ [_] rfl rfl).2⟩

end UpdateCall

end Alaya
