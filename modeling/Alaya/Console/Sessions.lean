import Alaya.Lib.Run
import Mathlib.Algebra.Order.Ring.Int
import Mathlib.Data.Finset.Sort
import Mathlib.Data.List.Count
import Mathlib.Data.Prod.Lex
import Mathlib.Data.String.Basic
import Mathlib.Logic.Function.Basic

/-!
# Login states and sessions of the operations console

The console keeps no session on the server: its cookies are encrypted, each with a fixed expiry, and the
process remembers which login states were spent and which session ids were logged out, until they
expire.  Cookies are read in one place and those tables in another, each with a reading of the clock of
its own; other requests run in between, and the clock does not go back.
-/

namespace Alaya.Console

open Labelled

def idleTtlSecs : ℤ := 15 * 60

/-- What the login cookie holds. -/
structure LoginState where
  state : String
  exp : ℤ
  deriving DecidableEq

/-- What the session cookie holds. -/
structure Session where
  sid : String
  csrf : String
  exp : ℤ
  lastSeen : ℤ
  deriving DecidableEq

def readLogin (login : LoginState) (now : ℤ) : Option LoginState :=
  if now < login.exp then some login else none

/-- Both limits must hold: the absolute lifetime and the idle window. -/
def readSession (session : Session) (now : ℤ) : Option Session :=
  if now < session.exp ∧ now < session.lastSeen + idleTtlSecs then some session else none

/-! ### The two tables -/

/-- The spent login states by expiry, `BTreeSet<(i64, String)>`. -/
abbrev ConsumedLogins := Finset (ℤ ×ₗ String)

/-- Pop the first entry while it has expired. -/
def popExpired (consumed : ConsumedLogins) (now : ℤ) : ConsumedLogins :=
  ((consumed.sort (· ≤ ·)).dropWhile fun entry => (ofLex entry).1 ≤ now).toFinset

/-- Spend a login state; true only the first time, and never once it has expired. -/
def spendLogin (consumed : ConsumedLogins) (state : String) (exp now : ℤ) : Bool × ConsumedLogins :=
  if exp ≤ now then (false, consumed)
  else
    let consumed := popExpired consumed now
    (decide (toLex (exp, state) ∉ consumed), insert (toLex (exp, state)) consumed)

/-- The session ids that were logged out, with their expiry. -/
abbrev Revoked := String → Option ℤ

def revokeSession (revoked : Revoked) (sid : String) (exp now : ℤ) : Revoked :=
  Function.update (fun s => (revoked s).filter fun e => now < e) sid (some exp)

def isRevoked (revoked : Revoked) (sid : String) (now : ℤ) : Bool :=
  (revoked sid).any fun e => now < e

/-- In a sorted list, what is dropped from the front is all there is to drop. -/
theorem dropWhile_eq_filter {α : Type} [Preorder α] {p : α → Bool} {entries : List α}
    (hsorted : entries.Pairwise (· ≤ ·)) (hp : ∀ a b, a ≤ b → p b → p a) :
    entries.dropWhile p = entries.filter fun a => !p a := by
  induction entries with
  | nil => rfl
  | cons a entries ih =>
    obtain ⟨hle, hrest⟩ := List.pairwise_cons.mp hsorted
    by_cases ha : p a
    · rw [List.dropWhile_cons_of_pos ha, List.filter_cons_of_neg (by simp [ha]), ih hrest]
    · rw [List.dropWhile_cons_of_neg ha, List.filter_eq_self.mpr]
      intro b hb
      rcases List.mem_cons.mp hb with rfl | hb
      · simp [ha]
      · have hkept : ¬p b := fun hpb => ha (hp a b (hle b hb) hpb)
        simp [hkept]

/-- The purge takes what has expired and nothing else. -/
theorem mem_popExpired {consumed : ConsumedLogins} {now exp : ℤ} {state : String} :
    toLex (exp, state) ∈ popExpired consumed now ↔ toLex (exp, state) ∈ consumed ∧ now < exp := by
  have hfirst : ∀ a b : ℤ ×ₗ String, a ≤ b → decide ((ofLex b).1 ≤ now) → decide ((ofLex a).1 ≤ now) := by
    intro a b hab hb
    exact decide_eq_true ((Prod.Lex.le_iff'.mp hab).1.trans (of_decide_eq_true hb))
  unfold popExpired
  rw [List.mem_toFinset, dropWhile_eq_filter (consumed.pairwise_sort (· ≤ ·)) hfirst, List.mem_filter,
    Finset.mem_sort, Bool.not_eq_true', decide_eq_false_iff_not, not_le]
  rfl

/-! ### Requests -/

/-- Who reads the session cookie: the extractor of a handler, or the middleware that re-issues it. -/
inductive SessionReader where
  | extractor
  | refresh
  deriving DecidableEq

/-- A request in progress. -/
inductive ConsoleTask where
  /-- A callback whose login cookie was read. -/
  | spending (login : LoginState)
  /-- A logout whose session cookie was read. -/
  | revoking (session : Session)
  /-- A request whose session cookie was read. -/
  | checking (reader : SessionReader) (session : Session)
  /-- A response that gets the cookie again. -/
  | reissuing (session : Session)
  | ended
  deriving DecidableEq

/-- What is left of a request that was accepted. -/
def accepted : SessionReader → Session → ConsoleTask
  | .extractor, _ => .ended
  | .refresh, session => .reissuing session

/-- The last reading of the clock, the two tables, and all requests so far. -/
structure ConsoleState where
  now : ℤ
  revoked : Revoked
  consumedLogins : ConsumedLogins
  tasks : List ConsoleTask

/-- What happens next, with the reading of the clock it takes. -/
inductive ConsoleEvent where
  | callback (login : LoginState) (cbState : String)
  /-- A callback goes on to `consume_login`. -/
  | spend (i : ℕ)
  | logout (session : Session) (csrf : String)
  /-- A logout goes on to `revoke_session`. -/
  | revoke (i : ℕ)
  | request (reader : SessionReader) (session : Session)
  /-- A request goes on to `is_revoked`. -/
  | check (i : ℕ)
  /-- The response of a request, which its handler may have given a session cookie. -/
  | reissue (i : ℕ) (touched : Bool)

/-- What an event did. -/
inductive ConsoleRecord where
  /-- A request read its session cookie at `now`; it is the `i`th. -/
  | opened (i : ℕ) (session : Session) (now : ℤ)
  | answered (i : ℕ) (accepted : Bool) (now : ℤ)
  | reissued (i : ℕ) (session : Session)
  | spent (state : String)
  | revoked (sid : String)
  | refused
  | pending
  deriving DecidableEq

section

variable (loginExp sessionExp : String → ℤ)

/-- One event at a reading of the clock.  The cookies are those the console issued: a state and a
session id have one expiry each. -/
def step (s : ConsoleState) : ConsoleEvent × ℤ → Option (ConsoleRecord × ConsoleState)
  | (event, now) =>
    if now < s.now then none
    else
      let s := { s with now }
      match event with
      | .callback login cbState =>
        if login.exp ≠ loginExp login.state then none
        else
          match readLogin login now with
          | none => some (.refused, s)
          | some login =>
            if login.state ≠ cbState then some (.refused, s)
            else some (.pending, { s with tasks := s.tasks ++ [.spending login] })
      | .spend i =>
        match s.tasks[i]? with
        | some (.spending login) =>
          match spendLogin s.consumedLogins login.state login.exp now with
          | (fresh, consumedLogins) =>
            some (if fresh then .spent login.state else .refused,
              { s with consumedLogins, tasks := s.tasks.set i .ended })
        | _ => none
      | .logout session csrf =>
        if session.exp ≠ sessionExp session.sid then none
        else
          match readSession session now with
          | none => some (.refused, s)
          | some session =>
            if csrf.isEmpty ∨ csrf ≠ session.csrf then some (.refused, s)
            else some (.pending, { s with tasks := s.tasks ++ [.revoking session] })
      | .revoke i =>
        match s.tasks[i]? with
        | some (.revoking session) =>
          some (.revoked session.sid,
            { s with
              revoked := revokeSession s.revoked session.sid session.exp now
              tasks := s.tasks.set i .ended })
        | _ => none
      | .request reader session =>
        if session.exp ≠ sessionExp session.sid then none
        else
          match readSession session now with
          | none => some (.refused, s)
          | some session => some (.opened s.tasks.length session now,
              { s with tasks := s.tasks ++ [.checking reader session] })
      | .check i =>
        match s.tasks[i]? with
        | some (.checking reader session) =>
          if isRevoked s.revoked session.sid now then
            some (.answered i false now, { s with tasks := s.tasks.set i .ended })
          else
            some (.answered i true now, { s with tasks := s.tasks.set i (accepted reader session) })
        | _ => none
      | .reissue i touched =>
        match s.tasks[i]? with
        | some (.reissuing session) =>
          some (if touched then .pending else .reissued i { session with lastSeen := now },
            { s with tasks := s.tasks.set i .ended })
        | _ => none

def start (now : ℤ) : ConsoleState := ⟨now, fun _ => none, ∅, []⟩

/-- A task knows the expiry of its cookie, and what the trace says of it. -/
def TaskKept (tr : List ConsoleRecord) (now : ℤ) (i : ℕ) : ConsoleTask → Prop
  | .spending login => login.exp = loginExp login.state
  | .revoking session => session.exp = sessionExp session.sid
  | .checking _ session => session.exp = sessionExp session.sid ∧
      ∃ c, .opened i session c ∈ tr ∧ c < session.exp ∧ c ≤ now
  | .reissuing _ => ∃ c, .answered i true c ∈ tr
  | .ended => True

/-- The tables agree with what was spent and revoked so far, until it expires. -/
structure Kept (tr : List ConsoleRecord) (s : ConsoleState) : Prop where
  once : ∀ state, tr.count (.spent state) ≤ 1
  spent : ∀ state, .spent state ∈ tr →
    toLex (loginExp state, state) ∈ s.consumedLogins ∨ loginExp state ≤ s.now
  entries : ∀ sid e, s.revoked sid = some e → e = sessionExp sid
  dead : ∀ sid, .revoked sid ∈ tr → s.revoked sid = some (sessionExp sid) ∨ sessionExp sid ≤ s.now
  tasks : ∀ i task, s.tasks[i]? = some task → TaskKept loginExp sessionExp tr s.now i task
  opened : ∀ i session c, .opened i session c ∈ tr → i < s.tasks.length
  unique : ∀ i session c session' c', .opened i session c ∈ tr → .opened i session' c' ∈ tr →
    session = session' ∧ c = c'
  reissued : ∀ i session, .reissued i session ∈ tr → ∃ c, .answered i true c ∈ tr

variable {loginExp sessionExp} {tr : List ConsoleRecord} {s : ConsoleState} {r : ConsoleRecord} {now : ℤ}
  {i : ℕ}

theorem kept_start (now : ℤ) : Kept loginExp sessionExp [] (start now) where
  once _ := Nat.zero_le _
  spent _ h := absurd h List.not_mem_nil
  entries _ _ h := nomatch h
  dead _ h := absurd h List.not_mem_nil
  tasks _ _ h := nomatch h
  opened _ _ _ h := absurd h List.not_mem_nil
  unique _ _ _ _ _ h := absurd h List.not_mem_nil
  reissued _ _ h := absurd h List.not_mem_nil

/-- What a task knows stays true. -/
theorem TaskKept.mono {task : ConsoleTask} {tr' : List ConsoleRecord} {now' : ℤ}
    (h : TaskKept loginExp sessionExp tr now i task) (htr : ∀ r ∈ tr, r ∈ tr') (hnow : now ≤ now') :
    TaskKept loginExp sessionExp tr' now' i task := by
  cases task with
  | spending login => exact h
  | revoking session => exact h
  | checking reader session =>
    obtain ⟨hexp, c, hopened, hlive, hle⟩ := h
    exact ⟨hexp, c, htr _ hopened, hlive, hle.trans hnow⟩
  | reissuing session =>
    obtain ⟨c, hanswered⟩ := h
    exact ⟨c, htr _ hanswered⟩
  | ended => trivial

/-- The clock goes on. -/
theorem Kept.later (h : Kept loginExp sessionExp tr s) (hnow : s.now ≤ now) :
    Kept loginExp sessionExp tr { s with now } where
  once := h.once
  spent state hspent := (h.spent state hspent).imp id fun hle => hle.trans hnow
  entries := h.entries
  dead sid hrevoked := (h.dead sid hrevoked).imp id fun hle => hle.trans hnow
  tasks i task htask := (h.tasks i task htask).mono (fun _ hr => hr) hnow
  opened := h.opened
  unique := h.unique
  reissued := h.reissued

/-- A record is written once what it says of a login, a session id or a request is so. -/
theorem Kept.record (h : Kept loginExp sessionExp tr s)
    (hspent : ∀ state, r = .spent state → .spent state ∉ tr ∧
      (toLex (loginExp state, state) ∈ s.consumedLogins ∨ loginExp state ≤ s.now))
    (hrevoked : ∀ sid, r = .revoked sid →
      s.revoked sid = some (sessionExp sid) ∨ sessionExp sid ≤ s.now)
    (hopened : ∀ i session c, r = .opened i session c → i < s.tasks.length ∧
      ∀ session' c', .opened i session' c' ∉ tr)
    (hreissued : ∀ i session, r = .reissued i session → ∃ c, .answered i true c ∈ tr) :
    Kept loginExp sessionExp (tr ++ [r]) s := by
  have hin : ∀ {r'}, r' ∈ tr ++ [r] → r' ∈ tr ∨ r = r' := fun hr' =>
    (List.mem_append.mp hr').imp id fun hlast => (List.mem_singleton.mp hlast).symm
  constructor
  · intro state
    rw [List.count_append, List.count_singleton]
    by_cases hsame : r = .spent state
    · rw [List.count_eq_zero.mpr (hspent state hsame).1]
      split <;> omega
    · rw [if_neg (by simpa using hsame)]
      exact h.once state
  · exact fun state hmem => (hin hmem).elim (h.spent state) fun hsame => (hspent state hsame).2
  · exact h.entries
  · exact fun sid hmem => (hin hmem).elim (h.dead sid) (hrevoked sid)
  · exact fun i task htask => (h.tasks i task htask).mono (fun _ hr => List.mem_append_left _ hr) (le_refl _)
  · exact fun i session c hmem => (hin hmem).elim (h.opened i session c) fun hsame =>
      (hopened i session c hsame).1
  · intro i session c session' c' hmem hmem'
    rcases hin hmem with hold | hnew
    · rcases hin hmem' with hold' | hnew'
      · exact h.unique i session c session' c' hold hold'
      · exact absurd hold ((hopened _ _ _ hnew').2 _ _)
    · rcases hin hmem' with hold' | hnew'
      · exact absurd hold' ((hopened _ _ _ hnew).2 _ _)
      · obtain ⟨-, hsession, hreading⟩ := ConsoleRecord.opened.inj (hnew.symm.trans hnew')
        exact ⟨hsession, hreading⟩
  · intro i session hmem
    obtain ⟨c, hanswered⟩ := (hin hmem).elim (h.reissued i session) (hreissued i session)
    exact ⟨c, List.mem_append_left _ hanswered⟩

/-- A record that says nothing of a login, a session id or a request. -/
def ConsoleRecord.Quiet : ConsoleRecord → Prop
  | .answered .. | .refused | .pending => True
  | _ => False

theorem Kept.append (h : Kept loginExp sessionExp tr s) (hquiet : r.Quiet) :
    Kept loginExp sessionExp (tr ++ [r]) s := by
  refine h.record ?_ ?_ ?_ ?_
  · rintro state rfl
    exact hquiet.elim
  · rintro sid rfl
    exact hquiet.elim
  · rintro i session c rfl
    exact hquiet.elim
  · rintro i session rfl
    exact hquiet.elim

/-- A task goes on as one that knows no less. -/
theorem Kept.set (h : Kept loginExp sessionExp tr s) (task : ConsoleTask)
    (htask : TaskKept loginExp sessionExp tr s.now i task) :
    Kept loginExp sessionExp tr { s with tasks := s.tasks.set i task } where
  once := h.once
  spent := h.spent
  entries := h.entries
  dead := h.dead
  tasks j task' hj := by
    dsimp only at hj
    by_cases hji : i = j
    · subst hji
      rw [List.getElem?_set_self'] at hj
      obtain ⟨-, -, rfl⟩ := Option.map_eq_some_iff.mp hj
      exact htask
    · rw [List.getElem?_set_ne hji] at hj
      exact h.tasks j task' hj
  opened j session c hopened := by
    show j < (s.tasks.set i task).length
    rw [List.length_set]
    exact h.opened j session c hopened
  unique := h.unique
  reissued := h.reissued

/-- A new task. -/
theorem Kept.push (h : Kept loginExp sessionExp tr s) (task : ConsoleTask)
    (htask : TaskKept loginExp sessionExp tr s.now s.tasks.length task) :
    Kept loginExp sessionExp tr { s with tasks := s.tasks ++ [task] } where
  once := h.once
  spent := h.spent
  entries := h.entries
  dead := h.dead
  tasks j task' hj := by
    dsimp only at hj
    by_cases hold : j < s.tasks.length
    · rw [List.getElem?_append_left hold] at hj
      exact h.tasks j task' hj
    · rw [List.getElem?_append_right (not_lt.mp hold), List.getElem?_singleton] at hj
      split at hj
      · next hzero =>
        have hlast : j = s.tasks.length := by omega
        subst hlast
        obtain rfl := Option.some.inj hj
        exact htask
      · cases hj
  opened j session c hopened := by
    show j < (s.tasks ++ [task]).length
    rw [List.length_append]
    exact Nat.lt_add_right _ (h.opened j session c hopened)
  unique := h.unique
  reissued := h.reissued

/-- **A login state is spent by one callback**: while it has not expired, the purge leaves it. -/
theorem Kept.spendLogin (h : Kept loginExp sessionExp tr s) {login : LoginState}
    (hexp : login.exp = loginExp login.state) {fresh : Bool} {consumedLogins : ConsumedLogins}
    (hspend : Console.spendLogin s.consumedLogins login.state login.exp s.now = (fresh, consumedLogins)) :
    Kept loginExp sessionExp (tr ++ [if fresh then .spent login.state else .refused])
      { s with consumedLogins } := by
  unfold Console.spendLogin at hspend
  rw [hexp] at hspend
  split at hspend
  · obtain ⟨rfl, rfl⟩ := Prod.mk.inj hspend
    exact h.append trivial
  · next hlive =>
    obtain ⟨rfl, rfl⟩ := Prod.mk.inj hspend
    set entry := toLex (loginExp login.state, login.state) with hentry
    have hkept : ∀ state, .spent state ∈ tr →
        toLex (loginExp state, state) ∈ insert entry (popExpired s.consumedLogins s.now) ∨
          loginExp state ≤ s.now := by
      intro state hspent
      rcases h.spent state hspent with hin | hle
      · by_cases hstate : loginExp state ≤ s.now
        · exact .inr hstate
        · exact .inl (Finset.mem_insert_of_mem (mem_popExpired.mpr ⟨hin, not_le.mp hstate⟩))
      · exact .inr hle
    have hstate : Kept loginExp sessionExp tr
        { s with consumedLogins := insert entry (popExpired s.consumedLogins s.now) } :=
      ⟨h.once, hkept, h.entries, h.dead, h.tasks, h.opened, h.unique, h.reissued⟩
    by_cases hfresh : entry ∉ popExpired s.consumedLogins s.now
    · rw [decide_eq_true hfresh, if_pos rfl]
      refine hstate.record ?_ nofun nofun nofun
      rintro state heq
      obtain rfl := ConsoleRecord.spent.inj heq
      refine ⟨fun hspent => ?_, .inl (Finset.mem_insert_self _ _)⟩
      rcases h.spent _ hspent with hin | hle
      · exact hfresh (mem_popExpired.mpr ⟨hin, not_le.mp hlive⟩)
      · exact hlive hle
    · rw [decide_eq_false hfresh]
      exact hstate.append trivial

/-- **A session id stays revoked until it expires**, however other logouts purge the table. -/
theorem Kept.revokeSession (h : Kept loginExp sessionExp tr s) {session : Session}
    (hexp : session.exp = sessionExp session.sid) : Kept loginExp sessionExp
      (tr ++ [.revoked session.sid])
      { s with revoked := Console.revokeSession s.revoked session.sid session.exp s.now } := by
  have hkept : ∀ sid, s.revoked sid = some (sessionExp sid) ∨ sessionExp sid ≤ s.now →
      Console.revokeSession s.revoked session.sid session.exp s.now sid = some (sessionExp sid) ∨
        sessionExp sid ≤ s.now := by
    intro sid hsid
    unfold Console.revokeSession
    by_cases hsame : sid = session.sid
    · subst hsame
      rw [Function.update_self, hexp]
      exact .inl rfl
    · rw [Function.update_of_ne hsame]
      rcases hsid with hin | hle
      · by_cases hlive : s.now < sessionExp sid
        · rw [hin, Option.filter_some, if_pos (decide_eq_true hlive)]
          exact .inl rfl
        · exact .inr (not_lt.mp hlive)
      · exact .inr hle
  have hstate : Kept loginExp sessionExp tr
      { s with revoked := Console.revokeSession s.revoked session.sid session.exp s.now } := by
    refine ⟨h.once, h.spent, fun sid e hentry => ?_, fun sid hrevoked => hkept sid (h.dead sid hrevoked),
      h.tasks, h.opened, h.unique, h.reissued⟩
    dsimp only at hentry
    unfold Console.revokeSession at hentry
    by_cases hsame : sid = session.sid
    · subst hsame
      rw [Function.update_self, hexp] at hentry
      exact (Option.some.inj hentry).symm
    · rw [Function.update_of_ne hsame] at hentry
      exact h.entries sid e (Option.filter_eq_some_iff.mp hentry).1
  refine hstate.record nofun ?_ nofun nofun
  intro sid heq
  obtain rfl := ConsoleRecord.revoked.inj heq
  left
  dsimp only
  rw [Console.revokeSession, Function.update_self, hexp]

/-- A request is opened with the session it read. -/
theorem Kept.openRequest (h : Kept loginExp sessionExp tr s) (reader : SessionReader) {session : Session}
    (hexp : session.exp = sessionExp session.sid) (hlive : s.now < session.exp) :
    Kept loginExp sessionExp (tr ++ [.opened s.tasks.length session s.now])
      { s with tasks := s.tasks ++ [.checking reader session] } := by
  have hpushed : Kept loginExp sessionExp tr { s with tasks := s.tasks ++ [.ended] } := h.push .ended trivial
  have hopened : Kept loginExp sessionExp (tr ++ [.opened s.tasks.length session s.now])
      { s with tasks := s.tasks ++ [.ended] } := by
    refine hpushed.record nofun nofun ?_ nofun
    intro i session' c heq
    obtain ⟨rfl, rfl, rfl⟩ := ConsoleRecord.opened.inj heq
    refine ⟨?_, fun session' c' hbefore => absurd (h.opened _ _ _ hbefore) (lt_irrefl _)⟩
    show s.tasks.length < (s.tasks ++ [ConsoleTask.ended]).length
    rw [List.length_append]
    exact Nat.lt_succ_self _
  have hset := hopened.set (i := s.tasks.length) (.checking reader session)
    ⟨hexp, s.now, List.mem_append_right _ List.mem_cons_self, hlive, le_refl _⟩
  have htasks : (s.tasks ++ [ConsoleTask.ended]).set s.tasks.length (.checking reader session) =
      s.tasks ++ [.checking reader session] := by
    rw [List.set_append_right _ _ (le_refl _), Nat.sub_self]
    rfl
  dsimp only at hset
  rw [htasks] at hset
  exact hset

theorem readLogin_eq_some {login login' : LoginState} (h : readLogin login now = some login') :
    login' = login ∧ now < login.exp := by
  unfold readLogin at h
  split at h
  · next hlive => exact ⟨(Option.some.inj h).symm, hlive⟩
  · cases h

theorem readSession_eq_some {session session' : Session} (h : readSession session now = some session') :
    session' = session ∧ now < session.exp ∧ now < session.lastSeen + idleTtlSecs := by
  unfold readSession at h
  split at h
  · next hlive => exact ⟨(Option.some.inj h).symm, hlive⟩
  · cases h

/-- **What one event keeps.** -/
theorem Kept.step (h : Kept loginExp sessionExp tr s) {event : ConsoleEvent × ℤ} {s' : ConsoleState}
    (hstep : Console.step loginExp sessionExp s event = some (r, s')) :
    Kept loginExp sessionExp (tr ++ [r]) s' := by
  obtain ⟨event, now⟩ := event
  unfold Console.step at hstep
  dsimp only at hstep
  split at hstep
  · cases hstep
  · next hclock =>
    have hnow : Kept loginExp sessionExp tr { s with now } := h.later (not_lt.mp hclock)
    cases event with
    | callback login cbState =>
      dsimp only at hstep
      split at hstep
      · cases hstep
      · next hissued =>
        split at hstep
        · obtain ⟨rfl, rfl⟩ := Prod.mk.inj (Option.some.inj hstep)
          exact hnow.append trivial
        · next login' hread =>
          obtain ⟨rfl, -⟩ := readLogin_eq_some hread
          split at hstep
          · obtain ⟨rfl, rfl⟩ := Prod.mk.inj (Option.some.inj hstep)
            exact hnow.append trivial
          · obtain ⟨rfl, rfl⟩ := Prod.mk.inj (Option.some.inj hstep)
            exact (hnow.push (.spending _) (not_not.mp hissued)).append trivial
    | spend i =>
      dsimp only at hstep
      split at hstep
      · next login htask =>
        obtain ⟨rfl, rfl⟩ := Prod.mk.inj (Option.some.inj hstep)
        have hexp : login.exp = loginExp login.state := h.tasks i _ htask
        exact (hnow.spendLogin hexp rfl).set .ended trivial
      · cases hstep
    | logout session csrf =>
      dsimp only at hstep
      split at hstep
      · cases hstep
      · next hissued =>
        split at hstep
        · obtain ⟨rfl, rfl⟩ := Prod.mk.inj (Option.some.inj hstep)
          exact hnow.append trivial
        · next session' hread =>
          obtain ⟨rfl, -⟩ := readSession_eq_some hread
          split at hstep
          · obtain ⟨rfl, rfl⟩ := Prod.mk.inj (Option.some.inj hstep)
            exact hnow.append trivial
          · obtain ⟨rfl, rfl⟩ := Prod.mk.inj (Option.some.inj hstep)
            exact (hnow.push (.revoking _) (not_not.mp hissued)).append trivial
    | revoke i =>
      dsimp only at hstep
      split at hstep
      · next session htask =>
        obtain ⟨rfl, rfl⟩ := Prod.mk.inj (Option.some.inj hstep)
        have hexp : session.exp = sessionExp session.sid := h.tasks i _ htask
        exact (hnow.revokeSession hexp).set .ended trivial
      · cases hstep
    | request reader session =>
      dsimp only at hstep
      split at hstep
      · cases hstep
      · next hissued =>
        split at hstep
        · obtain ⟨rfl, rfl⟩ := Prod.mk.inj (Option.some.inj hstep)
          exact hnow.append trivial
        · next session' hread =>
          obtain ⟨rfl, hlive, -⟩ := readSession_eq_some hread
          obtain ⟨rfl, rfl⟩ := Prod.mk.inj (Option.some.inj hstep)
          exact hnow.openRequest reader (not_not.mp hissued) hlive
    | check i =>
      dsimp only at hstep
      split at hstep
      · next reader session htask =>
        split at hstep
        · obtain ⟨rfl, rfl⟩ := Prod.mk.inj (Option.some.inj hstep)
          exact (hnow.set .ended trivial).append trivial
        · obtain ⟨rfl, rfl⟩ := Prod.mk.inj (Option.some.inj hstep)
          refine (hnow.append (r := .answered i true now) trivial).set _ ?_
          cases reader with
          | extractor => trivial
          | refresh => exact ⟨now, List.mem_append_right _ List.mem_cons_self⟩
      · cases hstep
    | reissue i touched =>
      dsimp only at hstep
      split at hstep
      · next session htask =>
        have hanswered : ∃ c, .answered i true c ∈ tr := h.tasks i _ htask
        obtain ⟨rfl, rfl⟩ := Prod.mk.inj (Option.some.inj hstep)
        have hended := hnow.set (i := i) .ended trivial
        cases touched with
        | true => exact hended.append trivial
        | false =>
          refine hended.record nofun nofun nofun fun j session' heq => ?_
          obtain ⟨rfl, -⟩ := ConsoleRecord.reissued.inj heq
          exact hanswered
      · cases hstep

/-- What every run keeps. -/
theorem kept_run {t : ℤ} (h : Run (Steps (Console.step loginExp sessionExp)) (start t) tr s) :
    Kept loginExp sessionExp tr s := by
  refine h.invariant (fun tr s => Kept loginExp sessionExp tr s) (kept_start t) ?_
  rintro tr s r s' - hkept ⟨event, hstep⟩
  exact hkept.step hstep

/-- The inversion of an answer: it looks the session id up at its own reading of the clock. -/
theorem step_answered {event : ConsoleEvent × ℤ} {s' : ConsoleState} {ok : Bool} {c : ℤ}
    (hstep : Console.step loginExp sessionExp s event = some (.answered i ok c, s')) :
    ∃ reader session, s.tasks[i]? = some (.checking reader session) ∧ s.now ≤ c ∧
      ok = !isRevoked s.revoked session.sid c := by
  obtain ⟨event, now⟩ := event
  unfold Console.step at hstep
  dsimp only at hstep
  split at hstep
  · cases hstep
  · next hclock =>
    cases event with
    | check j =>
      dsimp only at hstep
      split at hstep
      · next reader session htask =>
        split at hstep
        · next hrevoked =>
          obtain ⟨rfl, rfl, rfl⟩ := ConsoleRecord.answered.inj (Prod.mk.inj (Option.some.inj hstep)).1
          refine ⟨reader, session, htask, not_lt.mp hclock, ?_⟩
          rw [show isRevoked s.revoked session.sid now = true from hrevoked]
          rfl
        · next hrevoked =>
          obtain ⟨rfl, rfl, rfl⟩ := ConsoleRecord.answered.inj (Prod.mk.inj (Option.some.inj hstep)).1
          refine ⟨reader, session, htask, not_lt.mp hclock, ?_⟩
          rw [show isRevoked s.revoked session.sid now = false from Bool.eq_false_iff.mpr hrevoked]
          rfl
      · cases hstep
    | callback | spend | logout | revoke | request | reissue =>
      dsimp only at hstep
      repeat' split at hstep
      all_goals cases hstep

/-- **Login states are spent once, and a revoked session id is accepted only across its expiry.**  In
every run each login state is spent by at most one callback; a request of a session id that was revoked
before it is answered is accepted exactly when the session had not expired at the request's first
reading of the clock and has at its second; and a cookie is issued again only to an accepted request. -/
theorem sessions_stay_dead {t : ℤ}
    (h : Run (Steps (Console.step loginExp sessionExp)) (start t) tr s) :
    (∀ state, tr.count (.spent state) ≤ 1) ∧
    (∀ a b i ok c session c₀, tr = a ++ .answered i ok c :: b → .opened i session c₀ ∈ a →
      .revoked session.sid ∈ a → (ok = true ↔ c₀ < sessionExp session.sid ∧ sessionExp session.sid ≤ c)) ∧
    ∀ i session, .reissued i session ∈ tr → ∃ c, .answered i true c ∈ tr := by
  refine ⟨(kept_run h).once, ?_, (kept_run h).reissued⟩
  rintro a b i ok c session c₀ rfl hopened hrevoked
  obtain ⟨m, m', hbefore, ⟨event, hstep⟩, -⟩ := h.split_at
  have hkept := kept_run hbefore
  obtain ⟨reader, session', htask, hclock, rfl⟩ := step_answered hstep
  obtain ⟨hexp, c', hopened', hlive, hread⟩ := hkept.tasks i _ htask
  -- The request that is answered is the one that was opened.
  obtain ⟨rfl, rfl⟩ := hkept.unique i session' c' session c₀ hopened' hopened
  rw [Bool.not_eq_true', ← hexp]
  rcases hkept.dead session'.sid hrevoked with hentry | hexpired
  · rw [isRevoked, hentry, ← hexp, Option.any_some, decide_eq_false_iff_not, not_lt]
    exact (and_iff_right hlive).symm
  · have hgone : session'.exp ≤ c := by
      rw [hexp]
      exact hexpired.trans hclock
    refine iff_of_true ?_ ⟨hlive, hgone⟩
    unfold isRevoked
    cases hentry : m.revoked session'.sid with
    | none => rfl
    | some e =>
      rw [hkept.entries session'.sid e hentry, ← hexp, Option.any_some, decide_eq_false_iff_not, not_lt]
      exact hgone

end

/-! ### One session at its expiry -/

def operator : Session := ⟨"sid", "csrf", 1000, 900⟩

/-- A logout at 950, and a request that reads the clock at 999 and at 1000. -/
def acrossExpiry : List (ConsoleEvent × ℤ) :=
  [(.logout operator "csrf", 950), (.revoke 0, 950), (.request .extractor operator, 999), (.check 1, 1000)]

/-- **A logged-out session is accepted** when its expiry falls between the two readings. -/
theorem accepted_across_expiry : ∃ s, Run (Steps (Console.step (fun _ => 0) fun _ => 1000)) (start 900)
    [.pending, .revoked "sid", .opened 1 operator 999, .answered 1 true 1000] s :=
  run_of_trace acrossExpiry (by decide +kernel)

/-- A request that is answered before the expiry is refused. -/
theorem refused_before_expiry : ∃ s, Run (Steps (Console.step (fun _ => 0) fun _ => 1000)) (start 900)
      [.pending, .revoked "sid", .opened 1 operator 998, .answered 1 false 999] s ∧
    ¬(operator.exp ≤ 999) := by
  obtain ⟨s, hrun⟩ : ∃ s, Run (Steps (Console.step (fun _ => 0) fun _ => 1000)) (start 900)
      [.pending, .revoked "sid", .opened 1 operator 998, .answered 1 false 999] s :=
    run_of_trace [(.logout operator "csrf", 950), (.revoke 0, 950), (.request .extractor operator, 998),
      (.check 1, 999)] (by decide +kernel)
  have hiff := (sessions_stay_dead hrun).2.1 [.pending, .revoked "sid", .opened 1 operator 998] [] 1 false
    999 operator 998 rfl (by simp) (by simp [operator])
  exact ⟨s, hrun, fun hexpired => absurd (hiff.mpr ⟨by decide, hexpired⟩) (by decide)⟩

end Alaya.Console
