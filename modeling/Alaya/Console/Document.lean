import Alaya.Console.Fleet
import Alaya.Console.Sessions
import Alaya.Types.Float

/-!
# Document writes: what stands between a form and the store

A document op is previewed as a dry run and committed as the same op pinned to the same version.  Before
a commit is sent the readers' alerts and the record of what they installed are read again: a store that
may have been rolled back or edited asks for a typed confirmation, and a restore is checked against that
record.  A request that writes is sent past all of it or not at all.
-/

namespace Alaya.Console

open Std (TreeMap TreeSet)
open Json Collect

/-! ### The typed confirmations -/

def signalPhrase : String := "write anyway"

/-- A typed confirmation a document write needs. -/
inductive Needed where
  /-- Instances report the store behind or edited, each named. -/
  | signal (who : List String)
  /-- Whether any does cannot be told, and why. -/
  | unknown (why : String)
  /-- A restore whose row could not be checked against what instances installed. -/
  | unchecked (version : ℕ) (why : String)
  deriving DecidableEq

namespace Needed

/-- The form field the confirmation is typed into. -/
def field : Needed → String
  | signal _ | unknown _ => "confirm_signal"
  | unchecked .. => "confirm_version"

/-- What must be typed, exactly. -/
def phrase : Needed → String
  | signal _ | unknown _ => signalPhrase
  | unchecked version _ => toString version

def why : String :=
  "A write on a store that was rolled back, wiped or edited outside its write path publishes that " ++
    "content at a newer version, which every reader installs."

def warning : Needed → String
  | signal who =>
    "Instances report the store behind or edited: " ++ clip (", ".intercalate who) 600 ++ ". " ++ why
  | unknown reason =>
    "Whether any instance reports the store behind or edited cannot be told: " ++ clip reason 600 ++
      ". " ++ why
  | unchecked version reason => "Version " ++ toString version ++ " cannot be checked: " ++ reason ++ "."

end Needed

/-- The confirmation the store-alert signal calls for. -/
def forSignals : Except String (TreeSet String) → Option Needed
  | .ok who => if who.isEmpty then none else some (.signal who.toList)
  | .error why => some (.unknown why)

/-- The first confirmation that was not typed exactly, surrounding spaces aside. -/
def missing (needed : List Needed) (typed : String → String) : Option Needed :=
  needed.find? fun n => trim (typed n.field) ≠ n.phrase

/-- The verdict on one history row. -/
inductive RowCheck where
  | checked
  | unchecked (why : String)
  | refused (why : String)
  deriving DecidableEq

/-- A digest as a page names it: its first 12 characters, marked as cut. -/
def shortDigest (digest : String) : String := String.ofList (digest.toList.take 12) ++ "…"

/-- Check a history row against every version instances installed; an empty record is unknown. -/
def rowCheck (version : ℕ) (digest : String) (installed : TreeMap ℕ (TreeSet String)) :
    Except String RowCheck :=
  if installed.isEmpty then
    .error "the metrics store shows no document installed in the last 30 days, which reads as unknown"
  else
    .ok (match installed[version]? with
      | none => .unchecked "no instance installed it in the last 30 days"
      | some seen =>
        match seen.toList.find? fun d => d ≠ digest with
        | some other =>
          .refused ("version " ++ toString version ++ " was installed with digest " ++ shortDigest other ++
            ", but its history row now holds " ++ shortDigest digest ++
            ": the row was edited after the fact")
        | none => .checked)

/-! ### The form and the request -/

/-- A client's policy: `none` is no budget or no ceiling. -/
structure Policy where
  dailyBudget : Option ℕ
  utilizationLimit : Option ℚ
  models : List String
  preferredEndpoints : List String
  deriving DecidableEq

inductive DocOp where
  | create (name : String) (policy : Policy)
  | update (name : String) (policy : Policy)
  | delete (name : String)
  | addKey (name label : String)
  | revokeKey (digest : String)
  /-- A commit names the digest of the row its preview's dry run named. -/
  | restore (version : ℕ) (expectedDigest : Option String)
  deriving DecidableEq

structure DocRequest where
  expectedVersion : ℕ
  actor : String
  reason : String
  dryRun : Bool
  ops : List DocOp
  deriving DecidableEq

/-- The fields of every document form; one that was not sent is empty. -/
structure DocForm where
  csrf : String := ""
  op : String := ""
  expectedVersion : String := ""
  name : String := ""
  label : String := ""
  digest : String := ""
  version : String := ""
  expectedDigest : String := ""
  dailyBudget : String := ""
  utilizationLimit : String := ""
  models : String := ""
  preferredEndpoints : String := ""
  reason : String := ""
  confirmSignal : String := ""
  confirmVersion : String := ""

namespace DocForm

def typed (f : DocForm) (field : String) : String :=
  if field = "confirm_signal" then f.confirmSignal
  else if field = "confirm_version" then f.confirmVersion
  else ""

end DocForm

/-- A reason as the store takes it: whitespace runs collapsed to one space, 1 to 200 characters. -/
def cleanReason (raw : String) : Except String String :=
  let words := (raw.toList.splitOnP isWhitespace).filter (· ≠ [])
  let r := " ".intercalate (words.map String.ofList)
  if r.length = 0 then .error "a reason is required: the store records it on the op"
  else if 200 < r.length ∨ r.toList.any isControl then
    .error "a reason is at most 200 characters, with no control characters"
  else .ok r

/-- A list separated by commas or spaces. -/
def splitList (s : String) : List String :=
  ((s.toList.splitOnP fun c => c = ',' || isWhitespace c).filter (· ≠ [])).map String.ofList

def policyOf (f : DocForm) : Except String Policy := do
  let budget := trim f.dailyBudget
  let dailyBudget ←
    if budget = "" then pure none
    else match parseUnsigned (String.ofList (budget.toList.filter (· ≠ '_'))) with
      | some n => pure (some n)
      | none => throw "A daily budget is a whole number of tokens, or empty for none."
  let limit := trim f.utilizationLimit
  let utilizationLimit ←
    if limit = "" then pure none
    else match parseFinite limit with
      | some x => pure (some x)
      | none => throw "A utilization limit is a number above 0 and at most 1, or empty for none."
  return ⟨dailyBudget, utilizationLimit, splitList f.models, splitList f.preferredEndpoints⟩

def nameOf (f : DocForm) : Except String String :=
  let n := trim f.name
  if isName n then .ok n else .error "A name is [a-z0-9] then [a-z0-9_-], at most 63 characters."

/-- The digest of the row a restore names, if it names one. -/
def expectedDigestOf (f : DocForm) : Except String (Option String) :=
  let d := trim f.expectedDigest
  if d = "" then .ok none
  else if isHex64 d then .ok (some d)
  else .error "A restore's row digest is 64 hex characters."

def opOf (f : DocForm) : Except String DocOp :=
  match f.op with
  | "create" => do return .create (← nameOf f) (← policyOf f)
  | "update" => do return .update (← nameOf f) (← policyOf f)
  | "delete" => do return .delete (← nameOf f)
  | "add_key" => do return .addKey (← nameOf f) (trim f.label)
  | "revoke_key" =>
    let digest := (trim f.digest).map Char.toLower
    if isHex64 digest then .ok (.revokeKey digest)
    else .error "revoke_key names a key by its digest: 64 hex characters."
  | "restore" =>
    match (parseUnsigned (trim f.version)).filter (1 ≤ ·) with
    | some version => do return .restore version (← expectedDigestOf f)
    | none => .error "restore names a version in history."
  | _ => .error "Unknown document op."

/-- The op, the version the page read and the reason; only types are checked here. -/
def parse (f : DocForm) : Except String (DocOp × ℕ × String) :=
  match parseUnsigned (trim f.expectedVersion) with
  | none => .error "The form carries no document version: reload the page."
  | some expected => do
    let op ← opOf f
    return (op, expected, ← cleanReason f.reason)

/-! ### The handlers -/

/-- The session of a request, with whom it is for. -/
structure Operator extends Session where
  sub : String
  email : Option String

/-- What the store answers a request with. -/
structure Answer where
  status : ℕ
  body : Value

/-- The client store and the metrics store, by what they answer while one request is handled. -/
structure StoreModule where
  document : DocRequest → Except String Answer
  metrics : Metrics
  /-- The document series of the last 30 days. -/
  installed : Except String (List Series)

structure AppState where
  store : Option StoreModule
  allowedSubjects : List String
  /-- SHA-256 of a text, in hex. -/
  sha256 : String → String

inductive AppError where
  | notFound (detail : String)
  | forbidden (detail : String)
  deriving DecidableEq

def storeOf (state : AppState) : Except AppError StoreModule :=
  match state.store with
  | some m => .ok m
  | none => .error (.notFound "the client-store module is not configured")

def verifyCsrf (session : Operator) (submitted : String) : Except AppError Unit :=
  if submitted = "" ∨ submitted ≠ session.csrf then .error (.forbidden "CSRF token mismatch") else .ok ()

/-- The CSRF token, then the subject allowlist as configured now. -/
def guardWrite (state : AppState) (session : Operator) (csrf : String) : Except AppError Unit := do
  verifyCsrf session csrf
  if session.sub ∈ state.allowedSubjects then pure ()
  else throw (.forbidden "this subject is no longer allowed to write")

/-- The email that fits the store's rule, else the subject, else a digest of the subject. -/
def actorOf (state : AppState) (session : Operator) : String :=
  let fits (s : String) : Bool := s ≠ "" && s.length ≤ 64 && !s.toList.any isControl
  ((session.email.filter fits).or (some session.sub |>.filter fits)).getD
    ("sub-sha256:" ++ String.ofList ((state.sha256 session.sub).toList.take 16))

/-- What stands between an op and its commit, read at the preview and again at the commit. -/
structure Gate where
  /-- Typed confirmations the commit needs. -/
  needed : List Needed
  /-- Shown on the preview; they ask for nothing. -/
  notes : List String
  /-- Why the op is not sent at all. -/
  refused : Option String

/-- The row check, against what instances installed. -/
def restoreCheck (m : StoreModule) (version : ℕ) (digest : String) : Except String RowCheck :=
  match Fleet.installed m.installed with
  | .error e => .error ("the metrics store could not be read (" ++ e ++ ")")
  | .ok installed => rowCheck version digest installed

/-- The verdict on the row a restore names; nothing for any other op. -/
def checkOf (m : StoreModule) : DocOp → Option (ℕ × Except String RowCheck)
  | .restore version (some digest) => some (version, restoreCheck m version digest)
  | .restore version none =>
    some (version, .error ("it names no row digest; a restore is sent only from its preview, which names " ++
      "the row it restores"))
  | _ => none

def gate (m : StoreModule) (op : DocOp) : Gate :=
  let needed := (forSignals (Fleet.read m.metrics).storeAlerts).toList
  match checkOf m op with
  | none => ⟨needed, [], none⟩
  | some (version, .ok .checked) =>
    ⟨needed, ["Version " ++ toString version ++ " checks out: instances installed it with the digest of " ++
      "the row this restores."], none⟩
  | some (version, .ok (.unchecked why)) => ⟨needed ++ [.unchecked version why], [], none⟩
  | some (_, .ok (.refused why)) => ⟨needed, [], some ("The restore is refused: " ++ why ++ ".")⟩
  | some (_, .error why) =>
    ⟨needed, [], some ("The restore cannot be checked, so it is refused: " ++ why ++ ".")⟩

/-- What a handler answers with. -/
inductive Reply where
  | error (e : AppError)
  /-- Back to the clients page with a message. -/
  | back (msg : String)
  /-- The preview of an op, with its commit form where the gate lets it through. -/
  | preview (op : DocOp) (expected : ℕ) (reason : String) (gate : Gate)
  /-- The store answered a dry run as if it were a commit. -/
  | commitLike
  /-- The dry run was refused or lost. -/
  | previewFailed (answer : Except String Answer)
  /-- What the store answered a commit with. -/
  | sent (answer : Except String Answer)

/-- What a handler sent to the store, and its answer. -/
structure Handled where
  sent : List DocRequest
  reply : Reply

/-- An answer that is not plainly a dry run's: the store may have written. -/
def answersAsCommit (body : Value) : Bool :=
  member body "dry_run" ≠ some (.bool true) || (member body "version").isSome || (member body "keys").isSome

def unbound : String :=
  "The restore cannot be bound to the row it restores: the store's dry run named no digest for that row, " ++
    "so it cannot refuse the row if it changes before the commit."

def preview (state : AppState) (session : Operator) (form : DocForm) : Handled :=
  match storeOf state, guardWrite state session form.csrf with
  | .error e, _ | .ok _, .error e => ⟨[], .error e⟩
  | .ok m, .ok () =>
    match parse form with
    | .error msg => ⟨[], .back msg⟩
    | .ok (op, expected, reason) =>
      let request : DocRequest := ⟨expected, actorOf state session, reason, true, [op]⟩
      match m.document request with
      | .error e => ⟨[request], .previewFailed (.error e)⟩
      | .ok answer =>
        if answer.status ≠ 200 then ⟨[request], .previewFailed (.ok answer)⟩
        else if answersAsCommit answer.body then ⟨[request], .commitLike⟩
        else
          -- a restore commits only the row its preview showed
          match op with
          | .restore version _ =>
            let digest := ((member answer.body "restore_digest").bind Value.asStr).filter isHex64
            let op := .restore version digest
            let g := gate m op
            let g : Gate := ⟨g.needed, g.notes, if digest = none then some unbound else g.refused⟩
            ⟨[request], .preview op expected reason g⟩
          | op => ⟨[request], .preview op expected reason (gate m op)⟩

def commit (state : AppState) (session : Operator) (form : DocForm) : Handled :=
  match storeOf state, guardWrite state session form.csrf with
  | .error e, _ | .ok _, .error e => ⟨[], .error e⟩
  | .ok m, .ok () =>
    match parse form with
    | .error msg => ⟨[], .back msg⟩
    | .ok (op, expected, reason) =>
      let g := gate m op
      match g.refused, missing g.needed form.typed with
      | some why, _ => ⟨[], .back why⟩
      | none, some n =>
        ⟨[], .back (n.warning ++ " Nothing was sent: preview again, and type " ++ n.phrase ++ " to confirm.")⟩
      | none, none =>
        let request : DocRequest := ⟨expected, actorOf state session, reason, false, [op]⟩
        ⟨[request], .sent (m.document request)⟩

/-! ### What the gate asks for -/

theorem forSignals_eq_none_iff (m : Metrics) :
    forSignals (Fleet.read m).storeAlerts = none ↔ Fleet.Quiet m := by
  rw [← Fleet.storeAlerts_quiet_iff]
  cases (Fleet.read m).storeAlerts with
  | error e => simp [forSignals]
  | ok r => simp [forSignals]

/-- Every confirmation the store alerts call for is typed into one field, with one phrase. -/
theorem forSignals_field {signals : Except String (TreeSet String)} {n : Needed}
    (h : forSignals signals = some n) : n.field = "confirm_signal" ∧ n.phrase = signalPhrase := by
  unfold forSignals at h
  split at h
  · split at h
    · cases h
    · obtain rfl := Option.some.inj h
      exact ⟨rfl, rfl⟩
  · obtain rfl := Option.some.inj h
    exact ⟨rfl, rfl⟩

/-- A raised alert is named in a confirmation of its own, whatever the other reads answer. -/
theorem forSignals_of_raised {m : Metrics} {alerts : List Series} (h : m.alerts = .ok alerts) {a : Series}
    (ha : a ∈ alerts) (hraised : Fleet.Raised storeAlerts a) :
    ∃ who, forSignals (Fleet.read m).storeAlerts = some (.signal who) ∧ Fleet.nameOf a ∈ who := by
  obtain ⟨r, hr, hmem⟩ := Fleet.storeAlerts_of_raised h ha hraised
  refine ⟨r.toList, ?_, TreeSet.mem_toList.mpr hmem⟩
  rw [hr, forSignals, if_neg]
  intro hempty
  exact TreeSet.isEmpty_iff_forall_not_mem.mp hempty _ hmem

theorem missing_eq_none_iff {needed : List Needed} {typed : String → String} :
    missing needed typed = none ↔ ∀ n ∈ needed, trim (typed n.field) = n.phrase := by
  simp [missing, List.find?_eq_none]

/-- A number never prints as the phrase. -/
theorem toString_ne_signalPhrase (n : ℕ) : toString n ≠ signalPhrase := by
  intro h
  have hmem : 'w' ∈ (toString n).toList := by
    rw [h]
    decide
  have hdigit : 'w'.isDigit = true := by
    rw [Nat.toString_eq_repr, Nat.toList_repr] at hmem
    exact Nat.isDigit_of_mem_toDigits (by decide) (by decide) hmem
  exact absurd hdigit (by decide)

/-- The two confirmations are typed into different fields, with different phrases. -/
theorem field_ne_phrase_ne {signals : Except String (TreeSet String)} {n : Needed}
    (h : forSignals signals = some n) (version : ℕ) (why : String) :
    n.field ≠ (Needed.unchecked version why).field ∧ n.phrase ≠ (Needed.unchecked version why).phrase := by
  obtain ⟨hfield, hphrase⟩ := forSignals_field h
  rw [hfield, hphrase]
  exact ⟨show "confirm_signal" ≠ "confirm_version" by decide, (toString_ne_signalPhrase version).symm⟩

/-! ### The record of installs -/

/-- Some instance installed the version with the digest. -/
def OnRecord (series : List Series) (version : ℕ) (digest : String) : Prop :=
  ∃ s ∈ series, (s.label "version").bind parseUnsigned = some version ∧
    (s.label "digest").filter isHex64 = some digest

theorem installOf_eq_some {s : Series} {version : ℕ} {digest : String} :
    Fleet.installOf s = some (version, digest) ↔
      (s.label "version").bind parseUnsigned = some version ∧
        (s.label "digest").filter isHex64 = some digest := by
  unfold Fleet.installOf
  split
  · rename_i v d hv hd
    simp [hv, hd]
  · rename_i hnone
    constructor
    · exact nofun
    · rintro ⟨hv, hd⟩
      exact absurd hd (hnone version digest hv)

theorem mem_installed {series : List Series} {version : ℕ} {digest : String} :
    digest ∈ filed (collect Fleet.installOf series) version ↔ OnRecord series version digest := by
  rw [mem_filed]
  simp only [installOf_eq_some]
  rfl

/-- What the record must say of the row before a restore is sent. -/
def RowStands (series : List Series) (version : ℕ) (digest confirmed : String) : Prop :=
  (∃ v d, OnRecord series v d) ∧
    (OnRecord series version digest ∧ (∀ d, OnRecord series version d → d = digest) ∨
      (∀ d, ¬OnRecord series version d) ∧ trim confirmed = toString version)

/-- A row check that refuses nothing read a record that is not empty. -/
theorem record_of_rowCheck {series : List Series} {version : ℕ} {digest : String} {verdict : RowCheck}
    (h : rowCheck version digest (collect Fleet.installOf series) = .ok verdict) :
    ∃ v d, OnRecord series v d := by
  unfold rowCheck at h
  split at h
  · cases h
  · rename_i hempty
    rw [isEmpty_collect_iff] at hempty
    obtain ⟨s, hs⟩ := not_forall.mp hempty
    obtain ⟨hmem, hsome⟩ := Classical.not_imp.mp hs
    obtain ⟨⟨v, d⟩, hvd⟩ := Option.ne_none_iff_exists'.mp hsome
    exact ⟨v, d, s, hmem, installOf_eq_some.mp hvd⟩

theorem onRecord_of_checked {series : List Series} {version : ℕ} {digest : String}
    (h : rowCheck version digest (collect Fleet.installOf series) = .ok .checked) :
    OnRecord series version digest ∧ ∀ d, OnRecord series version d → d = digest := by
  unfold rowCheck at h
  split at h
  · cases h
  · split at h
    · cases h
    · rename_i seen hseen
      split at h
      · cases h
      · rename_i hother
        have hsame : ∀ d, OnRecord series version d → d = digest := by
          intro d hd
          rw [← mem_installed, filed_of_getElem? hseen, ← TreeSet.mem_toList] at hd
          simpa using List.find?_eq_none.mp hother d hd
        obtain ⟨d, hd⟩ := filled_collect Fleet.installOf series version seen hseen
        rw [← filed_of_getElem? hseen, mem_installed] at hd
        exact ⟨hsame d hd ▸ hd, hsame⟩

theorem not_onRecord_of_unchecked {series : List Series} {version : ℕ} {digest why : String}
    (h : rowCheck version digest (collect Fleet.installOf series) = .ok (.unchecked why)) (d : String) :
    ¬OnRecord series version d := by
  unfold rowCheck at h
  split at h
  · cases h
  · split at h
    · rename_i hnone
      rw [← mem_installed]
      simp [filed, hnone]
    · split at h <;> cases h

/-- A restore the gate lets through names a row that stands on the record. -/
theorem rowStands_of_gate {m : StoreModule} {version : ℕ} {named : Option String} {form : DocForm}
    (hrefused : (gate m (.restore version named)).refused = none)
    (hmissing : missing (gate m (.restore version named)).needed form.typed = none) :
    ∃ digest series, named = some digest ∧ m.installed = .ok series ∧
      RowStands series version digest form.confirmVersion := by
  cases named with
  | none => simp [gate, checkOf] at hrefused
  | some digest =>
    cases hinst : m.installed with
    | error e => simp [gate, checkOf, restoreCheck, Fleet.installed, hinst, Except.map] at hrefused
    | ok series =>
      have hcheck : checkOf m (.restore version (some digest)) =
          some (version, rowCheck version digest (collect Fleet.installOf series)) := by
        simp [checkOf, restoreCheck, Fleet.installed, hinst, Except.map]
      refine ⟨digest, series, rfl, rfl, ?_⟩
      unfold gate at hrefused hmissing
      rw [hcheck] at hrefused hmissing
      cases hrow : rowCheck version digest (collect Fleet.installOf series) with
      | error e => simp [hrow] at hrefused
      | ok verdict =>
        refine ⟨record_of_rowCheck hrow, ?_⟩
        cases verdict with
        | checked => exact .inl (onRecord_of_checked hrow)
        | refused why => simp [hrow] at hrefused
        | unchecked why =>
          refine .inr ⟨not_onRecord_of_unchecked hrow, ?_⟩
          rw [hrow, missing_eq_none_iff] at hmissing
          exact hmissing (.unchecked version why) (by simp)

/-! ### What is sent -/

theorem guardWrite_eq_ok {state : AppState} {session : Operator} {csrf : String}
    (h : guardWrite state session csrf = .ok ()) :
    csrf ≠ "" ∧ csrf = session.csrf ∧ session.sub ∈ state.allowedSubjects := by
  unfold guardWrite at h
  obtain ⟨u, hcsrf, hsub⟩ := bind_eq_ok.mp h
  unfold verifyCsrf at hcsrf
  split at hcsrf
  · cases hcsrf
  · rename_i hne
    obtain ⟨hempty, hsame⟩ := not_or.mp hne
    split at hsub
    · rename_i hmem
      exact ⟨hempty, not_not.mp hsame, hmem⟩
    · cases hsub

theorem isHex64_of_expectedDigestOf {form : DocForm} {digest : String}
    (h : expectedDigestOf form = .ok (some digest)) : isHex64 digest = true := by
  unfold expectedDigestOf at h
  dsimp only at h
  split at h
  · cases h
  · split at h
    · rename_i hhex
      cases h
      exact hhex
    · cases h

/-- Only a form for a restore parses as one, and with the digest the form carries. -/
theorem expectedDigestOf_of_opOf {form : DocForm} {version : ℕ} {named : Option String}
    (h : opOf form = .ok (.restore version named)) : expectedDigestOf form = .ok named := by
  unfold opOf at h
  dsimp only at h
  split at h
  case h_6 =>
    split at h
    · obtain ⟨d, hd, hret⟩ := bind_eq_ok.mp h
      cases hret
      exact hd
    · cases h
  case h_5 =>
    split at h <;> cases h
  all_goals simp [bind_eq_ok, pure, Except.pure] at h

/-- A form that parses as a restore names no digest, or one that is hex. -/
theorem isHex64_of_parse {form : DocForm} {version expected : ℕ} {digest reason : String}
    (h : parse form = .ok (.restore version (some digest), expected, reason)) : isHex64 digest = true := by
  unfold parse at h
  split at h
  · cases h
  · obtain ⟨op, hop, hrest⟩ := bind_eq_ok.mp h
    obtain ⟨r, -, hret⟩ := bind_eq_ok.mp hrest
    cases hret
    exact isHex64_of_expectedDigestOf (expectedDigestOf_of_opOf hop)

/-- What stands behind a request that writes: the guard, the form it was parsed from, the store alerts, every
confirmation its gate asked for and, for a restore, the row. -/
structure Gated (m : StoreModule) (state : AppState) (session : Operator) (form : DocForm) (r : DocRequest) :
    Prop where
  csrf : form.csrf ≠ "" ∧ form.csrf = session.csrf
  subject : session.sub ∈ state.allowedSubjects
  parsed : ∃ op, parse form = .ok (op, r.expectedVersion, r.reason) ∧ r.ops = [op]
  alerts : Fleet.Quiet m.metrics ∨ trim form.confirmSignal = signalPhrase
  confirmed : ∀ op ∈ r.ops, ∀ n ∈ (gate m op).needed, trim (form.typed n.field) = n.phrase
  row : ∀ version named, .restore version named ∈ r.ops → ∃ digest series, named = some digest ∧
    isHex64 digest = true ∧ m.installed = .ok series ∧ RowStands series version digest form.confirmVersion

theorem mem_needed_of_forSignals {m : StoreModule} {n : Needed}
    (h : forSignals (Fleet.read m.metrics).storeAlerts = some n) (op : DocOp) : n ∈ (gate m op).needed := by
  unfold gate
  rw [h]
  dsimp only
  split <;> simp

/-- Two confirmations of one gate differ in their field and in their phrase. -/
theorem needed_pairwise (m : StoreModule) (op : DocOp) :
    (gate m op).needed.Pairwise fun n n' => n.field ≠ n'.field ∧ n.phrase ≠ n'.phrase := by
  unfold gate
  dsimp only
  cases hn : forSignals (Fleet.read m.metrics).storeAlerts with
  | none => split <;> simp
  | some n =>
    split
    case h_3 version why _ => simpa using field_ne_phrase_ne hn version why
    all_goals simp

/-- A preview sends nothing but a dry run. -/
theorem dryRun_of_preview {state : AppState} {session : Operator} {form : DocForm} {r : DocRequest}
    (h : r ∈ (preview state session form).sent) : r.dryRun = true := by
  unfold preview at h
  split at h
  · cases h
  · cases h
  · split at h
    · cases h
    · rename_i op expected reason _
      have hr : r = ⟨expected, actorOf state session, reason, true, [op]⟩ := by
        dsimp only at h
        split at h
        · simpa using h
        · split at h
          · simpa using h
          · split at h
            · simpa using h
            · cases op <;> simpa using h
      rw [hr]

theorem gated_of_commit {state : AppState} {session : Operator} {form : DocForm} {r : DocRequest}
    (h : r ∈ (commit state session form).sent) :
    ∃ m, state.store = some m ∧ Gated m state session form r := by
  unfold commit at h
  split at h
  · cases h
  · cases h
  rename_i m hstore hguard
  split at h
  · cases h
  rename_i op expected reason hparse
  dsimp only at h
  split at h
  · cases h
  · cases h
  rename_i hrefused hmissing
  obtain rfl := List.mem_singleton.mp h
  obtain ⟨hcsrf, hsame, hsub⟩ := guardWrite_eq_ok hguard
  have htyped := missing_eq_none_iff.mp hmissing
  refine ⟨m, ?_, ⟨⟨hcsrf, hsame⟩, hsub, ⟨op, hparse, rfl⟩, ?_, ?_, ?_⟩⟩
  · unfold storeOf at hstore
    split at hstore
    · rename_i m' hm'
      cases hstore
      exact hm'
    · cases hstore
  · cases hsignal : forSignals (Fleet.read m.metrics).storeAlerts with
    | none => exact .inl ((forSignals_eq_none_iff m.metrics).mp hsignal)
    | some n =>
      have hn := htyped n (mem_needed_of_forSignals hsignal op)
      obtain ⟨hfield, hphrase⟩ := forSignals_field hsignal
      rw [hfield, hphrase] at hn
      exact .inr hn
  · intro op' hop'
    rw [List.mem_singleton.mp hop']
    exact htyped
  · intro version named hop
    obtain rfl := List.mem_singleton.mp hop
    obtain ⟨digest, series, hnamed, hinst, hrow⟩ := rowStands_of_gate hrefused hmissing
    subst hnamed
    exact ⟨digest, series, rfl, isHex64_of_parse hparse, hinst, hrow⟩

/-- A document write is sent only past its gate: a preview sends dry runs only, a commit sends what stands
past the guard, the alerts and the row, a raised alert is always asked about by name, and no confirmation
stands in for another. -/
theorem write_gated (state : AppState) (session : Operator) (form : DocForm) :
    (∀ r ∈ (preview state session form).sent, r.dryRun = true) ∧
    (∀ r ∈ (commit state session form).sent, ∃ m, state.store = some m ∧ Gated m state session form r) ∧
    ∀ (m : StoreModule) (op : DocOp),
      (∀ alerts, m.metrics.alerts = .ok alerts → ∀ a ∈ alerts, Fleet.Raised storeAlerts a →
        ∃ who, .signal who ∈ (gate m op).needed ∧ Fleet.nameOf a ∈ who) ∧
      (gate m op).needed.Pairwise fun n n' => n.field ≠ n'.field ∧ n.phrase ≠ n'.phrase := by
  refine ⟨fun r h => dryRun_of_preview h, fun r h => gated_of_commit h,
    fun m op => ⟨fun alerts halerts a ha hraised => ?_, needed_pairwise m op⟩⟩
  obtain ⟨who, hwho, hmem⟩ := forSignals_of_raised halerts ha hraised
  exact ⟨who, mem_needed_of_forSignals hwho op, hmem⟩

/-- A metrics store with one reader up that exports both alerts quietly, and a store that accepts. -/
def quietStore (alert : ℚ) (seen : List Series) : StoreModule where
  document _ := .ok ⟨200, .null⟩
  metrics :=
    { up := .ok [⟨[("stack", "k3s"), ("pod", "lb-a")], some 1⟩]
      sets := .error "unreadable"
      docs := .error "unreadable"
      alerts := .ok [⟨[("stack", "k3s"), ("pod", "lb-a"), ("alert", "store_behind")], some 0⟩,
        ⟨[("stack", "k3s"), ("pod", "lb-a"), ("alert", "store_edited")], some alert⟩]
      unmatched := .error "unreadable"
      toml := .error "unreadable" }
  installed := .ok seen

def ana : Operator := ⟨⟨"sid", "token", 0, 0⟩, "ana", none⟩

def rowDigest : String := String.ofList (List.replicate 64 'a')

def restoreForm (confirmSignal confirmVersion : String) : DocForm :=
  { csrf := "token", op := "restore", expectedVersion := "9", version := "7", expectedDigest := rowDigest,
    reason := "roll back", confirmSignal := confirmSignal, confirmVersion := confirmVersion }

def installedAs (digest : String) : List Series := [⟨[("version", "7"), ("digest", digest)], some 1⟩]

def stateOf (m : StoreModule) : AppState := ⟨some m, ["ana"], id⟩

/-- A restore of a row on record is sent, and past a raised alert only with the phrase in its own field. -/
theorem write_gated_restore :
    (commit (stateOf (quietStore 0 (installedAs rowDigest))) ana (restoreForm "" "")).sent =
      [⟨9, "ana", "roll back", false, [.restore 7 (some rowDigest)]⟩] ∧
    (commit (stateOf (quietStore 1 (installedAs rowDigest))) ana (restoreForm "" "write anyway")).sent =
      [] ∧
    (∃ m, (stateOf (quietStore 0 (installedAs rowDigest))).store = some m ∧
      Gated m (stateOf (quietStore 0 (installedAs rowDigest))) ana (restoreForm "" "")
        ⟨9, "ana", "roll back", false, [.restore 7 (some rowDigest)]⟩) := by
  have hsent : (commit (stateOf (quietStore 0 (installedAs rowDigest))) ana (restoreForm "" "")).sent =
      [⟨9, "ana", "roll back", false, [.restore 7 (some rowDigest)]⟩] := by decide +kernel
  refine ⟨hsent, by decide +kernel, ?_⟩
  exact (write_gated _ ana (restoreForm "" "")).2.1 _ (by rw [hsent]; exact List.mem_singleton.mpr rfl)

end Alaya.Console
