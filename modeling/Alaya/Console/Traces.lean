import Alaya.Console.Writes

/-!
# The traces of a write

What a write exports as committed is what the store's answer says it wrote, read against the ops that were sent: every
result in its place, or nothing.  The text of a minted key is no part of any trace but the page that shows it.
-/

namespace Alaya.Console

open Json

/-! ### Results read against the ops sent -/

/-- A result that answers its op: under its name, in its state, with a version, and saying whether it was written. -/
structure Reads (r : Value) (asked : RestrictionOp) (version : ℕ) (written : Bool) : Prop where
  named : isName asked.name = true
  name : member r "name" = some (.string asked.name)
  state : member r "state" = some (.string asked.state.asStr)
  version : ∃ n : UInt64, member r "version" = some (.number (.posInt n)) ∧ n.toNat = version
  written : member r "written" = some (.bool written)

/-- One result for each op, in order; the records of those that were written. -/
inductive Written : List Value → List RestrictionOp → List Op → Prop where
  | nil : Written [] [] []
  | wrote {r rs asked ops done version} (hread : Reads r asked version true) (hrest : Written rs ops done) :
    Written (r :: rs) (asked :: ops) (⟨asked.name, asked.state, version⟩ :: done)
  | kept {r rs asked ops done version} (hread : Reads r asked version false) (hrest : Written rs ops done) :
    Written (r :: rs) (asked :: ops) done

theorem asU64_eq_some {v : Value} {n : UInt64} : v.asU64 = some n ↔ v = .number (.posInt n) := by
  constructor
  · intro h
    unfold Value.asU64 at h
    split at h
    · cases h
      rfl
    · cases h
  · rintro rfl
    rfl

theorem bind_asArray_eq_some {v : Option Value} {xs : List Value} :
    v.bind Value.asArray = some xs ↔ v = some (.array xs) := by
  rw [Option.bind_eq_some_iff]
  constructor
  · rintro ⟨v, rfl, h⟩
    unfold Value.asArray at h
    split at h
    · cases h
      rfl
    · cases h
  · rintro rfl
    exact ⟨_, rfl, rfl⟩

theorem bind_asStr_eq_some {v : Option Value} {s : String} : v.bind Value.asStr = some s ↔ v = some (.string s) := by
  rw [Option.bind_eq_some_iff]
  constructor
  · rintro ⟨_, rfl, h⟩
    rw [Value.asStr_eq_some.mp h]
  · rintro rfl
    exact ⟨_, rfl, rfl⟩

theorem parse_eq_some {s : String} {state : RecordState} : RecordState.parse s = some state ↔ s = state.asStr := by
  constructor
  · intro h
    unfold RecordState.parse at h
    split at h
    · next hs =>
      cases h
      exact hs
    · split at h
      · next hs =>
        cases h
        exact hs
      · cases h
  · rintro rfl
    exact parse_asStr state

theorem resultOp_eq_some {r : Value} {op : Op} : resultOp r = some op ↔
    isName op.name = true ∧ member r "name" = some (.string op.name) ∧ member r "state" = some (.string op.state.asStr) ∧
      ∃ n : UInt64, member r "version" = some (.number (.posInt n)) ∧ n.toNat = op.version := by
  unfold resultOp
  constructor
  · intro h
    obtain ⟨name, hname, h⟩ := Option.bind_eq_some_iff.mp h
    obtain ⟨state, hstate, h⟩ := Option.bind_eq_some_iff.mp h
    obtain ⟨version, hversion, h⟩ := Option.bind_eq_some_iff.mp h
    obtain ⟨hname, hnamed⟩ := Option.filter_eq_some_iff.mp hname
    obtain ⟨text, htext, hstate⟩ := Option.bind_eq_some_iff.mp hstate
    obtain ⟨number, hnumber, hversion⟩ := Option.bind_eq_some_iff.mp hversion
    rw [parse_eq_some.mp hstate] at htext
    rw [asU64_eq_some.mp hversion] at hnumber
    cases h
    exact ⟨hnamed, bind_asStr_eq_some.mp hname, bind_asStr_eq_some.mp htext, version, hnumber, rfl⟩
  · rintro ⟨hnamed, hname, hstate, n, hnumber, hversion⟩
    rw [bind_asStr_eq_some.mpr hname, bind_asStr_eq_some.mpr hstate, hnumber]
    show ((some op.name).filter isName).bind (fun name => (RecordState.parse op.state.asStr).bind fun state =>
      some (Op.mk name state n.toNat)) = some op
    rw [Option.filter_some, if_pos hnamed, parse_asStr, hversion]
    rfl

theorem writtenOp_eq_ok {r : Value} {asked : RestrictionOp} {o : Option Op} : writtenOp r asked = .ok o ↔
    ∃ version written, Reads r asked version written ∧
      o = if written then some ⟨asked.name, asked.state, version⟩ else none := by
  unfold writtenOp
  constructor
  · intro h
    split at h
    · cases h
    · next op hop =>
      obtain ⟨hnamed, hname, hstate, hversion⟩ := resultOp_eq_some.mp hop
      split at h
      · next hasked =>
        rw [hasked.1] at hnamed hname
        rw [hasked.2] at hstate
        split at h
        · next hwritten =>
          cases h
          refine ⟨op.version, true, ⟨hnamed, hname, hstate, hversion, hwritten⟩, ?_⟩
          rw [if_pos rfl, ← hasked.1, ← hasked.2]
        · next hwritten =>
          cases h
          exact ⟨op.version, false, ⟨hnamed, hname, hstate, hversion, hwritten⟩, rfl⟩
        · cases h
      · cases h
  · rintro ⟨version, written, hread, rfl⟩
    have hop : resultOp r = some ⟨asked.name, asked.state, version⟩ :=
      resultOp_eq_some.mpr ⟨hread.named, hread.name, hread.state, hread.version⟩
    rw [hop, hread.written]
    cases written with
    | true => exact if_pos ⟨rfl, rfl⟩
    | false => exact if_pos ⟨rfl, rfl⟩

theorem map_eq_ok {ε α β : Type} {x : Except ε α} {f : α → β} {b : β} :
    x.map f = .ok b ↔ ∃ a, x = .ok a ∧ f a = b := by
  cases x <;> simp [Except.map]

theorem map_eq_error {ε α β : Type} {x : Except ε α} {f : α → β} {e : ε} (h : x.map f = .error e) : x = .error e := by
  cases x with
  | error _ =>
    cases h
    rfl
  | ok _ => cases h

theorem mapM_single_error {ε α β : Type} {f : α → Except ε β} {x : α} {e : ε} (h : [x].mapM f = .error e) :
    f x = .error e := by
  rw [List.mapM_cons] at h
  cases hx : f x with
  | error _ =>
    rw [hx] at h
    cases h
    rfl
  | ok _ =>
    rw [hx] at h
    cases h

/-- Reading the results one by one, each against its op. -/
theorem written_iff {rs : List Value} : ∀ {ops : List RestrictionOp} {done : List Op}, Written rs ops done ↔
    rs.length = ops.length ∧
      ∃ os, (rs.zip ops).mapM (fun p => writtenOp p.1 p.2) = .ok os ∧ os.filterMap id = done := by
  induction rs with
  | nil =>
    intro ops done
    constructor
    · intro h
      cases h
      exact ⟨rfl, [], rfl, rfl⟩
    · rintro ⟨hlength, os, hmap, rfl⟩
      obtain rfl := List.length_eq_zero_iff.mp hlength.symm
      cases hmap
      exact .nil
  | cons r rs ih =>
    intro ops done
    constructor
    · intro h
      cases h with
      | wrote hread hrest =>
        obtain ⟨hlength, os, hmap, rfl⟩ := ih.mp hrest
        refine ⟨congrArg (· + 1) hlength, some _ :: os, ?_, rfl⟩
        rw [List.zip_cons_cons, List.mapM_cons]
        exact bind_eq_ok.mpr ⟨_, writtenOp_eq_ok.mpr ⟨_, _, hread, rfl⟩, bind_eq_ok.mpr ⟨os, hmap, rfl⟩⟩
      | kept hread hrest =>
        obtain ⟨hlength, os, hmap, rfl⟩ := ih.mp hrest
        refine ⟨congrArg (· + 1) hlength, none :: os, ?_, rfl⟩
        rw [List.zip_cons_cons, List.mapM_cons]
        exact bind_eq_ok.mpr ⟨_, writtenOp_eq_ok.mpr ⟨_, _, hread, rfl⟩, bind_eq_ok.mpr ⟨os, hmap, rfl⟩⟩
    · rintro ⟨hlength, os, hmap, rfl⟩
      cases ops with
      | nil => cases hlength
      | cons asked ops =>
        rw [List.zip_cons_cons, List.mapM_cons] at hmap
        obtain ⟨o, ho, hmap⟩ := bind_eq_ok.mp hmap
        obtain ⟨os, hos, hmap⟩ := bind_eq_ok.mp hmap
        cases hmap
        have hrest := ih.mpr ⟨Nat.succ.inj hlength, os, hos, rfl⟩
        obtain ⟨version, written, hread, rfl⟩ := writtenOp_eq_ok.mp ho
        cases written with
        | true => exact .wrote hread hrest
        | false => exact .kept hread hrest

theorem writtenOps_eq_ok {body : Value} {ops : List RestrictionOp} {done : List Op} :
    writtenOps body ops = .ok done ↔ ∃ rs, member body "results" = some (.array rs) ∧ Written rs ops done := by
  unfold writtenOps
  constructor
  · intro h
    split at h
    · cases h
    · next rs hrs =>
      split at h
      · cases h
      · next hlength =>
        exact ⟨rs, bind_asArray_eq_some.mp hrs, written_iff.mpr ⟨not_not.mp hlength, map_eq_ok.mp h⟩⟩
  · rintro ⟨rs, hmember, hwritten⟩
    rw [bind_asArray_eq_some.mpr hmember]
    obtain ⟨hlength, hmap⟩ := written_iff.mp hwritten
    dsimp only
    rw [if_neg (not_not.mpr hlength)]
    exact map_eq_ok.mpr hmap

/-! ### A commit read against the ops sent -/

/-- The clients of the `add_key` ops, in order. -/
def addKeyNames (ops : List DocOp) : List String :=
  ops.filterMap fun op => match op with
    | .addKey name _ => some name
    | _ => none

/-- A key that authenticates the client its op is for. -/
structure Authentic (sha256 : String → String) (k : Value) (client : String) : Prop where
  client : textOf k "client" = client
  id : isKeyId (textOf k "id") = true
  key : isMintedKey (textOf k "key") = true
  digest : isHex64 (textOf k "digest") = true
  hashes : sha256 (textOf k "key") = textOf k "digest"

/-- An answer from which a commit is read: its version and digest, and one authentic key for each `add_key` op. -/
structure ReadsCommit (sha256 : String → String) (body : Value) (ops : List DocOp) (version : ℕ) (digest : String) :
    Prop where
  version : ∃ n : UInt64, member body "version" = some (.number (.posInt n)) ∧ 1 ≤ n ∧ n.toNat = version
  digest : member body "digest" = some (.string digest) ∧ isHex64 digest = true
  keys : ∃ ks, (member body "keys" = some (.array ks) ∨ member body "keys" = none ∧ ks = [] ∧ addKeyNames ops = []) ∧
    List.Forall₂ (Authentic sha256) ks (addKeyNames ops)

theorem mintedKey_eq (sha256 : String → String) (k : Value) (client : String) : mintedKey sha256 k client =
    if textOf k "client" ≠ client then .error "a key names another client than its op"
    else if !isKeyId (textOf k "id") || !isMintedKey (textOf k "key") || !isHex64 (textOf k "digest") then
      .error "a key is malformed"
    else if sha256 (textOf k "key") ≠ textOf k "digest" then
      .error ("key " ++ textOf k "id" ++ " does not hash to its digest")
    else .ok ⟨client, textOf k "id", textOf k "key", textOf k "digest"⟩ := rfl

theorem mintedKey_eq_ok {sha256 : String → String} {k : Value} {client : String} {m : MintedKey} :
    mintedKey sha256 k client = .ok m ↔
      Authentic sha256 k client ∧ m = ⟨client, textOf k "id", textOf k "key", textOf k "digest"⟩ := by
  rw [mintedKey_eq]
  constructor
  · intro h
    split at h
    · cases h
    · next hclient =>
      split at h
      · cases h
      · next hshape =>
        simp only [Bool.or_eq_true, Bool.not_eq_true', not_or, Bool.not_eq_false] at hshape
        split at h
        · cases h
        · next hhash =>
          cases h
          exact ⟨⟨not_not.mp hclient, hshape.1.1, hshape.1.2, hshape.2, not_not.mp hhash⟩, rfl⟩
  · rintro ⟨hkey, rfl⟩
    rw [if_neg (not_not.mpr hkey.client), hkey.id, hkey.key, hkey.digest, if_neg (by decide),
      if_neg (not_not.mpr hkey.hashes)]

theorem keysOf_eq_ok {body : Value} {wanted : List String} {ks : List Value} : keysOf body wanted = .ok ks ↔
    member body "keys" = some (.array ks) ∨ member body "keys" = none ∧ ks = [] ∧ wanted = [] := by
  unfold keysOf
  constructor
  · intro h
    split at h
    · next hkeys =>
      cases h
      exact .inl hkeys
    · next hnone =>
      split at h
      · next hwanted =>
        cases h
        exact .inr ⟨hnone, rfl, List.isEmpty_iff.mp hwanted⟩
      · cases h
    · cases h
  · rintro (hkeys | ⟨hnone, rfl, rfl⟩)
    · rw [hkeys]
    · rw [hnone]
      rfl

/-- Each key is read against the client of its op. -/
theorem mapM_mintedKey {sha256 : String → String} {ks : List Value} : ∀ {clients : List String},
    (ks.length = clients.length ∧ ∃ minted, (ks.zip clients).mapM (fun p => mintedKey sha256 p.1 p.2) = .ok minted) ↔
      List.Forall₂ (Authentic sha256) ks clients := by
  induction ks with
  | nil =>
    intro clients
    constructor
    · rintro ⟨hlength, -⟩
      obtain rfl := List.length_eq_zero_iff.mp hlength.symm
      exact .nil
    · intro h
      cases h
      exact ⟨rfl, [], rfl⟩
  | cons k ks ih =>
    intro clients
    constructor
    · rintro ⟨hlength, minted, hmap⟩
      cases clients with
      | nil => cases hlength
      | cons client clients =>
        rw [List.zip_cons_cons, List.mapM_cons] at hmap
        obtain ⟨m, hm, hmap⟩ := bind_eq_ok.mp hmap
        obtain ⟨ms, hms, -⟩ := bind_eq_ok.mp hmap
        exact .cons (mintedKey_eq_ok.mp hm).1 (ih.mp ⟨Nat.succ.inj hlength, ms, hms⟩)
    · intro h
      cases h with
      | cons hkey hrest =>
        obtain ⟨hlength, ms, hms⟩ := ih.mpr hrest
        rw [List.zip_cons_cons, List.mapM_cons]
        exact ⟨congrArg (· + 1) hlength, _,
          bind_eq_ok.mpr ⟨_, mintedKey_eq_ok.mpr ⟨hkey, rfl⟩, bind_eq_ok.mpr ⟨ms, hms, rfl⟩⟩⟩

theorem filter_asU64_eq_some {v : Option Value} {n : UInt64} :
    (v.bind Value.asU64).filter (1 ≤ ·) = some n ↔ v = some (.number (.posInt n)) ∧ 1 ≤ n := by
  rw [Option.filter_eq_some_iff, Option.bind_eq_some_iff, decide_eq_true_eq]
  constructor
  · rintro ⟨⟨_, rfl, h⟩, hpos⟩
    rw [asU64_eq_some.mp h]
    exact ⟨rfl, hpos⟩
  · rintro ⟨rfl, hpos⟩
    exact ⟨⟨_, rfl, rfl⟩, hpos⟩

theorem filter_isHex64_eq_some {v : Option Value} {digest : String} :
    (v.bind Value.asStr).filter isHex64 = some digest ↔ v = some (.string digest) ∧ isHex64 digest = true := by
  rw [Option.filter_eq_some_iff, bind_asStr_eq_some]

/-- What the keys of an answer with a version and a digest add. -/
theorem commitOf_of_head {sha256 : String → String} {body : Value} {n : UInt64} {digest : String}
    (hn : ((member body "version").bind Value.asU64).filter (1 ≤ ·) = some n)
    (hdigest : ((member body "digest").bind Value.asStr).filter isHex64 = some digest) (ops : List DocOp) :
    commitOf sha256 body ops = (keysOf body (addKeyNames ops)).bind fun ks =>
      if ks.length ≠ (addKeyNames ops).length then
        .error (toString ks.length ++ " keys for " ++ toString (addKeyNames ops).length ++ " add_key ops")
      else ((ks.zip (addKeyNames ops)).mapM fun p => mintedKey sha256 p.1 p.2).map (Commit.mk n.toNat digest) := by
  unfold commitOf
  rw [hn, hdigest]
  rfl

theorem commitOf_eq_ok {sha256 : String → String} {body : Value} {ops : List DocOp} {version : ℕ} {digest : String} :
    (∃ c, commitOf sha256 body ops = .ok c ∧ c.version = version ∧ c.digest = digest) ↔
      ReadsCommit sha256 body ops version digest := by
  constructor
  · rintro ⟨c, h, rfl, rfl⟩
    cases hn : ((member body "version").bind Value.asU64).filter (1 ≤ ·) with
    | none =>
      unfold commitOf at h
      rw [hn] at h
      cases h
    | some n =>
      cases hdigest : ((member body "digest").bind Value.asStr).filter isHex64 with
      | none =>
        unfold commitOf at h
        rw [hn, hdigest] at h
        cases h
      | some digest =>
        rw [commitOf_of_head hn hdigest] at h
        obtain ⟨ks, hks, h⟩ := bind_eq_ok.mp h
        split at h
        · cases h
        · next hlength =>
          obtain ⟨minted, hminted, rfl⟩ := map_eq_ok.mp h
          obtain ⟨hn, hpos⟩ := filter_asU64_eq_some.mp hn
          exact ⟨⟨n, hn, hpos, rfl⟩, filter_isHex64_eq_some.mp hdigest,
            ⟨ks, keysOf_eq_ok.mp hks, mapM_mintedKey.mp ⟨not_not.mp hlength, minted, hminted⟩⟩⟩
  · rintro ⟨⟨n, hn, hpos, rfl⟩, hdigest, ⟨ks, hks, hkeys⟩⟩
    obtain ⟨hlength, minted, hminted⟩ := mapM_mintedKey.mpr hkeys
    refine ⟨⟨n.toNat, digest, minted⟩, ?_, rfl, rfl⟩
    rw [commitOf_of_head (filter_asU64_eq_some.mpr ⟨hn, hpos⟩) (filter_isHex64_eq_some.mpr hdigest)]
    refine bind_eq_ok.mpr ⟨ks, keysOf_eq_ok.mpr hks, ?_⟩
    rw [if_neg (not_not.mpr hlength)]
    exact map_eq_ok.mpr ⟨minted, hminted, rfl⟩

/-! ### Exported as committed -/

/-- The store's reply is a 200 that says what was written. -/
def SaysWritten (reply : Except String Answer) (ops : List RestrictionOp) (done : List Op) : Prop :=
  ∃ a rs, reply = .ok a ∧ a.status = 200 ∧ member a.body "results" = some (.array rs) ∧ Written rs ops done

/-- The store's reply is a 200 from which a commit is read. -/
def SaysCommitted (sha256 : String → String) (reply : Except String Answer) (ops : List DocOp) (version : ℕ)
    (digest : String) : Prop :=
  ∃ a, reply = .ok a ∧ a.status = 200 ∧ ReadsCommit sha256 a.body ops version digest

theorem posted_eq_ok {lib : Libraries} {a b : Answer} : posted lib a = .ok b ↔ a = b ∧ a.body.asObject.isSome = true := by
  unfold posted
  split
  · next hobject => exact ⟨fun h => ⟨Except.ok.inj h, hobject⟩, fun h => congrArg Except.ok h.1⟩
  · next hobject => exact ⟨nofun, fun h => absurd h.2 hobject⟩

theorem isSome_of_member {v w : Value} {k : String} (h : member v k = some w) : v.asObject.isSome = true := by
  obtain ⟨o, ho, -⟩ := Option.bind_eq_some_iff.mp h
  rw [ho]
  rfl

/-- A reply that reads is exported as it reads. -/
theorem sendRecorded_reads {lib : Libraries} {sub kind : String} {body : Value}
    {exported : Value → Committed → Committed} {a : Answer} {c : Committed} (hstatus : a.status = 200) {k : String}
    {w : Value} (hmember : member a.body k = some w) :
    (sendRecorded lib sub kind body exported (.ok a) c).committed = exported a.body c := by
  have hposted : posted lib a = .ok a := posted_eq_ok.mpr ⟨rfl, isSome_of_member hmember⟩
  show exportedAfter exported c (posted lib a) = _
  rw [hposted]
  exact if_pos hstatus

/-- A reply of which no 200's body exports anything exports nothing. -/
theorem sendRecorded_silent {lib : Libraries} {sub kind : String} {body : Value}
    {exported : Value → Committed → Committed} {reply : Except String Answer} {c : Committed}
    (h : ∀ a, reply = .ok a → a.status = 200 → exported a.body c = c) :
    (sendRecorded lib sub kind body exported reply c).committed = c := by
  show exportedAfter exported c (reply.bind (posted lib)) = c
  cases ha : reply.bind (posted lib) with
  | ok a =>
    obtain ⟨raw, hraw, hposted⟩ := bind_eq_ok.mp ha
    obtain ⟨rfl, -⟩ := posted_eq_ok.mp hposted
    show (if raw.status = 200 then exported raw.body c else c) = c
    split
    · next hstatus => exact h raw hraw hstatus
    · rfl
  | error e => rfl

theorem restrict_exports (lib : Libraries) (sub : String) (ops : List RestrictionOp) (reply : Except String Answer)
    (reread : Except String Value) (clock : ℕ → Int64) (now : Int64) (c : Committed) :
    (∀ done, SaysWritten reply ops done →
      (restrict lib sub ops reply reread clock now c).committed = recordAll clock done c) ∧
    ((∀ done, ¬SaysWritten reply ops done) → (restrict lib sub ops reply reread clock now c).committed = c) := by
  constructor
  · rintro done ⟨a, rs, rfl, hstatus, hresults, hwritten⟩
    unfold restrict
    dsimp only
    rw [sendRecorded_reads hstatus hresults]
    unfold exportRestrictions
    rw [writtenOps_eq_ok.mpr ⟨rs, hresults, hwritten⟩]
  · intro hnone
    unfold restrict
    dsimp only
    rw [sendRecorded_silent]
    intro a ha hstatus
    unfold exportRestrictions
    split
    · next done hdone =>
      obtain ⟨rs, hresults, hwritten⟩ := writtenOps_eq_ok.mp hdone
      exact absurd ⟨a, rs, ha, hstatus, hresults, hwritten⟩ (hnone done)
    · rfl

theorem sendDocument_exports (lib : Libraries) (sub : String) (request : DocRequest) (reply : Except String Answer)
    (seenAt : Int64) (c : Committed) :
    (∀ version digest, SaysCommitted lib.sha256 reply request.ops version digest →
      (sendDocument lib sub request reply seenAt c).committed = c.document version digest seenAt.toInt) ∧
    ((∀ version digest, ¬SaysCommitted lib.sha256 reply request.ops version digest) →
      (sendDocument lib sub request reply seenAt c).committed = c) := by
  constructor
  · rintro version digest ⟨a, rfl, hstatus, hreads⟩
    obtain ⟨n, hn, -⟩ := hreads.version
    obtain ⟨commit, hcommit, rfl, rfl⟩ := commitOf_eq_ok.mpr hreads
    unfold sendDocument
    rw [sendRecorded_reads hstatus hn]
    unfold exportDocument
    rw [hcommit]
  · intro hnone
    unfold sendDocument
    rw [sendRecorded_silent]
    intro a ha hstatus
    unfold exportDocument
    split
    · next commit hcommit =>
      exact absurd ⟨a, ha, hstatus, commitOf_eq_ok.mp ⟨commit, hcommit, rfl, rfl⟩⟩ (hnone _ _)
    · rfl

/-! ### Answers without their key texts -/

/-- A listed key with its text taken out. -/
def eraseKeyText : Value → Value
  | .object o => .object (Object.erase "key" o)
  | v => v

def eraseKeyTexts : Value → Value
  | .array ks => .array (ks.map eraseKeyText)
  | v => v

/-- An answer with the text of every listed key taken out. -/
def withoutKeyTexts : Value → Value
  | .object o => .object (o.map fun (k, v) => (k, if k = "keys" then eraseKeyTexts v else v))
  | v => v

/-- Two answers that differ at most in the texts of the keys they list. -/
def SameButKeyTexts (a b : Answer) : Prop := a.status = b.status ∧ withoutKeyTexts a.body = withoutKeyTexts b.body

theorem member_eraseKeyText {k : Value} {f : String} (hf : f ≠ "key") : member (eraseKeyText k) f = member k f := by
  cases k with
  | object o => exact Object.get_erase_of_ne hf o
  | _ => rfl

theorem textOf_eraseKeyText {k : Value} {f : String} (hf : f ≠ "key") : textOf (eraseKeyText k) f = textOf k f := by
  unfold textOf
  rw [member_eraseKeyText hf]

theorem member_withoutKeyTexts (v : Value) (k : String) :
    member (withoutKeyTexts v) k = (member v k).map fun w => if k = "keys" then eraseKeyTexts w else w := by
  cases v with
  | object o =>
    show Object.get (o.map _) k = (Object.get o k).map _
    induction o with
    | nil => rfl
    | cons m o ih =>
      obtain ⟨l, w⟩ := m
      rw [List.map_cons, Object.get_cons, Object.get_cons]
      split
      · next hl =>
        rw [hl]
        rfl
      · exact ih
  | _ => rfl

theorem loggableKey_eraseKeyText (k : Value) : loggableKey (eraseKeyText k) = loggableKey k := by
  unfold loggableKey
  rw [member_eraseKeyText (f := "client") (by decide), member_eraseKeyText (f := "digest") (by decide),
    member_eraseKeyText (f := "id") (by decide)]

theorem map_loggableKey (ks : List Value) : (ks.map eraseKeyText).map loggableKey = ks.map loggableKey := by
  rw [List.map_map]
  exact List.map_congr_left fun k _ => loggableKey_eraseKeyText k

section SameButKeyTexts

variable {a b : Answer} (h : SameButKeyTexts a b)

include h

theorem SameButKeyTexts.member_eq {k : String} (hk : k ≠ "keys") : member a.body k = member b.body k := by
  have hmember := congrArg (fun v => member v k) h.2
  simp only [member_withoutKeyTexts, if_neg hk, Option.map_id'] at hmember
  exact hmember

/-- The keys listed are the same, up to their texts. -/
theorem SameButKeyTexts.keys_eq :
    (member a.body "keys").map eraseKeyTexts = (member b.body "keys").map eraseKeyTexts := by
  have hmember := congrArg (fun v => member v "keys") h.2
  simp only [member_withoutKeyTexts, if_true] at hmember
  exact hmember

theorem SameButKeyTexts.isObject_eq : a.body.asObject.isSome = b.body.asObject.isSome := by
  have hobject : ∀ v, (withoutKeyTexts v).asObject.isSome = v.asObject.isSome := by
    intro v
    cases v <;> rfl
  rw [← hobject a.body, h.2, hobject]

theorem SameButKeyTexts.refusalLines_eq : refusalLines a.body = refusalLines b.body := by
  unfold refusalLines
  rw [h.member_eq (by decide : "errors" ≠ "keys"), h.member_eq (by decide : "error" ≠ "keys")]

theorem SameButKeyTexts.hasCode_eq (code : String) : hasCode a.body code = hasCode b.body code := by
  unfold hasCode
  rw [h.member_eq (by decide : "errors" ≠ "keys")]

theorem SameButKeyTexts.writtenOps_eq (ops : List RestrictionOp) : writtenOps a.body ops = writtenOps b.body ops := by
  unfold writtenOps
  rw [h.member_eq (by decide : "results" ≠ "keys")]

theorem SameButKeyTexts.outcomeUnknown_eq : outcomeUnknown a = outcomeUnknown b := by
  unfold outcomeUnknown
  rw [h.1]

/-- The lists of keys, up to their texts. -/
theorem SameButKeyTexts.keyList_eq : ((member a.body "keys").bind Value.asArray).map (·.map eraseKeyText) =
    ((member b.body "keys").bind Value.asArray).map (·.map eraseKeyText) := by
  have hlist : ∀ v : Option Value,
      (v.bind Value.asArray).map (·.map eraseKeyText) = (v.map eraseKeyTexts).bind Value.asArray := by
    intro v
    rcases v with _ | v
    · rfl
    · cases v <;> rfl
  rw [hlist, h.keys_eq, hlist]

theorem SameButKeyTexts.keptMembers_eq : keptMembers a.body = keptMembers b.body := by
  unfold keptMembers
  refine List.foldl_ext _ _ _ fun out k hk => ?_
  have hne : k ≠ "keys" := by
    rintro rfl
    revert hk
    decide
  rw [h.member_eq hne]

/-- The write log keeps nothing of a key's text. -/
theorem SameButKeyTexts.loggable_eq : loggable a.body = loggable b.body := by
  have hkeys := h.keyList_eq
  unfold loggable
  rw [h.keptMembers_eq]
  cases ha : (member a.body "keys").bind Value.asArray with
  | none =>
    rw [ha] at hkeys
    rw [Option.map_eq_none_iff.mp hkeys.symm]
  | some ks =>
    rw [ha] at hkeys
    obtain ⟨ks', hb, hsame⟩ := Option.map_eq_some_iff.mp hkeys.symm
    have hlogged : ks.map loggableKey = ks'.map loggableKey := by
      rw [← map_loggableKey ks, ← map_loggableKey ks', hsame]
    rw [hb]
    dsimp only
    rw [hlogged]

theorem SameButKeyTexts.posted_same (lib : Libraries) :
    (posted lib a = .ok a ∧ posted lib b = .ok b) ∨ ∃ e, posted lib a = .error e ∧ posted lib b = .error e := by
  have hobject := h.isObject_eq
  unfold posted
  rw [← hobject, ← h.1]
  split
  · exact .inl ⟨rfl, rfl⟩
  · exact .inr ⟨_, rfl, rfl⟩

theorem SameButKeyTexts.writeLog_eq (lib : Libraries) (sub kind : String) (request : Value) :
    writeLog lib sub kind request (.ok a) = writeLog lib sub kind request (.ok b) := by
  unfold writeLog
  dsimp only
  rw [h.outcomeUnknown_eq, h.loggable_eq, h.1]

/-- The outcomes read alike, up to the key texts of a commit. -/
theorem SameButKeyTexts.outcome_eq : (∃ why, outcome (.ok a) = .unknown why ∧ outcome (.ok b) = .unknown why) ∨
    (outcome (.ok a) = .committed a.body ∧ outcome (.ok b) = .committed b.body) ∨
    (outcome (.ok a) = .refused a.status a.body ∧ outcome (.ok b) = .refused a.status b.body) := by
  unfold outcome
  dsimp only
  rw [← h.outcomeUnknown_eq, ← h.refusalLines_eq, ← h.1]
  split
  · exact .inl ⟨_, rfl, rfl⟩
  · split
    · exact .inr (.inl ⟨rfl, rfl⟩)
    · exact .inr (.inr ⟨rfl, rfl⟩)

theorem SameButKeyTexts.restrictOutcome_eq (lib : Libraries) (reread : Except String Value) (now : Int64)
    (ops : List RestrictionOp) :
    restrictOutcome lib reread now ops (.ok a) = restrictOutcome lib reread now ops (.ok b) := by
  unfold restrictOutcome refusedText
  obtain ⟨why, ha, hb⟩ | ⟨ha, hb⟩ | ⟨ha, hb⟩ := h.outcome_eq
  · rw [ha, hb]
  · rw [ha, hb]
    dsimp only
    rw [h.writtenOps_eq]
  · rw [ha, hb]
    dsimp only
    rw [h.refusalLines_eq, h.hasCode_eq]

theorem SameButKeyTexts.keysOf_eq (wanted : List String) :
    (∃ e, keysOf a.body wanted = .error e ∧ keysOf b.body wanted = .error e) ∨
      ∃ ks ks' : List Value, keysOf a.body wanted = .ok ks ∧ keysOf b.body wanted = .ok ks' ∧
        ks.map eraseKeyText = ks'.map eraseKeyText := by
  have hkeys := h.keys_eq
  unfold keysOf
  cases ha : member a.body "keys" with
  | none =>
    rw [ha] at hkeys
    rw [Option.map_eq_none_iff.mp hkeys.symm]
    dsimp only
    split
    · exact .inr ⟨[], [], rfl, rfl, rfl⟩
    · exact .inl ⟨_, rfl, rfl⟩
  | some v =>
    rw [ha] at hkeys
    obtain ⟨v', hb, hsame⟩ := Option.map_eq_some_iff.mp hkeys.symm
    rw [hb]
    cases v with
    | array ks =>
      cases v' with
      | array ks' => exact .inr ⟨ks, ks', rfl, rfl, (Value.array.inj hsame).symm⟩
      | _ => cases hsame
    | _ =>
      cases v' with
      | array ks' => cases hsame
      | _ => exact .inl ⟨_, rfl, rfl⟩

/-- Two answers are read as commits alike, up to what their keys are read as. -/
theorem SameButKeyTexts.commitOf_eq (sha256 : String → String) (ops : List DocOp) :
    (∃ e, commitOf sha256 a.body ops = .error e ∧ commitOf sha256 b.body ops = .error e) ∨
      ∃ (version : ℕ) (digest : String) (ks ks' : List Value), ks.map eraseKeyText = ks'.map eraseKeyText ∧
        ks.length = (addKeyNames ops).length ∧
        commitOf sha256 a.body ops =
          ((ks.zip (addKeyNames ops)).mapM fun p => mintedKey sha256 p.1 p.2).map (Commit.mk version digest) ∧
        commitOf sha256 b.body ops =
          ((ks'.zip (addKeyNames ops)).mapM fun p => mintedKey sha256 p.1 p.2).map (Commit.mk version digest) := by
  have hversion : ((member a.body "version").bind Value.asU64).filter (1 ≤ ·) =
      ((member b.body "version").bind Value.asU64).filter (1 ≤ ·) := by
    rw [h.member_eq (by decide : "version" ≠ "keys")]
  have hdigests : ((member a.body "digest").bind Value.asStr).filter isHex64 =
      ((member b.body "digest").bind Value.asStr).filter isHex64 := by
    rw [h.member_eq (by decide : "digest" ≠ "keys")]
  cases hn : ((member b.body "version").bind Value.asU64).filter (1 ≤ ·) with
  | none =>
    refine .inl ⟨"no version", ?_, ?_⟩ <;> unfold commitOf
    · rw [hversion, hn]
    · rw [hn]
  | some n =>
    cases hdigest : ((member b.body "digest").bind Value.asStr).filter isHex64 with
    | none =>
      refine .inl ⟨"no digest", ?_, ?_⟩ <;> unfold commitOf
      · rw [hversion, hn, hdigests, hdigest]
      · rw [hn, hdigest]
    | some digest =>
      rw [commitOf_of_head (hversion.trans hn) (hdigests.trans hdigest), commitOf_of_head hn hdigest]
      obtain ⟨e, ha, hb⟩ | ⟨ks, ks', ha, hb, hsame⟩ := h.keysOf_eq (addKeyNames ops)
      · rw [ha, hb]
        exact .inl ⟨e, rfl, rfl⟩
      · have hlength : ks.length = ks'.length := by
          rw [← List.length_map (f := eraseKeyText), hsame, List.length_map]
        rw [ha, hb]
        show (∃ e, (if ks.length ≠ _ then _ else _) = Except.error e ∧ (if ks'.length ≠ _ then _ else _) = Except.error e) ∨ _
        rw [← hlength]
        by_cases hcount : ks.length = (addKeyNames ops).length
        · refine .inr ⟨n.toNat, digest, ks, ks', hsame, hcount, ?_, ?_⟩
          · exact if_neg (not_not.mpr hcount)
          · show (if ks'.length ≠ _ then _ else _) = _
            exact if_neg (not_not.mpr (hlength.symm.trans hcount))
        · exact .inl ⟨_, if_pos hcount, if_pos hcount⟩

end SameButKeyTexts

/-! ### The key texts in the traces -/

/-- A reason for not reading a key that hangs on its text; it names no more of the key than its id. -/
def KeyReason (e : String) : Prop :=
  e = "a key is malformed" ∨ ∃ id, isKeyId id = true ∧ e = "key " ++ id ++ " does not hash to its digest"

theorem mintedKey_eq_error {sha256 : String → String} {k : Value} {client e : String}
    (h : mintedKey sha256 k client = .error e) :
    textOf k "client" ≠ client ∧ e = "a key names another client than its op" ∨
      textOf k "client" = client ∧ KeyReason e := by
  rw [mintedKey_eq] at h
  split at h
  · next hclient =>
    cases h
    exact .inl ⟨hclient, rfl⟩
  · next hclient =>
    refine .inr ⟨not_not.mp hclient, ?_⟩
    split at h
    · cases h
      exact .inl rfl
    · next hshape =>
      simp only [Bool.or_eq_true, Bool.not_eq_true', not_or, Bool.not_eq_false] at hshape
      split at h
      · cases h
        exact .inr ⟨_, hshape.1.1, rfl⟩
      · cases h

/-- Keys that differ at most in their texts fail alike, or for reasons that hang on the texts. -/
theorem mintedKey_error_of_same {sha256 : String → String} {k k' : Value} (hsame : eraseKeyText k = eraseKeyText k')
    {client e e' : String} (h : mintedKey sha256 k client = .error e) (h' : mintedKey sha256 k' client = .error e') :
    e = e' ∨ KeyReason e ∧ KeyReason e' := by
  have hclient : textOf k "client" = textOf k' "client" := by
    rw [← textOf_eraseKeyText (k := k) (by decide), hsame, textOf_eraseKeyText (by decide)]
  obtain ⟨hne, rfl⟩ | ⟨heq, hreason⟩ := mintedKey_eq_error h
  · obtain ⟨-, rfl⟩ | ⟨heq', -⟩ := mintedKey_eq_error h'
    · exact .inl rfl
    · exact absurd (hclient.trans heq') hne
  · obtain ⟨hne', -⟩ | ⟨-, hreason'⟩ := mintedKey_eq_error h'
    · exact absurd (hclient.symm.trans heq) hne'
    · exact .inr ⟨hreason, hreason'⟩

/-- What two commits that differ at most in their key texts show. -/
inductive SamePage (reread : Except String Value) (op : DocOp) : Page → Page → Prop where
  | same (page : Page) : SamePage reread op page page
  /-- Both show the key page. -/
  | keys (c c' : Commit) (effect : String) (hne : c.keys ≠ []) (hne' : c'.keys ≠ []) :
    SamePage reread op (.keys c effect) (.keys c' effect)
  /-- Neither could be read. -/
  | unreadable (e e' : String) (h : KeyReason e) (h' : KeyReason e') :
    SamePage reread op (unreadable reread op e) (unreadable reread op e')

/-- Answers that are both read as commits differ at most in their keys' texts. -/
theorem SameButKeyTexts.commits_same {a b : Answer} (h : SameButKeyTexts a b) {sha256 : String → String}
    {ops : List DocOp} {c c' : Commit} (ha : commitOf sha256 a.body ops = .ok c)
    (hb : commitOf sha256 b.body ops = .ok c') :
    c.version = c'.version ∧ c.digest = c'.digest ∧ c.keys.length = c'.keys.length := by
  obtain ⟨e, herror, -⟩ | ⟨version, digest, ks, ks', hsame, -, hc, hc'⟩ := h.commitOf_eq sha256 ops
  · rw [herror] at ha
    cases ha
  · have hlength : ks.length = ks'.length := by
      rw [← List.length_map (f := eraseKeyText), hsame, List.length_map]
    obtain ⟨minted, hminted, rfl⟩ := map_eq_ok.mp (hc.symm.trans ha)
    obtain ⟨minted', hminted', rfl⟩ := map_eq_ok.mp (hc'.symm.trans hb)
    refine ⟨rfl, rfl, ?_⟩
    show minted.length = minted'.length
    rw [← (Rows.forall₂_of_mapM hminted).length_eq, ← (Rows.forall₂_of_mapM hminted').length_eq, List.length_zip,
      List.length_zip, hlength]

/-- Answers that are both no commit of one op fail alike, or for reasons that hang on a key's text. -/
theorem SameButKeyTexts.reasons_same {a b : Answer} (h : SameButKeyTexts a b) {sha256 : String → String} {op : DocOp}
    {e e' : String} (ha : commitOf sha256 a.body [op] = .error e) (hb : commitOf sha256 b.body [op] = .error e') :
    e = e' ∨ KeyReason e ∧ KeyReason e' := by
  obtain ⟨_, herror, herror'⟩ | ⟨version, digest, ks, ks', hsame, hcount, hc, hc'⟩ := h.commitOf_eq sha256 [op]
  · exact .inl (Except.error.inj ((ha.symm.trans herror).trans (herror'.symm.trans hb)))
  · have hminted := map_eq_error (hc.symm.trans ha)
    have hminted' := map_eq_error (hc'.symm.trans hb)
    cases op with
    | addKey name label =>
      obtain ⟨k, rfl⟩ := List.length_eq_one_iff.mp hcount
      obtain ⟨k', rfl⟩ : ∃ k', ks' = [k'] := by
        refine List.length_eq_one_iff.mp ?_
        rw [← List.length_map (f := eraseKeyText), ← hsame]
        rfl
      exact mintedKey_error_of_same (List.cons.inj hsame).1 (mapM_single_error hminted) (mapM_single_error hminted')
    | _ =>
      obtain rfl := List.length_eq_zero_iff.mp hcount
      cases hminted

theorem saysCommitted_iff {sha256 : String → String} {a : Answer} (hstatus : a.status = 200) (ops : List DocOp) :
    (∃ version digest, SaysCommitted sha256 (.ok a) ops version digest) ↔ ∃ c, commitOf sha256 a.body ops = .ok c := by
  constructor
  · rintro ⟨_, _, _, ha, -, hreads⟩
    cases ha
    obtain ⟨c, hc, -⟩ := commitOf_eq_ok.mpr hreads
    exact ⟨c, hc⟩
  · rintro ⟨c, hc⟩
    exact ⟨_, _, a, rfl, hstatus, commitOf_eq_ok.mp ⟨c, hc, rfl, rfl⟩⟩

theorem status_of_committed {a : Answer} {body : Value} (h : outcome (.ok a) = .committed body) : a.status = 200 := by
  unfold outcome at h
  dsimp only at h
  split at h
  · cases h
  · split at h
    · next hstatus => exact hstatus
    · cases h

theorem outcome_of_committed {a : Answer} (hstatus : a.status = 200) : outcome (.ok a) = .committed a.body := by
  have hknown : outcomeUnknown a = false := by
    unfold outcomeUnknown
    rw [hstatus]
    rfl
  unfold outcome
  dsimp only
  rw [hknown, if_neg Bool.false_ne_true, if_pos hstatus]

/-- A committed answer that cannot be read is reported with the reason. -/
theorem commitPage_of_error {lib : Libraries} {a : Answer} {op : DocOp} {e : String} (hstatus : a.status = 200)
    (hc : commitOf lib.sha256 a.body [op] = .error e) (reread : Except String Value) (now : Int64) :
    commitPage lib reread now op (.ok a) = unreadable reread op e := by
  unfold commitPage
  rw [outcome_of_committed hstatus]
  dsimp only
  rw [hc]

theorem SameButKeyTexts.commitPage_same {a b : Answer} (h : SameButKeyTexts a b) (lib : Libraries)
    (reread : Except String Value) (now : Int64) (op : DocOp)
    (hread : (∃ version digest, SaysCommitted lib.sha256 (.ok a) [op] version digest) ↔
      ∃ version digest, SaysCommitted lib.sha256 (.ok b) [op] version digest) :
    SamePage reread op (commitPage lib reread now op (.ok a)) (commitPage lib reread now op (.ok b)) := by
  obtain ⟨why, ha, hb⟩ | ⟨ha, hb⟩ | ⟨ha, hb⟩ := h.outcome_eq
  · unfold commitPage
    rw [ha, hb]
    exact .same _
  · have hstatus := status_of_committed ha
    rw [saysCommitted_iff hstatus, saysCommitted_iff (h.1.symm.trans hstatus)] at hread
    unfold commitPage
    rw [ha, hb]
    dsimp only
    cases hc : commitOf lib.sha256 a.body [op] with
    | error e =>
      cases hc' : commitOf lib.sha256 b.body [op] with
      | error e' =>
        obtain rfl | ⟨hreason, hreason'⟩ := h.reasons_same hc hc'
        · exact .same _
        · exact .unreadable e e' hreason hreason'
      | ok c' =>
        obtain ⟨c, hok⟩ := hread.mpr ⟨c', hc'⟩
        rw [hc] at hok
        cases hok
    | ok c =>
      obtain ⟨c', hc'⟩ := hread.mp ⟨c, hc⟩
      obtain ⟨hversion, hdigest, hkeys⟩ := h.commits_same hc hc'
      rw [hc']
      dsimp only
      rw [hversion, hdigest]
      by_cases hnil : c.keys = []
      · have hnil' : c'.keys = [] := List.length_eq_zero_iff.mp (hkeys.symm.trans (congrArg List.length hnil))
        rw [hnil, hnil']
        exact .same _
      · have hnil' : c'.keys ≠ [] := fun h' => hnil (List.length_eq_zero_iff.mp (hkeys.trans (congrArg List.length h')))
        rw [if_neg (mt List.isEmpty_iff.mp hnil), if_neg (mt List.isEmpty_iff.mp hnil')]
        exact .keys c c' _ hnil hnil'
  · unfold commitPage refusedText
    rw [ha, hb]
    dsimp only
    rw [h.refusalLines_eq]
    exact .same _

/-- Replies that differ at most in key texts leave the same line, and the same labels where they export the same. -/
theorem SameButKeyTexts.sendRecorded_eq {a b : Answer} (h : SameButKeyTexts a b) (lib : Libraries) (sub kind : String)
    (body : Value) {exported : Value → Committed → Committed} {c : Committed}
    (hexported : a.status = 200 → exported a.body c = exported b.body c) :
    (sendRecorded lib sub kind body exported (.ok a) c).line =
        (sendRecorded lib sub kind body exported (.ok b) c).line ∧
      (sendRecorded lib sub kind body exported (.ok a) c).committed =
        (sendRecorded lib sub kind body exported (.ok b) c).committed := by
  show writeLog lib sub kind body (posted lib a) = writeLog lib sub kind body (posted lib b) ∧
    exportedAfter exported c (posted lib a) = exportedAfter exported c (posted lib b)
  obtain ⟨ha, hb⟩ | ⟨e, ha, hb⟩ := h.posted_same lib
  · rw [ha, hb]
    refine ⟨h.writeLog_eq lib sub kind body, ?_⟩
    show (if a.status = 200 then exported a.body c else c) = if b.status = 200 then exported b.body c else c
    rw [← h.1]
    split
    · next hstatus => exact hexported hstatus
    · rfl
  · rw [ha, hb]
    exact ⟨rfl, rfl⟩

theorem SameButKeyTexts.restrict_eq {a b : Answer} (h : SameButKeyTexts a b) (lib : Libraries) (sub : String)
    (ops : List RestrictionOp) (reread : Except String Value) (clock : ℕ → Int64) (now : Int64) (c : Committed) :
    restrict lib sub ops (.ok a) reread clock now c = restrict lib sub ops (.ok b) reread clock now c := by
  have hexported : exportRestrictions clock ops a.body c = exportRestrictions clock ops b.body c := by
    unfold exportRestrictions
    rw [h.writtenOps_eq]
  have hpage : restrictOutcome lib reread now ops (posted lib a) = restrictOutcome lib reread now ops (posted lib b) := by
    obtain ⟨ha, hb⟩ | ⟨e, ha, hb⟩ := h.posted_same lib
    · rw [ha, hb]
      exact h.restrictOutcome_eq lib reread now ops
    · rw [ha, hb]
  have hsent := h.sendRecorded_eq lib sub "restrictions"
    (.object [("restrictions", .array (ops.map RestrictionOp.toJson))]) fun _ => hexported
  show Traces.mk _ _ _ = Traces.mk _ _ _
  exact congr (congr (congrArg Traces.mk hsent.1) hsent.2) hpage

theorem SameButKeyTexts.sendDocument_eq {a b : Answer} (h : SameButKeyTexts a b) (lib : Libraries) (sub : String)
    (request : DocRequest) (seenAt : Int64) (c : Committed)
    (hread : (∃ version digest, SaysCommitted lib.sha256 (.ok a) request.ops version digest) ↔
      ∃ version digest, SaysCommitted lib.sha256 (.ok b) request.ops version digest) :
    (sendDocument lib sub request (.ok a) seenAt c).line = (sendDocument lib sub request (.ok b) seenAt c).line ∧
      (sendDocument lib sub request (.ok a) seenAt c).committed =
        (sendDocument lib sub request (.ok b) seenAt c).committed := by
  refine h.sendRecorded_eq lib sub "document" _ fun hstatus => ?_
  rw [saysCommitted_iff hstatus, saysCommitted_iff (h.1.symm.trans hstatus)] at hread
  unfold exportDocument
  cases hc : commitOf lib.sha256 a.body request.ops with
  | ok commit =>
    obtain ⟨commit', hc'⟩ := hread.mp ⟨commit, hc⟩
    obtain ⟨hversion, hdigest, -⟩ := h.commits_same hc hc'
    rw [hc']
    dsimp only
    rw [hversion, hdigest]
  | error e =>
    cases hc' : commitOf lib.sha256 b.body request.ops with
    | error e' => rfl
    | ok commit' =>
      obtain ⟨commit, hok⟩ := hread.mpr ⟨commit', hc'⟩
      rw [hc] at hok
      cases hok

/-- Only what the store said it wrote is exported as committed: the records of a 200 whose results answer the ops one by
one, the document of a 200 that reads as a commit of the ops, and nothing else.  The texts of minted keys change no trace
but the key page, and the reason quoted for a key that could not be read. -/
theorem writes_export_committed (lib : Libraries) (sub : String) (reread : Except String Value) (c : Committed) :
    (∀ ops reply clock now,
      (∀ done, SaysWritten reply ops done →
        (restrict lib sub ops reply reread clock now c).committed = recordAll clock done c) ∧
      ((∀ done, ¬SaysWritten reply ops done) → (restrict lib sub ops reply reread clock now c).committed = c)) ∧
    (∀ request reply seenAt,
      (∀ version digest, SaysCommitted lib.sha256 reply request.ops version digest →
        (sendDocument lib sub request reply seenAt c).committed = c.document version digest seenAt.toInt) ∧
      ((∀ version digest, ¬SaysCommitted lib.sha256 reply request.ops version digest) →
        (sendDocument lib sub request reply seenAt c).committed = c)) ∧
    ∀ a b, SameButKeyTexts a b →
      (∀ ops clock now, restrict lib sub ops (.ok a) reread clock now c = restrict lib sub ops (.ok b) reread clock now c) ∧
      (∀ request seenAt,
        ((∃ version digest, SaysCommitted lib.sha256 (.ok a) request.ops version digest) ↔
          ∃ version digest, SaysCommitted lib.sha256 (.ok b) request.ops version digest) →
        (sendDocument lib sub request (.ok a) seenAt c).line = (sendDocument lib sub request (.ok b) seenAt c).line ∧
        (sendDocument lib sub request (.ok a) seenAt c).committed =
          (sendDocument lib sub request (.ok b) seenAt c).committed) ∧
      ∀ expected actor reason op seenAt now,
        ((∃ version digest, SaysCommitted lib.sha256 (.ok a) [op] version digest) ↔
          ∃ version digest, SaysCommitted lib.sha256 (.ok b) [op] version digest) →
        SamePage reread op (commitOp lib sub expected actor reason op (.ok a) reread seenAt now c).page
          (commitOp lib sub expected actor reason op (.ok b) reread seenAt now c).page := by
  refine ⟨fun ops reply clock now => restrict_exports lib sub ops reply reread clock now c,
    fun request reply seenAt => sendDocument_exports lib sub request reply seenAt c, fun a b h => ⟨?_, ?_, ?_⟩⟩
  · exact fun ops clock now => h.restrict_eq lib sub ops reread clock now c
  · exact fun request seenAt => h.sendDocument_eq lib sub request seenAt c
  · intro expected actor reason op seenAt now hread
    show SamePage reread op (commitPage lib reread now op (posted lib a)) (commitPage lib reread now op (posted lib b))
    obtain ⟨ha, hb⟩ | ⟨e, ha, hb⟩ := h.posted_same lib
    · rw [ha, hb]
      exact h.commitPage_same lib reread now op hread
    · rw [ha, hb]
      exact .same _

/-- 43 characters a key may be made of. -/
def plainKey : String := String.ofList (List.replicate 43 'A')

/-- Libraries that know the hash of `plainKey`. -/
def plainLibraries : Libraries where
  sha256 s := if s = plainKey then "0f007385b6f9d4b7eeb2748605afe1a984a0a3bfa3f014d09e2a784ce9e5cd1a" else ""
  print _ := ""
  showStatus := toString
  url := unescaped
  byteSerialize := id

/-- A commit's answer that lists one key, under another key's digest. -/
def keyAnswer (key : String) : Answer where
  status := 200
  body := .object [("digest", .string rowDigest),
    ("keys", .array [.object [("client", .string "acme"), ("digest", .string rowDigest), ("id", .string "k0000001"),
      ("key", .string key)]]),
    ("version", .ofU64 7)]

/-- A record, a document and a key that could not be read, each traced as its answer says. -/
theorem writes_export_committed_acme :
    (restrict plainLibraries "ana" [.disable "acme" "ops" "leaked key"] (.ok ⟨200, disabledAnswer⟩) (.error "timeout")
      (fun _ => 1791698401) 1791698401 ⟨[], []⟩).committed = ⟨[⟨"acme", 1791698400000000, 1791698401⟩], []⟩ ∧
    (sendDocument plainLibraries "ana" ⟨7, "ops", "cleanup", false, [.delete "acme"]⟩ (.ok ⟨200, committedAnswer⟩) 1791698401
      ⟨[], []⟩).committed = ⟨[], [⟨1791700000123, rowDigest, 1791698401⟩]⟩ ∧
    restrict plainLibraries "ana" [.disable "acme" "ops" "leaked key"] (.ok (keyAnswer "short")) (.error "timeout")
        (fun _ => 1791698401) 1791698401 ⟨[], []⟩ =
      restrict plainLibraries "ana" [.disable "acme" "ops" "leaked key"] (.ok (keyAnswer plainKey)) (.error "timeout")
        (fun _ => 1791698401) 1791698401 ⟨[], []⟩ := by
  obtain ⟨hrecords, hdocument, hkeys⟩ := writes_export_committed plainLibraries "ana" (.error "timeout") ⟨[], []⟩
  refine ⟨(hrecords _ _ _ _).1 [⟨"acme", .disabled, 1791698400000000⟩] ?_, (hdocument _ _ _).1 1791700000123 rowDigest ?_,
    (hkeys _ _ ⟨rfl, rfl⟩).1 _ _ _⟩
  · exact ⟨_, _, rfl, rfl, rfl, .wrote ⟨by decide, rfl, rfl, ⟨_, rfl, rfl⟩, rfl⟩ .nil⟩
  · exact ⟨_, rfl, rfl, ⟨_, rfl, by decide, rfl⟩, ⟨rfl, by decide +kernel⟩, [], .inr ⟨rfl, rfl, rfl⟩, .nil⟩

theorem spaced_append (s t : String) : spaced (s ++ t) = spaced s ++ spaced t := by
  unfold spaced
  rw [String.toList_append, List.map_append]

/-- What the page says of an answer without a readable key, where the store cannot be read again. -/
def unreadableKey (e : String) : String :=
  "The store committed the write, but its answer could not be read (" ++ e ++
    "), so nothing is confirmed or exported as committed." ++
    " Its key cannot be shown: revoke the new key and add another." ++ " Re-reading the store failed too: timeout."

/-- The flash carries the reason whole. -/
theorem unreadableKey_inj {e e' : String} (he : Budget.total flashCost (spaced e) ≤ 1000)
    (he' : Budget.total flashCost (spaced e') ≤ 1000) (h : flashText (unreadableKey e) = flashText (unreadableKey e')) :
    spaced e = spaced e' := by
  obtain ⟨before, after, hspaced, hcost⟩ : ∃ before after : List Char,
      (∀ e, spaced (unreadableKey e) = before ++ spaced e ++ after) ∧
        Budget.total flashCost before + Budget.total flashCost after ≤ 400 := by
    refine ⟨spaced "The store committed the write, but its answer could not be read (",
      spaced "), so nothing is confirmed or exported as committed." ++
        (spaced " Its key cannot be shown: revoke the new key and add another." ++
          spaced " Re-reading the store failed too: timeout."), fun e => ?_, ?_⟩
    · unfold unreadableKey
      simp only [spaced_append, List.append_assoc]
    · unfold spaced
      rw [String.toList_ofList, String.toList_ofList, String.toList_ofList, String.toList_ofList]
      decide +kernel
  have hfits : ∀ e, Budget.total flashCost (spaced e) ≤ 1000 →
      flashText (unreadableKey e) = String.ofList (before ++ spaced e ++ after) := by
    intro e he
    rw [← hspaced]
    refine flashText_of_fits ?_
    rw [hspaced, Budget.total_append, Budget.total_append]
    unfold maxFlashBytes
    omega
  rw [hfits e he, hfits e' he'] at h
  exact List.append_cancel_left (List.append_cancel_right (String.ofList_injective h))

/-- Two answers that differ in a key's text alone, neither of which can be read, and whose flashes differ. -/
theorem flash_quotes_key_reason :
    SameButKeyTexts (keyAnswer "short") (keyAnswer plainKey) ∧
    commitPage plainLibraries (.error "timeout") 0 (.addKey "acme" "ci") (.ok (keyAnswer "short")) =
      unreadable (.error "timeout") (.addKey "acme" "ci") "a key is malformed" ∧
    commitPage plainLibraries (.error "timeout") 0 (.addKey "acme" "ci") (.ok (keyAnswer plainKey)) =
      unreadable (.error "timeout") (.addKey "acme" "ci") "key k0000001 does not hash to its digest" ∧
    unreadable (.error "timeout") (.addKey "acme" "ci") "a key is malformed" ≠
      unreadable (.error "timeout") (.addKey "acme" "ci") "key k0000001 does not hash to its digest" := by
  have hshort : commitOf plainLibraries.sha256 (keyAnswer "short").body [.addKey "acme" "ci"] =
      .error "a key is malformed" := rfl
  have hplain : commitOf plainLibraries.sha256 (keyAnswer plainKey).body [.addKey "acme" "ci"] =
      .error "key k0000001 does not hash to its digest" := rfl
  refine ⟨⟨rfl, rfl⟩, commitPage_of_error rfl hshort _ _, commitPage_of_error rfl hplain _ _, ?_⟩
  intro hsame
  have hflash : flashText (unreadableKey "a key is malformed") =
      flashText (unreadableKey "key k0000001 does not hash to its digest") := (Page.redirect.inj hsame).2.1
  have hreasons := unreadableKey_inj (by decide +kernel) (by decide +kernel) hflash
  revert hreasons
  unfold spaced
  rw [String.toList_ofList, String.toList_ofList]
  decide

end Alaya.Console
