import Alaya.Console.Commit

/-!
# What a committed write asks to confirm

A write's own result says which ops and which document to confirm, and they ride the query of the page that confirms
them.  The results are read strictly, so their names hold no dot and their numbers fit 64 bits: the query, cut at its
dots, gives back the ops in their order and the document.
-/

namespace Alaya.Console

open Json

/-! ### What a store answers -/

inductive RestrictionOp where
  | disable (name actor reason : String)
  | enable (name : String) (expectedVersion : ℕ) (actor reason : String)

namespace RestrictionOp

def name : RestrictionOp → String
  | disable name .. | enable name .. => name

/-- The state the op's record is written in. -/
def state : RestrictionOp → RecordState
  | disable .. => .disabled
  | enable .. => .enabled

end RestrictionOp

/-- The record one result reports. -/
def resultOp (r : Value) : Option Op := do
  let name ← ((member r "name").bind Value.asStr).filter isName
  let state ← ((member r "state").bind Value.asStr).bind RecordState.parse
  let version ← (member r "version").bind Value.asU64
  return ⟨name, state, version.toNat⟩

/-- The op a result wrote; nothing for a record that was written before. -/
def writtenOp (r : Value) (asked : RestrictionOp) : Except String (Option Op) :=
  match resultOp r with
  | none => .error "a result is malformed"
  | some op =>
    if op.name = asked.name ∧ op.state = asked.state then
      match member r "written" with
      | some (.bool true) => .ok (some op)
      | some (.bool false) => .ok none
      | _ => .error "a result is malformed"
    else
      .error ("a result names " ++ op.state.asStr ++ " " ++ op.name ++ " for an op on " ++ asked.state.asStr ++ " " ++
        asked.name)

/-- The ops a 200 actually wrote: one readable result per op sent, in order. -/
def writtenOps (answer : Value) (sent : List RestrictionOp) : Except String (List Op) :=
  match (member answer "results").bind Value.asArray with
  | none => .error "no results"
  | some results =>
    if results.length ≠ sent.length then
      .error (toString results.length ++ " results for " ++ toString sent.length ++ " ops")
    else ((results.zip sent).mapM fun p => writtenOp p.1 p.2).map fun done => done.filterMap id

structure MintedKey where
  client : String
  id : String
  key : String
  digest : String

structure Commit where
  version : ℕ
  digest : String
  keys : List MintedKey

/-- `k` and 7 lowercase hex digits. -/
def isKeyId (s : String) : Bool :=
  match s.toList with
  | 'k' :: cs => s.utf8ByteSize = 8 && cs.all fun c => isAsciiDigit c || ('a' ≤ c ∧ c ≤ 'f')
  | _ => false

/-- 32 random bytes in base64url, without padding. -/
def isMintedKey (s : String) : Bool :=
  s.utf8ByteSize = 43 && s.toList.all fun c => isAsciiAlphanumeric c || c = '-' || c = '_'

/-- A key as its op asked for it, which hashes to the digest the store kept. -/
def mintedKey (sha256 : String → String) (k : Value) (client : String) : Except String MintedKey :=
  let field (f : String) : String := ((member k f).bind Value.asStr).getD ""
  if field "client" ≠ client then .error "a key names another client than its op"
  else if !isKeyId (field "id") || !isMintedKey (field "key") || !isHex64 (field "digest") then
    .error "a key is malformed"
  else if sha256 (field "key") ≠ field "digest" then
    .error ("key " ++ field "id" ++ " does not hash to its digest")
  else .ok ⟨client, field "id", field "key", field "digest"⟩

/-- The keys an answer lists; it may leave the list out where none was asked for. -/
def keysOf (answer : Value) (wanted : List String) : Except String (List Value) :=
  match member answer "keys" with
  | some (.array keys) => .ok keys
  | none => if wanted.isEmpty then .ok [] else .error "no keys list"
  | some _ => .error "no keys list"

/-- Read a commit's 200 strictly. -/
def commitOf (sha256 : String → String) (answer : Value) (ops : List DocOp) : Except String Commit :=
  match ((member answer "version").bind Value.asU64).filter (1 ≤ ·) with
  | none => .error "no version"
  | some version =>
    match ((member answer "digest").bind Value.asStr).filter isHex64 with
    | none => .error "no digest"
    | some digest => do
      let wanted := ops.filterMap fun op => match op with
        | .addKey name _ => some name
        | _ => none
      let keys ← keysOf answer wanted
      if keys.length ≠ wanted.length then
        .error (toString keys.length ++ " keys for " ++ toString wanted.length ++ " add_key ops")
      else
        let minted ← (keys.zip wanted).mapM fun p => mintedKey sha256 p.1 p.2
        return ⟨version.toNat, digest, minted⟩

/-! ### The page that confirms -/

/-- A document as a version and the digest of its exact bytes. -/
structure Doc where
  version : ℕ
  digest : String
  deriving DecidableEq

/-- The encoding of pairs as the query of a URL. -/
structure FormUrlencoded where
  serialize : List (String × String) → String
  parse : String → List (String × String)

def effectPairs (ops : List Op) (doc : Option Doc) (now : Int64) : List (String × String) :=
  (ops.map fun op => ("op", op.state.asStr ++ "." ++ op.name ++ "." ++ toString op.version)) ++
    (doc.toList.map fun d => ("doc", toString d.version ++ "." ++ d.digest)) ++ [("at", toString now.toInt)]

def effectHref (url : FormUrlencoded) (ops : List Op) (doc : Option Doc) (now : Int64) : String :=
  "/lb/clients/effect?" ++ url.serialize (effectPairs ops doc now)

/-- What follows the first question mark of a reference. -/
def rawQuery (href : String) : Option String := (splitOnce '?' href.toList).map fun p => String.ofList p.2

/-- What the effect page confirms, and when it was written. -/
structure Wanted where
  ops : List Op
  doc : Option Doc
  writtenAt : ℤ
  deriving DecidableEq

/-- `str::splitn`: at most `n` pieces, the last one uncut. -/
def splitn (sep : Char) : ℕ → List Char → List (List Char)
  | 0, _ => []
  | 1, cs => [cs]
  | n + 2, cs =>
    match splitOnce sep cs with
    | none => [cs]
    | some (before, after) => before :: splitn sep (n + 1) after

/-- `str::parse::<i64>`. -/
def parseSigned (s : String) : Option ℤ :=
  match s.toList with
  | '-' :: cs => ((parseU64 cs).filter (· ≤ 2 ^ 63)).map fun n => -n
  | '+' :: cs => ((parseU64 cs).filter (· < 2 ^ 63)).map fun n => n
  | cs => ((parseU64 cs).filter (· < 2 ^ 63)).map fun n => n

/-- `<state>.<name>.<version>`. -/
def opParam (v : String) : Option Op :=
  match splitn '.' 3 v.toList with
  | [state, name, version] => do
    let state ← RecordState.parse (String.ofList state)
    let name ← (some (String.ofList name)).filter isName
    let version ← parseUnsigned (String.ofList version)
    return ⟨name, state, version⟩
  | _ => none

/-- `<version>.<digest>`. -/
def docParam (v : String) : Option Doc := do
  let (version, digest) ← splitOnce '.' v.toList
  let version ← parseUnsigned (String.ofList version)
  (some ⟨version, String.ofList digest⟩).filter fun d => isHex64 d.digest

def readPair (wanted : Wanted) (pair : String × String) : Except String Wanted :=
  match pair.1 with
  | "op" =>
    match opParam pair.2 with
    | some op => .ok { wanted with ops := wanted.ops ++ [op] }
    | none => .error "malformed op"
  | "doc" =>
    match docParam pair.2 with
    | some doc => .ok { wanted with doc := some doc }
    | none => .error "malformed document"
  | "at" => .ok { wanted with writtenAt := (parseSigned pair.2).getD 0 }
  | _ => .ok wanted

def maxOps : ℕ := 100

/-- What the query wants confirmed, or why it is a bad request. -/
def parseEffectQuery (url : FormUrlencoded) (raw : Option String) : Except String Wanted := do
  let wanted ← (url.parse (raw.getD "")).foldlM readPair ⟨[], none, 0⟩
  if maxOps < wanted.ops.length then .error ("at most " ++ toString maxOps ++ " ops") else .ok wanted

/-! ### What the strict readers return -/

/-- An op as the store can report it. -/
structure Op.Reported (op : Op) : Prop where
  name : isName op.name = true
  version : op.version < 2 ^ 64

/-- A document as the store can report it. -/
structure Doc.Reported (d : Doc) : Prop where
  version : d.version < 2 ^ 64
  digest : isHex64 d.digest = true

theorem reported_of_resultOp {r : Value} {op : Op} (h : resultOp r = some op) : op.Reported := by
  unfold resultOp at h
  obtain ⟨name, hname, h⟩ := Option.bind_eq_some_iff.mp h
  obtain ⟨state, -, h⟩ := Option.bind_eq_some_iff.mp h
  obtain ⟨version, -, h⟩ := Option.bind_eq_some_iff.mp h
  cases h
  exact ⟨(Option.filter_eq_some_iff.mp hname).2, version.toNat_lt⟩

theorem resultOp_of_writtenOp {r : Value} {asked : RestrictionOp} {op : Op}
    (h : writtenOp r asked = .ok (some op)) : resultOp r = some op := by
  unfold writtenOp at h
  split at h
  · cases h
  · next op' hop =>
    split at h
    · split at h
      · cases h
        exact hop
      · cases h
      · cases h
    · cases h

theorem reported_of_writtenOps {answer : Value} {sent : List RestrictionOp} {done : List Op}
    (h : writtenOps answer sent = .ok done) {op : Op} (hop : op ∈ done) : op.Reported := by
  unfold writtenOps at h
  split at h
  · cases h
  · split at h
    · cases h
    · next results _ _ =>
      cases hmap : (results.zip sent).mapM fun p => writtenOp p.1 p.2 with
      | error e =>
        rw [hmap] at h
        cases h
      | ok written =>
        rw [hmap] at h
        cases h
        obtain ⟨o, ho, heq⟩ := List.mem_filterMap.mp hop
        obtain rfl : o = some op := heq
        obtain ⟨p, -, hp⟩ := Rows.exists_mem_of_mapM hmap ho
        exact reported_of_resultOp (resultOp_of_writtenOp hp)

theorem reported_of_commitOf {sha256 : String → String} {answer : Value} {ops : List DocOp} {c : Commit}
    (h : commitOf sha256 answer ops = .ok c) : Doc.Reported ⟨c.version, c.digest⟩ := by
  unfold commitOf at h
  split at h
  · cases h
  · next version _ =>
    split at h
    · cases h
    · next digest hdigest =>
      obtain ⟨keys, -, h⟩ := bind_eq_ok.mp h
      split at h
      · cases h
      · obtain ⟨minted, -, h⟩ := bind_eq_ok.mp h
        cases h
        exact ⟨version.toNat_lt, (Option.filter_eq_some_iff.mp hdigest).2⟩

/-! ### The query is read back -/

theorem splitn_cut {sep : Char} {n : ℕ} {before after : List Char} (h : sep ∉ before) :
    splitn sep (n + 2) (before ++ sep :: after) = before :: splitn sep (n + 1) after := by
  rw [splitn, splitOnce_eq_some.mpr ⟨rfl, h⟩]

theorem parse_asStr (state : RecordState) : RecordState.parse state.asStr = some state := by
  cases state <;> rfl

theorem opParam_printed {op : Op} (h : op.Reported) :
    opParam (op.state.asStr ++ "." ++ op.name ++ "." ++ toString op.version) = some op := by
  have hchars : (op.state.asStr ++ "." ++ op.name ++ "." ++ toString op.version).toList =
      op.state.asStr.toList ++ '.' :: (op.name.toList ++ '.' :: (toString op.version).toList) := by
    simp [String.toList_append]
  have hstate : '.' ∉ op.state.asStr.toList := not_mem_of_plain (plain_asStr op.state) (by decide)
  have hname : '.' ∉ op.name.toList := not_mem_of_plain (plain_of_isName h.name) (by decide)
  unfold opParam
  rw [hchars, splitn_cut hstate, splitn_cut hname, splitn]
  dsimp only
  rw [String.ofList_toList, String.ofList_toList, String.ofList_toList, parse_asStr, Option.filter_some, if_pos h.name,
    parseUnsigned_toString h.version]
  rfl

theorem docParam_printed {d : Doc} (h : d.Reported) : docParam (toString d.version ++ "." ++ d.digest) = some d := by
  have hchars : (toString d.version ++ "." ++ d.digest).toList =
      (toString d.version).toList ++ '.' :: d.digest.toList := by
    simp [String.toList_append]
  have hversion : '.' ∉ (toString d.version).toList := not_mem_of_plain (plain_toString d.version) (by decide)
  unfold docParam
  rw [hchars, splitOnce_eq_some.mpr ⟨rfl, hversion⟩]
  show ((parseUnsigned (String.ofList (toString d.version).toList)).bind fun version =>
    (some (Doc.mk version (String.ofList d.digest.toList))).filter fun d => isHex64 d.digest) = some d
  rw [String.ofList_toList, String.ofList_toList, parseUnsigned_toString h.version, Option.bind_some,
    Option.filter_some, if_pos h.digest]

/-- A text of digits has no sign. -/
theorem parseSigned_of_digits {s : String} (h : ∀ c ∈ s.toList, isAsciiDigit c = true) :
    parseSigned s = ((parseU64 s.toList).filter (· < 2 ^ 63)).map fun n => (n : ℤ) := by
  have hhead : ∀ c cs, s.toList = c :: cs → isAsciiDigit c = true := by
    intro c cs hs
    rw [hs] at h
    exact h c List.mem_cons_self
  unfold parseSigned
  split
  · next cs hs => exact absurd (hhead _ _ hs) (by decide)
  · next cs hs => exact absurd (hhead _ _ hs) (by decide)
  · rfl

/-- A reading of the clock is printed as what reads back as it. -/
theorem parseSigned_printed (now : Int64) : parseSigned (toString now.toInt) = some now.toInt := by
  have hlow := now.le_toInt
  have hhigh := now.toInt_lt
  cases hnow : now.toInt with
  | ofNat n =>
    have hfits : (n : ℤ) < 2 ^ 63 := by
      rw [hnow] at hhigh
      exact hhigh
    show parseSigned (toString n) = _
    rw [parseSigned_of_digits (digit_of_toString n), parseU64_toString (by omega), Option.filter_some, if_pos (decide_eq_true (by omega))]
    rfl
  | negSucc n =>
    rw [hnow] at hlow
    have hfits : n + 1 ≤ 2 ^ 63 := by omega
    have hchars : (toString (Int.negSucc n)).toList = '-' :: (toString (n + 1)).toList :=
      String.toList_append
    unfold parseSigned
    rw [hchars]
    show ((parseU64 (toString (n + 1)).toList).filter (· ≤ 2 ^ 63)).map (fun n => -(n : ℤ)) = _
    rw [parseU64_toString (by omega), Option.filter_some, if_pos (decide_eq_true hfits)]
    rfl

/-- The ops of the query are read in their order. -/
theorem foldlM_readPair_ops {ops : List Op} (h : ∀ op ∈ ops, op.Reported) (wanted : Wanted) :
    (ops.map fun op => ("op", op.state.asStr ++ "." ++ op.name ++ "." ++ toString op.version)).foldlM readPair wanted =
      .ok { wanted with ops := wanted.ops ++ ops } := by
  induction ops generalizing wanted with
  | nil =>
    rw [List.append_nil]
    rfl
  | cons op ops ih =>
    have hread : readPair wanted ("op", op.state.asStr ++ "." ++ op.name ++ "." ++ toString op.version) =
        .ok { wanted with ops := wanted.ops ++ [op] } := by
      unfold readPair
      dsimp only
      rw [opParam_printed (h op List.mem_cons_self)]
      rfl
    rw [List.map_cons, List.foldlM_cons]
    refine bind_eq_ok.mpr ⟨_, hread, ?_⟩
    rw [ih fun op' hop' => h op' (List.mem_cons_of_mem _ hop')]
    simp

theorem foldlM_effectPairs {ops : List Op} {doc : Option Doc} (hops : ∀ op ∈ ops, op.Reported)
    (hdoc : ∀ d ∈ doc, d.Reported) (now : Int64) :
    (effectPairs ops doc now).foldlM readPair ⟨[], none, 0⟩ = .ok ⟨ops, doc, now.toInt⟩ := by
  have hat : ∀ w : Wanted, readPair w ("at", toString now.toInt) = .ok { w with writtenAt := now.toInt } := by
    intro w
    unfold readPair
    dsimp only
    rw [parseSigned_printed]
    rfl
  have hlist : (doc.toList.map fun d => ("doc", toString d.version ++ "." ++ d.digest)).foldlM readPair ⟨ops, none, 0⟩ =
      .ok ⟨ops, doc, 0⟩ := by
    cases doc with
    | none => rfl
    | some d =>
      have hread : readPair ⟨ops, none, 0⟩ ("doc", toString d.version ++ "." ++ d.digest) = .ok ⟨ops, some d, 0⟩ := by
        unfold readPair
        dsimp only
        rw [docParam_printed (hdoc d rfl)]
        rfl
      exact bind_eq_ok.mpr ⟨_, hread, rfl⟩
  unfold effectPairs
  rw [List.foldlM_append, List.foldlM_append, foldlM_readPair_ops hops]
  exact bind_eq_ok.mpr ⟨⟨ops, doc, 0⟩, hlist, bind_eq_ok.mpr ⟨_, hat _, rfl⟩⟩

/-! ### The encoding of the query -/

/-- A character the encoding leaves as it is. -/
def isUnreserved (c : Char) : Bool := isAsciiAlphanumeric c || c = '*' || c = '-' || c = '.' || c = '_'

def Unreserved (s : String) : Prop := ∀ c ∈ s.toList, isUnreserved c = true

/-- Pairs of unreserved texts are read back as they were written. -/
def FormUrlencoded.RoundTrips (url : FormUrlencoded) : Prop :=
  ∀ pairs : List (String × String), (∀ p ∈ pairs, Unreserved p.1 ∧ Unreserved p.2) →
    url.parse (url.serialize pairs) = pairs

theorem unreserved_of_plain {s : String} (h : Plain s) : Unreserved s := by
  intro c hc
  have hplain := h c hc
  simp only [isPlain, isUnreserved, Bool.or_eq_true, decide_eq_true_eq] at hplain ⊢
  tauto

theorem unreserved_append {s t : String} (hs : Unreserved s) (ht : Unreserved t) : Unreserved (s ++ t) := by
  intro c hc
  rw [String.toList_append] at hc
  exact (List.mem_append.mp hc).elim (hs c) (ht c)

theorem unreserved_dot : Unreserved "." := Digits.forall_mem_of_all (by decide)

theorem unreserved_toInt (now : Int64) : Unreserved (toString now.toInt) := by
  cases now.toInt with
  | ofNat n => exact unreserved_of_plain (plain_toString n)
  | negSucc n =>
    have hsign : Unreserved "-" := Digits.forall_mem_of_all (by decide)
    exact unreserved_append hsign (unreserved_of_plain (plain_toString (n + 1)))

/-- Nothing the query holds is escaped. -/
theorem unreserved_effectPairs {ops : List Op} {doc : Option Doc} (hops : ∀ op ∈ ops, op.Reported)
    (hdoc : ∀ d ∈ doc, d.Reported) (now : Int64) :
    ∀ p ∈ effectPairs ops doc now, Unreserved p.1 ∧ Unreserved p.2 := by
  have hkey : ∀ k ∈ ["op", "doc", "at"], Unreserved k := by
    intro k hk
    have hall : (k.toList.all fun c => isUnreserved c = true) = true := by
      revert k
      decide
    exact Digits.forall_mem_of_all hall
  intro p hp
  unfold effectPairs at hp
  rcases List.mem_append.mp hp with hp | hp
  · rcases List.mem_append.mp hp with hp | hp
    · obtain ⟨op, hop, rfl⟩ := List.mem_map.mp hp
      have hstate := unreserved_of_plain (plain_asStr op.state)
      have hname := unreserved_of_plain (plain_of_isName (hops op hop).name)
      have hversion := unreserved_of_plain (plain_toString op.version)
      exact ⟨hkey "op" (by simp), unreserved_append (unreserved_append (unreserved_append
        (unreserved_append hstate unreserved_dot) hname) unreserved_dot) hversion⟩
    · obtain ⟨d, hd, rfl⟩ := List.mem_map.mp hp
      have hversion := unreserved_of_plain (plain_toString d.version)
      have hdigest := unreserved_of_plain (plain_of_isHex64 (hdoc d (Option.mem_toList.mp hd)).digest)
      exact ⟨hkey "doc" (by simp), unreserved_append (unreserved_append hversion unreserved_dot) hdigest⟩
  · obtain rfl := List.mem_singleton.mp hp
    exact ⟨hkey "at" (by simp), unreserved_toInt now⟩

theorem rawQuery_effectHref (url : FormUrlencoded) (ops : List Op) (doc : Option Doc) (now : Int64) :
    rawQuery (effectHref url ops doc now) = some (url.serialize (effectPairs ops doc now)) := by
  have hchars : (effectHref url ops doc now).toList =
      "/lb/clients/effect".toList ++ '?' :: (url.serialize (effectPairs ops doc now)).toList := String.toList_append
  have hpath : '?' ∉ "/lb/clients/effect".toList := by decide
  unfold rawQuery
  rw [hchars, splitOnce_eq_some.mpr ⟨rfl, hpath⟩, Option.map_some, String.ofList_toList]

/-- **The query of the page is read back as the ops and the document it was written from.** -/
theorem parseEffectQuery_effectHref {url : FormUrlencoded} (hurl : url.RoundTrips) {ops : List Op} {doc : Option Doc}
    (hlen : ops.length ≤ maxOps) (hops : ∀ op ∈ ops, op.Reported) (hdoc : ∀ d ∈ doc, d.Reported) (now : Int64) :
    parseEffectQuery url (rawQuery (effectHref url ops doc now)) = .ok ⟨ops, doc, now.toInt⟩ := by
  unfold parseEffectQuery
  rw [rawQuery_effectHref, Option.getD_some, hurl _ (unreserved_effectPairs hops hdoc now)]
  refine bind_eq_ok.mpr ⟨_, foldlM_effectPairs hops hdoc now, ?_⟩
  exact if_neg (not_lt.mpr hlen)

/-! ### What was previewed and what was written -/

/-- The commit form is parsed as the op, the version and the reason that were previewed; a cleaned reason is clean; and
the page that confirms a write reads back the ops and the document the store answered that it wrote. -/
theorem commit_sends_preview (print : ℚ → String) {url : FormUrlencoded} (hurl : url.RoundTrips)
    (sha256 : String → String) :
    (∀ f op expected reason, parse f = .ok (op, expected, reason) →
      (∀ x ∈ op.limit, parseFinite (print x) = some x) →
      ∀ csrf, parse (commitForm print csrf op expected reason) = .ok (op, expected, reason)) ∧
    (∀ raw r, cleanReason raw = .ok r →
      cleanReason r = .ok r ∧ 1 ≤ r.length ∧ r.length ≤ 200 ∧ ∀ c ∈ r.toList, isControl c = false) ∧
    ∀ (ops : List Op) (doc : Option Doc) (now : Int64), ops.length ≤ 100 →
      (∀ op ∈ ops, ∃ answer sent done, writtenOps answer sent = .ok done ∧ op ∈ done) →
      (∀ d ∈ doc, ∃ answer sent c, commitOf sha256 answer sent = .ok c ∧ d = ⟨c.version, c.digest⟩) →
      parseEffectQuery url (rawQuery (effectHref url ops doc now)) = .ok ⟨ops, doc, now.toInt⟩ := by
  refine ⟨fun f op expected reason h hprint csrf => parse_commitForm h hprint csrf, ?_, ?_⟩
  · intro raw r h
    exact ⟨cleanReason_idem h, (cleanReason_eq_ok_iff.mp h).2⟩
  · intro ops doc now hlen hops hdoc
    refine parseEffectQuery_effectHref hurl hlen ?_ ?_ now
    · intro op hop
      obtain ⟨answer, sent, done, hdone, hmem⟩ := hops op hop
      exact reported_of_writtenOps hdone hmem
    · intro d hd
      obtain ⟨answer, sent, c, hc, rfl⟩ := hdoc d hd
      exact reported_of_commitOf hc

/-- The encoding, for texts that need no escape. -/
def unescaped : FormUrlencoded where
  serialize pairs := "&".intercalate (pairs.map fun p => p.1 ++ "=" ++ p.2)
  parse text := (Words.words (· = '&') text.toList).map fun w =>
    match splitOnce '=' w with
    | some (name, value) => (String.ofList name, String.ofList value)
    | none => (String.ofList w, "")

theorem unescaped_roundTrips : unescaped.RoundTrips := by
  intro pairs hpairs
  have hnot : ∀ {s : String} {c : Char}, Unreserved s → isUnreserved c = false → c ∉ s.toList := by
    intro s c hs hc hmem
    rw [hs c hmem] at hc
    cases hc
  obtain ⟨texts, htexts⟩ : ∃ texts, texts = pairs.map fun p => p.1.toList ++ '=' :: p.2.toList := ⟨_, rfl⟩
  have hchars : (unescaped.serialize pairs).toList = ['&'].intercalate texts := by
    rw [htexts]
    show ("&".intercalate (pairs.map fun p => p.1 ++ "=" ++ p.2)).toList = _
    rw [String.toList_intercalate, List.map_map]
    congr 1
    refine List.map_congr_left fun p _ => ?_
    simp [String.toList_append]
  have hwords : Words.words (· = '&') ((unescaped.serialize pairs).toList) = texts := by
    rw [hchars]
    refine Words.words_intercalate (by decide) texts ?_
    rw [htexts]
    intro w hw
    obtain ⟨p, hp, rfl⟩ := List.mem_map.mp hw
    obtain ⟨hname, hvalue⟩ := hpairs p hp
    refine ⟨by simp, fun c hc => decide_eq_false ?_⟩
    rintro rfl
    rcases List.mem_append.mp hc with hc | hc
    · exact hnot hname (by decide) hc
    · exact hnot hvalue (by decide) ((List.mem_cons.mp hc).resolve_left (by decide))
  show (Words.words (· = '&') ((unescaped.serialize pairs).toList)).map _ = pairs
  rw [hwords, htexts, List.map_map]
  conv_rhs => rw [← List.map_id pairs]
  refine List.map_congr_left fun p hp => ?_
  rw [Function.comp_apply, splitOnce_eq_some.mpr ⟨rfl, hnot (hpairs p hp).1 (by decide)⟩]
  simp

def acmeForm : DocForm :=
  { op := "create", expectedVersion := " 7", name := "acme", dailyBudget := "600_000", utilizationLimit := ".5",
    models := "claude-*, gpt-5", reason := " new\tclient " }

def acmeCreate : DocOp := .create "acme" ⟨some 600000, some (1 / 2), ["claude-*", "gpt-5"], []⟩

def disabledAnswer : Value :=
  .object [("results", .array [.object [("name", .string "acme"), ("state", .string "disabled"),
    ("version", .number (.posInt 1791698400000000)), ("written", .bool true)]])]

def committedAnswer : Value :=
  .object [("version", .number (.posInt 1791700000123)), ("digest", .string rowDigest)]

/-- A policy is committed as it was previewed, and a write is confirmed as it was answered. -/
theorem commit_sends_preview_acme :
    parse (commitForm (fun _ => "0.5") "token" acmeCreate 7 "new client") = .ok (acmeCreate, 7, "new client") ∧
    cleanReason "new client" = .ok "new client" ∧
    parseEffectQuery unescaped (rawQuery (effectHref unescaped [⟨"acme", .disabled, 1791698400000000⟩]
        (some ⟨1791700000123, rowDigest⟩) 1791698400)) =
      .ok ⟨[⟨"acme", .disabled, 1791698400000000⟩], some ⟨1791700000123, rowDigest⟩, 1791698400⟩ := by
  obtain ⟨hform, hreason, hquery⟩ := commit_sends_preview (fun _ => "0.5") unescaped_roundTrips id
  refine ⟨hform acmeForm acmeCreate 7 "new client" (by decide +kernel) ?_ "token",
    (hreason " new\tclient " "new client" (by decide +kernel)).1, ?_⟩
  · intro x hx
    obtain rfl : 1 / 2 = x := Option.some.inj hx
    decide +kernel
  · refine hquery _ _ 1791698400 (by decide) ?_ ?_
    · intro op hop
      refine ⟨disabledAnswer, [.disable "acme" "ops" "leaked key"], [⟨"acme", .disabled, 1791698400000000⟩], ?_, hop⟩
      decide +kernel
    · intro d hd
      obtain rfl : (⟨1791700000123, rowDigest⟩ : Doc) = d := Option.some.inj hd
      exact ⟨committedAnswer, [.delete "acme"], ⟨1791700000123, rowDigest, []⟩, rfl, rfl⟩

end Alaya.Console
