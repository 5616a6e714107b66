import Alaya.Lib.Json
import Alaya.Types.Error
import Alaya.Types.Graph
import Alaya.Types.Memory
import Mathlib.Tactic.Positivity

/-!
# The contradictions of given memories

`getContradictionsForHashes` reads every CONTRADICTS edge that touches one of the hashes, each edge once and
in any order; `forHashes` files each row under both its endpoints and `contradictionRefs` turns the entries of
a hash to its side.  The properties of an edge are whatever values it carries.
-/

namespace Alaya

open Json

/-- A CONTRADICTS edge `a -> b` and its properties, null where it carries none. -/
structure ContradictsEdge where
  a : String
  b : String
  confidence : Value := .null
  createdAt : Value := .null
  verdict : Value := .null
  verdictSurvivor : Value := .null
  verdictReason : Value := .null
  verdictConfidence : Value := .null
  verdictModel : Value := .null
  judgedAt : Value := .null
  resolution : Value := .null
  resolvedAt : Value := .null
  resolvedVia : Value := .null

/-- The CONTRADICTS and SUPERSEDES edges of the graph.  Every endpoint passed the bridge's check of a hash. -/
structure EdgeStore where
  contradicts : List ContradictsEdge
  /-- From the survivor to the superseded. -/
  supersedes : List (String × String)
  valid : ∀ e ∈ contradicts, validateContentHash e.a ∧ validateContentHash e.b
  /-- The graph counts its edges in 64 bits. -/
  counted : supersedes.length < 2 ^ 64

/-- A CONTRADICTS edge seen from one of its memories. -/
structure ContradictionRef where
  contradictsHash : String
  confidence : Option ℚ
  verdict : Option EdgeVerdict
  resolved : Bool
  endpointSuperseded : Bool
  deriving DecidableEq

/-- One entry of `POST /contradictions/for`. -/
structure ContradictionEntry where
  pair : Contradiction
  resolved : Bool
  memoryASuperseded : Bool
  memoryBSuperseded : Bool
  deriving DecidableEq

namespace EdgeStore

/-- `indegree(m, 'SUPERSEDES')`. -/
def indegree (g : EdgeStore) (hash : String) : UInt64 :=
  UInt64.ofNat (g.supersedes.countP fun e => e.2 = hash)

/-- The columns of an edge, by position. -/
def columns (g : EdgeStore) (e : ContradictsEdge) : List Value :=
  [.string e.a, .string e.b, e.confidence, e.createdAt, e.verdict, e.verdictSurvivor, e.verdictReason,
    e.verdictConfidence, e.verdictModel, e.judgedAt, e.resolution, e.resolvedAt, e.resolvedVia,
    .ofU64 (g.indegree e.a), .ofU64 (g.indegree e.b)]

/-- The rows of the edges that touch one of the hashes; an answer lists them in any order. -/
def getContradictionsForHashes (g : EdgeStore) (hashes : List String) : List (List Value) :=
  (g.contradicts.filter fun e => e.a ∈ hashes ∨ e.b ∈ hashes).map g.columns

end EdgeStore

namespace Bridge

/-- The verdict columns, 4 to 9. -/
def rowVerdict (row : List Value) : Option EdgeVerdict := do
  let verdict ← Verdict.parse (← (← row[4]?).asStr)
  return {
    verdict
    verdictSurvivor := row[5]?.bind Value.asStr
    verdictReason := (row[6]?.bind Value.asStr).getD ""
    verdictConfidence := (row[7]?.bind Value.asF64).getD 0
    verdictModel := (row[8]?.bind Value.asStr).getD ""
    judgedAt := (row[9]?.bind Value.asF64).getD 0 }

/-- The resolution columns, 10 to 12. -/
def rowResolution (row : List Value) : Option Resolution × Option ℚ × Option String :=
  match (row[10]?.bind Value.asStr).bind fun s => if s = "keep_both" then some Resolution.keepBoth else none with
  | none => (none, none, none)
  | some resolution => (some resolution, row[11]?.bind Value.asF64, row[12]?.bind Value.asStr)

/-- The text of a hash column. -/
def rowHash (row : List Value) (i : ℕ) : Option String :=
  ((row[i]?).bind Value.asStr).filter fun h => !h.isEmpty

/-- One row as its entry; `none` without both hashes. -/
def forHashesEntry (row : List Value) : Option ContradictionEntry := do
  let memoryAHash ← rowHash row 0
  let memoryBHash ← rowHash row 1
  let (resolution, resolvedAt, resolvedVia) := rowResolution row
  let superseded := fun i => (row[i]?.bind Value.asF64).any fun n => 0 < n
  return {
    pair := {
      memoryAHash, memoryBHash
      confidence := row[2]?.bind Value.asF64
      createdAt := row[3]?.bind Value.asF64
      verdict := rowVerdict row
      resolution, resolvedAt, resolvedVia
      refuteReason := none }
    -- Any stamp counts, one that does not parse included.
    resolved := row[10]?.any fun v => !v.isNull
    memoryASuperseded := superseded 13
    memoryBSuperseded := superseded 14 }

def maxForHashes : ℕ := 500

/-- `map.get_mut(h)` and push. -/
def pushEntry (map : String → Option (List ContradictionEntry)) (h : String) (e : ContradictionEntry) :
    String → Option (List ContradictionEntry) :=
  fun k => if k = h then (map k).map (· ++ [e]) else map k

/-- File a row under both its endpoints. -/
def fileRow (map : String → Option (List ContradictionEntry)) (row : List Value) :
    String → Option (List ContradictionEntry) :=
  match forHashesEntry row with
  | some e => pushEntry (pushEntry map e.pair.memoryAHash e) e.pair.memoryBHash e
  | none => map

/-- Every requested hash, with no entry yet. -/
def requested (hashes : List String) : String → Option (List ContradictionEntry) :=
  fun h => if h ∈ hashes then some [] else none

/-- The entries of each hash, given the rows the query answered. -/
def forHashes (hashes : List String) (rows : List (List Value)) :
    Except AlayaError (String → Option (List ContradictionEntry)) :=
  if maxForHashes < hashes.length then .error (.graph "400 Bad Request")
  else .ok (rows.foldl fileRow (requested hashes))

end Bridge

/-- An entry from the side of `hash`. -/
def contradictionRef (hash : String) (r : ContradictionEntry) : ContradictionRef where
  contradictsHash := if r.pair.memoryAHash = hash then r.pair.memoryBHash else r.pair.memoryAHash
  confidence := r.pair.confidence
  verdict := r.pair.verdict
  resolved := r.resolved
  endpointSuperseded := r.memoryASuperseded || r.memoryBSuperseded

/-- The entries of each hash from its side. -/
def contradictionRefs (body : String → Option (List ContradictionEntry)) :
    String → Option (List ContradictionRef) :=
  fun hash => (body hash).map fun refs => refs.map (contradictionRef hash)

/-! ### What a hash is answered -/

theorem nearestDouble_pos {n : ℕ} (h : 0 < n) : 0 < Value.nearestDouble n := by
  unfold Value.nearestDouble
  split
  · exact_mod_cast h
  · next hlarge =>
    have hlog : n.log2 - 52 ≤ n.log2 := Nat.sub_le _ _
    have hpow : 2 ^ (n.log2 - 52) ≤ n :=
      (Nat.pow_le_pow_right (by decide) hlog).trans (Nat.log2_self_le h.ne')
    have hq : 0 < n / 2 ^ (n.log2 - 52) := Nat.div_pos hpow (by positivity)
    dsimp only
    split
    · positivity
    · exact_mod_cast Nat.mul_pos hq (by positivity)

namespace EdgeStore

variable {g : EdgeStore} {hash : String}

/-- A SUPERSEDES edge points into the memory. -/
def Superseded (g : EdgeStore) (hash : String) : Prop := ∃ src, (src, hash) ∈ g.supersedes

theorem any_indegree : ((Value.ofU64 (g.indegree hash)).asF64.any fun n => 0 < n) = true ↔ g.Superseded hash := by
  have hle : g.supersedes.countP (fun e => e.2 = hash) < 2 ^ 64 :=
    List.countP_le_length.trans_lt g.counted
  have htoNat : (g.indegree hash).toNat = g.supersedes.countP fun e => e.2 = hash :=
    UInt64.toNat_ofNat_of_lt' hle
  show decide (0 < Value.nearestDouble (g.indegree hash).toNat) = true ↔ _
  rw [decide_eq_true_iff, htoNat]
  constructor
  · intro hpos
    have hcount : 0 < g.supersedes.countP fun e => e.2 = hash := by
      rw [Nat.pos_iff_ne_zero]
      intro hzero
      rw [hzero] at hpos
      exact absurd hpos (by decide)
    obtain ⟨⟨src, dst⟩, hmem, hdst⟩ := List.countP_pos_iff.mp hcount
    exact ⟨src, by rwa [← of_decide_eq_true hdst]⟩
  · rintro ⟨src, hmem⟩
    exact nearestDouble_pos (List.countP_pos_iff.mpr ⟨(src, hash), hmem, decide_eq_true rfl⟩)

end EdgeStore

/-- The entry of an edge. -/
def ContradictsEdge.entry (g : EdgeStore) (e : ContradictsEdge) : Option ContradictionEntry :=
  Bridge.forHashesEntry (g.columns e)

namespace Bridge

theorem ne_empty_of_validateContentHash {h : String} (hvalid : validateContentHash h) : h.isEmpty = false := by
  have hsize := of_decide_eq_true (Bool.and_eq_true_iff.mp hvalid).1
  rw [String.isEmpty, hsize]
  rfl

/-- What an entry says of its edge. -/
theorem forHashesEntry_columns (g : EdgeStore) {e : ContradictsEdge} (he : e ∈ g.contradicts) :
    ∃ entry, forHashesEntry (g.columns e) = some entry ∧ entry.pair.memoryAHash = e.a ∧
      entry.pair.memoryBHash = e.b ∧ entry.pair.verdict = rowVerdict (g.columns e) ∧
      entry.resolved = !e.resolution.isNull ∧
      ((entry.memoryASuperseded || entry.memoryBSuperseded) = true ↔ g.Superseded e.a ∨ g.Superseded e.b) := by
  obtain ⟨ha, hb⟩ := g.valid e he
  have hrowA : rowHash (g.columns e) 0 = some e.a := by
    show (some e.a).filter _ = _
    simp [ne_empty_of_validateContentHash ha]
  have hrowB : rowHash (g.columns e) 1 = some e.b := by
    show (some e.b).filter _ = _
    simp [ne_empty_of_validateContentHash hb]
  unfold forHashesEntry
  rw [hrowA, hrowB]
  refine ⟨_, rfl, rfl, rfl, rfl, rfl, ?_⟩
  rw [Bool.or_eq_true]
  exact or_congr EdgeStore.any_indegree EdgeStore.any_indegree

theorem pushEntry_eq {map : String → Option (List ContradictionEntry)} {h : String}
    {entries : List ContradictionEntry} (hmap : map h = some entries) (side : String) (e : ContradictionEntry) :
    pushEntry map side e h = some (entries ++ if side = h then [e] else []) := by
  unfold pushEntry
  by_cases hside : side = h
  · rw [if_pos hside.symm, if_pos hside, hmap]
    rfl
  · rw [if_neg (Ne.symm hside), if_neg hside, hmap, List.append_nil]

/-- The entries filed under a requested hash are those of the rows that name it. -/
theorem mem_foldl_pushEntry (rows : List (List Value)) {map : String → Option (List ContradictionEntry)}
    {h : String} {entries : List ContradictionEntry} (hmap : map h = some entries) :
    ∃ filed, rows.foldl fileRow map h = some (entries ++ filed) ∧
      ∀ entry, entry ∈ filed ↔ (∃ row ∈ rows, forHashesEntry row = some entry) ∧
        (entry.pair.memoryAHash = h ∨ entry.pair.memoryBHash = h) := by
  induction rows generalizing map entries with
  | nil => exact ⟨[], by simp [hmap], by simp⟩
  | cons row rows ih =>
    rw [List.foldl_cons, fileRow]
    cases hrow : forHashesEntry row with
    | none =>
      obtain ⟨filed, hfold, hfiled⟩ := ih hmap
      exact ⟨filed, hfold, fun entry => by simp [hfiled, hrow]⟩
    | some e =>
      obtain ⟨filed, hfold, hfiled⟩ := ih (pushEntry_eq (pushEntry_eq hmap e.pair.memoryAHash e) e.pair.memoryBHash e)
      refine ⟨((if e.pair.memoryAHash = h then [e] else []) ++ if e.pair.memoryBHash = h then [e] else []) ++ filed,
        by simp only [hfold, List.append_assoc], fun entry => ?_⟩
      have hsides : entry ∈ ((if e.pair.memoryAHash = h then [e] else []) ++
          if e.pair.memoryBHash = h then [e] else []) ↔
            entry = e ∧ (entry.pair.memoryAHash = h ∨ entry.pair.memoryBHash = h) := by
        rw [List.mem_append]
        by_cases heq : entry = e
        · subst heq
          by_cases ha : entry.pair.memoryAHash = h <;> by_cases hb : entry.pair.memoryBHash = h <;> simp [ha, hb]
        · have hnot : ∀ side : String, entry ∉ if side = h then [e] else [] := by
            intro side
            split <;> simp [heq]
          simp [hnot, heq]
      rw [List.mem_append, hsides, hfiled, List.exists_mem_cons_iff, hrow, Option.some.injEq, eq_comm, or_and_right]

theorem pushEntry_eq_none {map : String → Option (List ContradictionEntry)} {h : String} (hmap : map h = none)
    (side : String) (e : ContradictionEntry) : pushEntry map side e h = none := by
  unfold pushEntry
  split
  · rw [hmap]
    rfl
  · exact hmap

theorem foldl_fileRow_eq_none (rows : List (List Value)) {map : String → Option (List ContradictionEntry)}
    {h : String} (hmap : map h = none) : rows.foldl fileRow map h = none := by
  induction rows generalizing map with
  | nil => exact hmap
  | cons row rows ih =>
    refine ih ?_
    unfold fileRow
    cases forHashesEntry row with
    | some e => exact pushEntry_eq_none (pushEntry_eq_none hmap e.pair.memoryAHash e) e.pair.memoryBHash e
    | none => exact hmap

/-- No other hash is answered. -/
theorem forHashes_eq_none {hashes : List String} {rows : List (List Value)}
    {body : String → Option (List ContradictionEntry)} (hbody : forHashes hashes rows = .ok body) {h : String}
    (hh : h ∉ hashes) : body h = none := by
  unfold forHashes at hbody
  split at hbody
  · cases hbody
  · obtain rfl := Except.ok.inj hbody
    exact foldl_fileRow_eq_none rows (if_neg hh)

/-- **What a requested hash is answered**: the entries of the edges that touch it, whatever the other hashes of
the request and the order of the rows. -/
theorem forHashes_spec {g : EdgeStore} {hashes : List String} (hfew : hashes.length ≤ maxForHashes)
    {rows : List (List Value)} (hrows : rows.Perm (g.getContradictionsForHashes hashes)) :
    ∃ body, forHashes hashes rows = .ok body ∧ ∀ h ∈ hashes, ∃ entries, body h = some entries ∧
      ∀ entry, entry ∈ entries ↔ ∃ e ∈ g.contradicts, e.entry g = some entry ∧ (e.a = h ∨ e.b = h) := by
  refine ⟨_, if_neg (not_lt.mpr hfew), fun h hh => ?_⟩
  have hempty : requested hashes h = some [] := if_pos hh
  obtain ⟨filed, hfold, hfiled⟩ := mem_foldl_pushEntry rows hempty
  refine ⟨filed, hfold, fun entry => ?_⟩
  rw [hfiled]
  constructor
  · rintro ⟨⟨row, hrow, hentry⟩, hside⟩
    obtain ⟨e, he, rfl⟩ := List.mem_map.mp (hrows.mem_iff.mp hrow)
    have hmem := (List.mem_filter.mp he).1
    obtain ⟨entry', hentry', ha, hb, -⟩ := forHashesEntry_columns g hmem
    obtain rfl := Option.some.inj (hentry.symm.trans hentry')
    exact ⟨e, hmem, hentry, by rwa [← ha, ← hb]⟩
  · rintro ⟨e, he, hentry, hside⟩
    obtain ⟨entry', hentry', ha, hb, -⟩ := forHashesEntry_columns g he
    obtain rfl := Option.some.inj (hentry.symm.trans hentry')
    refine ⟨⟨g.columns e, hrows.mem_iff.mpr (List.mem_map.mpr ⟨e, List.mem_filter.mpr ⟨he, ?_⟩, rfl⟩), hentry⟩,
      by rwa [ha, hb]⟩
    exact decide_eq_true (hside.imp (fun ha => by rwa [ha]) fun hb => by rwa [hb])

end Bridge

/-- An edge from the side of `hash`. -/
def ContradictsEdge.ref (g : EdgeStore) (hash : String) (e : ContradictsEdge) : Option ContradictionRef :=
  (e.entry g).map (contradictionRef hash)

/-- The endpoint that is not `hash`. -/
def ContradictsEdge.other (e : ContradictsEdge) (hash : String) : String := if e.a = hash then e.b else e.a

/-- What the side of a memory says of an edge. -/
theorem ref_spec {g : EdgeStore} {e : ContradictsEdge} (he : e ∈ g.contradicts) (hash : String) :
    ∃ r, e.ref g hash = some r ∧ r.contradictsHash = e.other hash ∧
      r.verdict = Bridge.rowVerdict (g.columns e) ∧ r.resolved = !e.resolution.isNull ∧
      (r.endpointSuperseded = true ↔ g.Superseded e.a ∨ g.Superseded e.b) := by
  obtain ⟨entry, hentry, ha, hb, hverdict, hresolved, hsuperseded⟩ := Bridge.forHashesEntry_columns g he
  refine ⟨contradictionRef hash entry, congrArg (Option.map (contradictionRef hash)) hentry, ?_, hverdict, hresolved,
    hsuperseded⟩
  rw [contradictionRef, ContradictsEdge.other, ha, hb]

/-- The refs of a requested hash are its edges from its side. -/
theorem refs_spec {g : EdgeStore} {hashes : List String} (hfew : hashes.length ≤ Bridge.maxForHashes)
    {rows : List (List Value)} (hrows : rows.Perm (g.getContradictionsForHashes hashes)) :
    ∃ body, Bridge.forHashes hashes rows = .ok body ∧ ∀ h ∈ hashes, ∃ refs, contradictionRefs body h = some refs ∧
      ∀ r, r ∈ refs ↔ ∃ e ∈ g.contradicts, (e.a = h ∨ e.b = h) ∧ e.ref g h = some r := by
  obtain ⟨body, hbody, hentries⟩ := Bridge.forHashes_spec hfew hrows
  refine ⟨body, hbody, fun h hh => ?_⟩
  obtain ⟨entries, hmap, hmem⟩ := hentries h hh
  refine ⟨entries.map (contradictionRef h), by rw [contradictionRefs, hmap]; rfl, fun r => ?_⟩
  constructor
  · intro hr
    obtain ⟨entry, hentry, rfl⟩ := List.mem_map.mp hr
    obtain ⟨e, he, heq, hside⟩ := (hmem entry).mp hentry
    exact ⟨e, he, hside, congrArg (Option.map (contradictionRef h)) heq⟩
  · rintro ⟨e, he, hside, href⟩
    obtain ⟨entry, heq, rfl⟩ := Option.map_eq_some_iff.mp href
    exact List.mem_map.mpr ⟨entry, (hmem entry).mpr ⟨e, he, heq, hside⟩, rfl⟩

end Alaya
