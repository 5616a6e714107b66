import Alaya.Core.Chains
import Alaya.Core.EdgeKept
import Alaya.Search.Modes

/-!
# What a replay shows

A search with `as_of = T` has no times of supersession to go by: it hides a memory whose marker names a survivor created
by T.  So whatever happens to the store after T, a memory that was superseded at T by a memory stored by T stays hidden
from a replay at T, unless its marker was taken off or led to another survivor, or one of the two was deleted
(`replay_hides`).
-/

namespace Alaya

open Json Labelled Ranking Rows

/-! ### What a call leaves of a supersession -/

/-- The calls that take the marker of a survivor `w` off the point `id`, put another survivor's there, or delete one of
the two points. -/
def Call.Unwinds (id survivorId : PointId) (w : String) : Call → Prop
  | .vectors (.update (.markSuperseded _ newHash _) i) => i = id ∧ newHash ≠ w
  | .vectors (.update (.reverse ..) i) => i = id
  | .vectors (.delete contentHash) => hashToUuid contentHash = .ok id ∨ hashToUuid contentHash = .ok survivorId
  | _ => False

/-- A store writes to the point that its hash names. -/
def Call.Addressed : Call → Prop
  | .vectors (.update (.store _ ctx _) id) => hashToUuid ctx.contentHash = .ok id
  | _ => True

/-- The memory at `id` is superseded by one at `survivorId` that was created by `t`, and every memory is at the point of
its hash. -/
structure Service.Supersedes (s : Service) (id survivorId : PointId) (w : String) (t : ℚ) : Prop where
  marker : s.marker id = some (.string w)
  survivor : ∃ p created, s.points survivorId = some p ∧ (p.get "created_at").bind Value.asF64 = some created ∧ created ≤ t
  suits : s.Suits fun i h => hashToUuid h = .ok i

variable {s s' : Service} {c : Call} {id survivorId : PointId} {w : String} {t : ℚ}

/-- **What does not unwind a supersession keeps its marker**: an access, a patch, a confirmation, a re-store, a mark by the
same survivor, or a conditional mark, which finds the marker there. -/
theorem marker_of_effect (h : s.Effect c s') (hc : ¬c.Unwinds id survivorId w) (hm : s.marker id = some (.string w)) :
    s'.marker id = some (.string w) := by
  cases h with
  | quiet | graph | queued => exact hm
  | @deleted contentHash i hi =>
    have hne : id ≠ i := fun hid => hc (.inl (hid ▸ hi))
    rw [marker_erase, Function.update_of_ne hne]
    exact hm
  | @landed op i p hland =>
    rw [marker_write]
    by_cases hid : id = i
    · subst hid
      rw [Function.update_self]
      obtain ⟨q, hq, hmarker⟩ := Option.bind_eq_some_iff.mp hm
      rw [hq] at hland
      have hlanding := landing_of_land hland
      have hrecord : p.marker = (op.revise q.record).marker := congrArg Record.marker (record_of_landing hlanding)
      have hkept : q.record.marker = some (.string w) := hmarker
      cases op with
      | markSuperseded oldHashes newHash reason =>
        have hsame : newHash = w := by
          by_contra hne
          exact hc ⟨rfl, hne⟩
        rw [hrecord, ← hsame]
        rfl
      | supersedeIfLive contentHash newHash reason =>
        cases hlanding with
        | merge hmerged =>
          cases hmerged with
          | superseded hmd hlive =>
            have hnone := (get_of_storedMetadata hmd supersededByKey).symm.trans hlive
            exact absurd (hnone.symm.trans hmarker) nofun
          | accessed htime => cases htime
      | reverse contentHash expected reversal => exact absurd rfl hc
      | _ => exact hrecord.trans hkept
    · rw [Function.update_of_ne hid]
      exact hm

/-- When a point was created. -/
def Service.createdAt (s : Service) (id : PointId) : Option Value := (s.points id).bind fun p => p.get "created_at"

theorem createdAt_write (s : Service) (op : Op) (i : PointId) (p : Payload) :
    (s.write op i p).createdAt = Function.update s.createdAt i (p.get "created_at") := by
  funext a
  by_cases ha : a = i
  · subst ha
    simp [Service.createdAt, Service.write]
  · simp [Service.createdAt, Service.write, ha]

theorem createdAt_erase (s : Service) (i : PointId) : (s.erase i).createdAt = Function.update s.createdAt i none := by
  funext a
  by_cases ha : a = i
  · subst ha
    simp [Service.createdAt, Service.erase]
  · simp [Service.createdAt, Service.erase, ha]

/-- **A creation time stays**, as long as its point is there. -/
theorem createdAt_of_effect (h : s.Effect c s') (hc : ¬c.Unwinds id survivorId w) {v : Value}
    (hv : s.createdAt survivorId = some v) : s'.createdAt survivorId = some v := by
  cases h with
  | quiet | graph | queued => exact hv
  | @deleted contentHash i hi =>
    have hne : survivorId ≠ i := fun hid => hc (.inr (hid ▸ hi))
    rw [createdAt_erase, Function.update_of_ne hne]
    exact hv
  | @landed op i p hland =>
    rw [createdAt_write]
    by_cases hid : survivorId = i
    · subst hid
      obtain ⟨q, hq, hcreated⟩ := Option.bind_eq_some_iff.mp hv
      rw [hq] at hland
      have hrecord : p.get "created_at" = (op.revise q.record).createdAt :=
        congrArg Record.createdAt (record_of_landing (landing_of_land hland))
      have hkept : q.record.createdAt = some v := hcreated
      rw [Function.update_self, hrecord]
      cases op with
      | store params ctx mode =>
        change q.record.createdAt.or _ = some v
        rw [hkept]
        rfl
      | _ => exact hkept
    · rw [Function.update_of_ne hid]
      exact hv

/-- A call of the stores after a supersession that does not unwind it. -/
structure Service.Spares (id survivorId : PointId) (w : String) (s : Service) (c : Call) (s' : Service) : Prop where
  effect : s.Effect c s'
  addressed : c.Addressed
  kept : ¬c.Unwinds id survivorId w

/-- **A supersession stays what it was** over every run of calls that do not unwind it. -/
theorem supersedes_run {calls : List Call} (h : s.Supersedes id survivorId w t)
    (hrun : Run (Service.Spares id survivorId w) s calls s') : s'.Supersedes id survivorId w t := by
  refine hrun.preserves (fun s => s.Supersedes id survivorId w t) h fun x c x' hx hstep => ?_
  refine ⟨marker_of_effect hstep.effect hstep.kept hx.marker, ?_, ?_⟩
  · obtain ⟨p, created, hp, hcreated, hle⟩ := hx.survivor
    obtain ⟨v, hv, hnumber⟩ := Option.bind_eq_some_iff.mp hcreated
    have hstays := createdAt_of_effect hstep.effect hstep.kept (v := v) (by rw [Service.createdAt, hp]; exact hv)
    obtain ⟨p', hp', hv'⟩ := Option.bind_eq_some_iff.mp hstays
    exact ⟨p', created, hp', by rw [hv']; exact hnumber, hle⟩
  · refine suits_effect (fun params ctx mode i hc => ?_) hstep.effect hx.suits
    have haddressed := hstep.addressed
    rw [hc] at haddressed
    exact haddressed

/-! ### What a search judges -/

/-- A memory that a search shows: it came with a pool whose survivors were looked up. -/
def Judged (getBatch : List String → Except AlayaError (List Memory)) (vis : Visibility) (m : Memory) : Prop :=
  ∃ pool survivors, MemoryService.survivorTimes getBatch vis pool = .ok survivors ∧ m ∈ pool ∧ vis.shows m survivors = true

theorem judged_fetchLiveWithRetry {getBatch : List String → Except AlayaError (List Memory)} {vis : Visibility}
    {fetch : ℕ → Except AlayaError (List ScoredMemory)} {target maxFetch fetchSize : ℕ} {hpos : 0 < fetchSize}
    {filtered : List ScoredMemory} {exhausted : Bool}
    (h : MemoryService.fetchLiveWithRetry getBatch vis fetch target maxFetch fetchSize hpos = .ok (filtered, exhausted)) :
    ∀ sm ∈ filtered, Judged getBatch vis sm.memory ∧ ∃ n raw, fetch n = .ok raw ∧ sm ∈ raw := by
  induction hn : maxFetch - fetchSize using Nat.strongRecOn generalizing fetchSize with
  | ind k ih =>
    unfold MemoryService.fetchLiveWithRetry at h
    split at h
    · cases h
    · next raw hraw =>
      split at h
      · cases h
      · next survivors hsurvivors =>
        dsimp only at h
        split_ifs at h with hstop
        · obtain ⟨rfl, -⟩ := Prod.mk.inj (Except.ok.inj h)
          intro sm hsm
          obtain ⟨hmem, hshows⟩ := List.mem_filter.mp hsm
          exact ⟨⟨_, survivors, hsurvivors, List.mem_map.mpr ⟨sm, hmem, rfl⟩, hshows⟩, _, raw, hraw, hmem⟩
        · exact ih _ (by omega) h rfl

/-- A fetch that brings less than it asked for is the last. -/
theorem fetchLiveWithRetry_exhausted {getBatch : List String → Except AlayaError (List Memory)} {vis : Visibility}
    {fetch : ℕ → Except AlayaError (List ScoredMemory)} {target maxFetch fetchSize : ℕ} {hpos : 0 < fetchSize}
    {raw : List ScoredMemory} {survivors : String → Option ℚ} (hraw : fetch fetchSize = .ok raw)
    (hshort : raw.length < fetchSize)
    (hsurvivors : MemoryService.survivorTimes getBatch vis (raw.map ScoredMemory.memory) = .ok survivors) :
    MemoryService.fetchLiveWithRetry getBatch vis fetch target maxFetch fetchSize hpos =
      .ok (raw.filter fun sm => vis.shows sm.memory survivors, true) := by
  unfold MemoryService.fetchLiveWithRetry
  rw [hraw]
  dsimp only
  rw [hsurvivors]
  simp [hshort]

theorem judged_searchSimilar {embedBatch : Except AlayaError (List (List ℚ))}
    {searchByVector : List ℚ → ℕ → Except AlayaError (List ScoredMemory)}
    {getBatch : List String → Except AlayaError (List Memory)} {query : String} {k : ℕ} {vis : Visibility}
    {rows : List ScoredMemory}
    (h : MemoryService.searchSimilar embedBatch searchByVector getBatch query k vis = .ok rows) :
    ∀ sm ∈ rows, Judged getBatch vis sm.memory ∧ ∃ v n raw, searchByVector v n = .ok raw ∧ sm ∈ raw := by
  obtain ⟨embedding, results, exhausted, hfetch, rfl⟩ := similar_window h
  intro sm hsm
  have hsm := List.mem_of_mem_take hsm
  unfold MemoryService.fetchSimilar at hfetch
  split_ifs at hfetch
  · obtain ⟨hjudged, n, raw, hraw, hmem⟩ := judged_fetchLiveWithRetry hfetch sm hsm
    exact ⟨hjudged, embedding, n, raw, hraw, hmem⟩
  · obtain ⟨raw, hraw, hfetch⟩ := bind_eq_ok.mp hfetch
    obtain ⟨survivors, hsurvivors, hfetch⟩ := bind_eq_ok.mp hfetch
    obtain ⟨rfl, -⟩ := Prod.mk.inj (Except.ok.inj hfetch)
    obtain ⟨hmem, hshows⟩ := List.mem_filter.mp hsm
    exact ⟨⟨_, survivors, hsurvivors, List.mem_map.mpr ⟨sm, hmem, rfl⟩, hshows⟩, embedding, 0, raw, hraw, hmem⟩

/-- A memory that some read of a search answered. -/
def SearchBackends.Answers (b : SearchBackends) (m : Memory) : Prop :=
  (∃ n pool, b.searchByText n = .ok pool ∧ ∃ sm ∈ pool, sm.memory = m) ∨
    (∃ v n pool, b.searchByVector v n = .ok pool ∧ ∃ sm ∈ pool, sm.memory = m) ∨
    ∃ hashes memories, b.getBatch hashes = .ok memories ∧ m ∈ memories

section

variable {table : TableOrder} {params : HybridParams} {vis : Visibility}
  {getBatch : List String → Except AlayaError (List Memory)}

theorem shows_of_admits {m : Memory} {survivors : String → Option ℚ} (h : params.admits vis m survivors = true) :
    vis.shows m survivors = true := by
  simp only [HybridParams.admits, Bool.and_eq_true] at h
  exact h.1.1

theorem mem_of_lookupMemory {memories : List Memory} {hash : String} {m : Memory}
    (h : MemoryService.lookupMemory memories hash = some m) : m ∈ memories :=
  List.mem_reverse.mp (List.mem_of_find?_eq_some h)

/-- An injected neighbour is judged with those read beside it. -/
theorem judged_injectNeighbors {spreading : Activations} {fused : List Fused} {sm : ScoredMemory}
    (h : sm ∈ injectNeighbors table getBatch vis (params.admits vis) spreading fused) :
    Judged getBatch vis sm.memory ∧ ∃ hashes memories, getBatch hashes = .ok memories ∧ sm.memory ∈ memories := by
  unfold injectNeighbors at h
  dsimp only at h
  split_ifs at h with hempty
  · exact absurd h List.not_mem_nil
  · split at h
    · exact absurd h List.not_mem_nil
    · next memories survivors hread =>
      obtain ⟨memories', hbatch, hread⟩ := bind_eq_ok.mp hread
      obtain ⟨survivors', hsurvivors, hread⟩ := bind_eq_ok.mp hread
      obtain ⟨rfl, rfl⟩ := Prod.mk.inj (Except.ok.inj hread)
      obtain ⟨⟨m, a⟩, hpicked, rfl⟩ := List.mem_map.mp h
      obtain ⟨hfound, hadmit⟩ := List.mem_filter.mp (List.mem_of_mem_take hpicked)
      obtain ⟨p, -, hp⟩ := List.mem_filterMap.mp hfound
      obtain ⟨m', hlookup, heq⟩ := Option.map_eq_some_iff.mp hp
      obtain ⟨rfl, -⟩ := Prod.mk.inj heq
      have hmem := mem_of_lookupMemory hlookup
      exact ⟨⟨memories', survivors', hsurvivors, hmem, shows_of_admits hadmit⟩, _, memories', hbatch, hmem⟩

theorem judged_hybridRows {b : SearchBackends} {asOf : Option ℚ} {now : ℚ} {rows : List ScoredMemory}
    (h : MemoryService.hybridRows table b.toHybridBackends params asOf now = some (.ok rows)) :
    ∀ sm ∈ rows, Judged b.getBatch ⟨params.includeSuperseded, asOf⟩ sm.memory ∧ b.Answers sm.memory := by
  obtain ⟨answer, -, hrows⟩ := Option.map_eq_some_iff.mp h
  obtain ⟨shown, -, hrows⟩ := bind_eq_ok.mp hrows
  obtain ⟨r, hr, hrows⟩ := bind_eq_ok.mp hrows
  obtain rfl := Except.ok.inj hrows
  unfold MemoryService.hybridRanking at hr
  obtain ⟨embeddings, -, hr⟩ := bind_eq_ok.mp hr
  obtain ⟨embedding, -, hr⟩ := bind_eq_ok.mp hr
  obtain ⟨vector, hvector, hr⟩ := bind_eq_ok.mp hr
  obtain ⟨survivors, hsurvivors, rfl, -⟩ := rankHybrid_perm hr
  intro sm hsm
  obtain ⟨p, -, hp⟩ := List.mem_filterMap.mp hsm
  obtain ⟨sm', hsm', rfl⟩ := Option.map_eq_some_iff.mp hp
  have hmem := List.mem_of_find?_eq_some (show List.find? _ _ = some sm' from hsm')
  rw [List.mem_append, List.mem_append, List.mem_reverse] at hmem
  rcases hmem with (hmem | hmem) | hmem
  · obtain ⟨hpool, hadmit⟩ := List.mem_filter.mp hmem
    refine ⟨⟨_, survivors, hsurvivors, ?_, shows_of_admits hadmit⟩, .inr (.inl ⟨_, _, vector, hvector, sm', hpool, rfl⟩)⟩
    exact List.mem_map.mpr ⟨sm', List.mem_append_left _ hpool, rfl⟩
  · obtain ⟨hpool, hadmit⟩ := List.mem_filter.mp hmem
    have hjudged : Judged b.getBatch ⟨params.includeSuperseded, asOf⟩ sm'.memory :=
      ⟨_, survivors, hsurvivors, List.mem_map.mpr ⟨sm', List.mem_append_right _ hpool, rfl⟩, shows_of_admits hadmit⟩
    refine ⟨hjudged, .inl ?_⟩
    cases htext : b.searchByText (hybridFetch params.pageSize params.page) with
    | error e =>
      rw [htext] at hpool
      exact absurd hpool List.not_mem_nil
    | ok pool =>
      rw [htext] at hpool
      exact ⟨_, pool, htext, sm', hpool, rfl⟩
  · obtain ⟨hjudged, hanswered⟩ := judged_injectNeighbors hmem
    exact ⟨hjudged, .inr (.inr hanswered)⟩

end

/-! ### The replay -/

/-- A memory that the store held after some calls that unwind nothing. -/
def Service.Held (id survivorId : PointId) (w : String) (s : Service) (m : Memory) : Prop :=
  ∃ calls x i, Run (Service.Spares id survivorId w) s calls x ∧ (x.points i).bind parsePayload = some m

theorem point_of_suits (h : s.Suits fun i h => hashToUuid h = .ok i) {i : PointId} {m : Memory}
    (hm : (s.points i).bind parsePayload = some m) (hid : hashToUuid m.contentHash = .ok id) : i = id :=
  Except.ok.inj ((h i m hm).symm.trans hid)

/-- The survivor of a supersession was created by its time, whenever it is read. -/
theorem createdAt_of_held (h : s.Supersedes id survivorId w t) (hname : hashToUuid w = .ok survivorId) {m : Memory}
    (hheld : s.Held id survivorId w m) (hw : m.contentHash = w) : m.createdAt ≤ t := by
  obtain ⟨calls, x, i, hrun, hm⟩ := hheld
  have hx := supersedes_run h hrun
  obtain ⟨p, hp, hparse⟩ := Option.bind_eq_some_iff.mp hm
  obtain rfl := point_of_suits hx.suits hm (hw ▸ hname)
  obtain ⟨p', created, hp', hcreated, hle⟩ := hx.survivor
  obtain rfl : p = p' := Option.some.inj (hp.symm.trans hp')
  rw [(parsePayload_eq_some hparse).2.2.2.1, hcreated]
  exact hle

/-- What is read of a superseded memory names its survivor. -/
theorem marker_of_held (h : s.Supersedes id survivorId w t) {m : Memory} (hheld : s.Held id survivorId w m)
    (hid : hashToUuid m.contentHash = .ok id) : m.supersessionMarker = some (.string w) := by
  obtain ⟨calls, x, i, hrun, hm⟩ := hheld
  have hx := supersedes_run h hrun
  obtain ⟨p, hp, hparse⟩ := Option.bind_eq_some_iff.mp hm
  obtain rfl := point_of_suits hx.suits hm hid
  have hmarker := hx.marker
  rw [Service.marker, hp] at hmarker
  exact (supersessionMarker_of_parse hparse).trans hmarker

theorem created_of_judged {getBatch : List String → Except AlayaError (List Memory)} {vis : Visibility} (hasOf : vis.asOf = some t)
    {m : Memory} (h : Judged getBatch vis m) : m.createdAt ≤ t := by
  obtain ⟨pool, survivors, -, -, hshows⟩ := h
  have hcreated := (Bool.and_eq_true_iff.mp hshows).1
  rw [hasOf] at hcreated
  exact of_decide_eq_true hcreated

/-- **A superseded memory is not shown at the time of its supersession**, when its survivor is read from the store. -/
theorem not_shows_of_held (h : s.Supersedes id survivorId w t) (hname : hashToUuid w = .ok survivorId)
    {getBatch : List String → Except AlayaError (List Memory)} {vis : Visibility} (hasOf : vis.asOf = some t)
    (hhide : vis.includeSuperseded = false)
    (hbatch : ∀ hashes memories, getBatch hashes = .ok memories → ∀ m ∈ memories, s.Held id survivorId w m)
    {m : Memory} (hheld : s.Held id survivorId w m) (hid : hashToUuid m.contentHash = .ok id) :
    ¬Judged getBatch vis m := by
  rintro ⟨pool, survivors, hsurvivors, -, hshows⟩
  have hmarker := marker_of_held h hheld hid
  have hsuperseded : vis.superseded m survivors = false := by
    simpa [Visibility.shows, hhide] using (Bool.and_eq_true_iff.mp hshows).2
  rw [Visibility.superseded, hmarker, hasOf] at hsuperseded
  dsimp only at hsuperseded
  rw [← Bool.not_eq_true, Option.all_eq_true] at hsuperseded
  refine hsuperseded fun created hcreated => decide_eq_true ?_
  obtain ⟨hash, hsurvivor, hlookup⟩ := Option.bind_eq_some_iff.mp hcreated
  obtain rfl : w = hash := by
    have hstr := (Option.filter_eq_some_iff.mp hsurvivor).1
    exact Option.some.inj hstr
  unfold MemoryService.survivorTimes at hsurvivors
  split_ifs at hsurvivors
  · obtain rfl := Except.ok.inj hsurvivors
    exact absurd hlookup.symm (Option.some_ne_none created)
  · dsimp only at hsurvivors
    split_ifs at hsurvivors
    · obtain rfl := Except.ok.inj hsurvivors
      exact absurd hlookup.symm (Option.some_ne_none created)
    · cases hread : getBatch _ with
      | error e =>
        rw [hread] at hsurvivors
        cases hsurvivors
      | ok memories =>
        rw [hread] at hsurvivors
        obtain rfl := Except.ok.inj hsurvivors
        obtain ⟨m', hm', rfl⟩ := Option.map_eq_some_iff.mp hlookup
        have hmem := mem_of_lookupMemory hm'
        have hw := contentHash_of_lookupMemory hm'
        exact createdAt_of_held h hname (hbatch _ _ hread m' hmem) hw

/-- **A replay shows no memory that was superseded at its time**, and none that was created later.  Each read of the search may be answered at a state of
its own, reached by calls that do not unwind the supersession; it answers memories that the store held there, and not
all of them. -/
theorem replay_hides (h : s.Supersedes id survivorId w t) (hname : hashToUuid w = .ok survivorId) {table : TableOrder}
    {b : SearchBackends} (hheld : ∀ m, b.Answers m → s.Held id survivorId w m) {req : SearchRequest} {now : ℚ}
    (hhide : req.includeSuperseded = false) {rows : List ScoredMemory}
    (hrows : MemoryService.searchWith table b req true (some t) now = some (.ok rows)) :
    ∀ sm ∈ rows, sm.memory.createdAt ≤ t ∧ hashToUuid sm.memory.contentHash ≠ .ok id := by
  have hbatch : ∀ hashes memories, b.getBatch hashes = .ok memories → ∀ m ∈ memories, s.Held id survivorId w m :=
    fun hashes memories hread m hm => hheld m (.inr (.inr ⟨hashes, memories, hread, hm⟩))
  suffices hjudged : ∀ sm ∈ rows, Judged b.getBatch ⟨req.includeSuperseded, some t⟩ sm.memory ∧ b.Answers sm.memory by
    intro sm hsm
    obtain ⟨hshown, hanswered⟩ := hjudged sm hsm
    refine ⟨created_of_judged rfl hshown, fun hid => ?_⟩
    exact not_shows_of_held h hname rfl hhide hbatch (hheld _ hanswered) hid hshown
  unfold MemoryService.searchWith at hrows
  split_ifs at hrows with hsize
  · cases Option.some.inj hrows
  cases hasOf : validateAsOf (some t) req.mode true now with
  | error e =>
    rw [hasOf] at hrows
    cases Option.some.inj hrows
  | ok =>
    rw [hasOf] at hrows
    dsimp only at hrows
    cases hmode : req.mode with
    | hybrid =>
      rw [hmode] at hrows
      exact judged_hybridRows hrows
    | similar =>
      rw [hmode] at hrows
      intro sm hsm
      obtain ⟨hjudged, v, n, raw, hraw, hmem⟩ := judged_searchSimilar (Option.some.inj hrows) sm hsm
      exact ⟨hjudged, .inr (.inl ⟨v, n, raw, hraw, sm, hmem, rfl⟩)⟩
    | scan | tag | recent => simp [validateAsOf, hmode] at hasOf

/-! ### A supersession that is read later -/

namespace Replayed

def dated (content contentHash : String) (created : ℚ) : Payload :=
  storedPayload content contentHash ++ [("created_at", .number (.float created))]

/-- An old memory, created at 1, and a new one, created at 2. -/
def stored : Service :=
  { twoMemories with
    points := Function.update (Function.update (fun _ => none)
      survivorPoint (some (dated "new" survivorHash 2))) eldestPoint (some (dated "old" eldestHash 1)) }

/-- The new one supersedes the old one. -/
def mark : Call := .vectors (.update (.markSuperseded [eldestHash] survivorHash "outdated") eldestPoint)

def superseded : Service := (Service.serve mark stored).2

/-- The old memory is accessed. -/
def access : Call := .vectors (.update (.incrementAccess eldestHash 7) eldestPoint)

def accessed : Service := (Service.serve access superseded).2

/-- The memories of two points. -/
def both (s : Service) : List Memory :=
  [eldestPoint, survivorPoint].filterMap fun id => (s.points id).bind parsePayload

/-- The pools are read before the access, the survivors after it. -/
def backends : SearchBackends where
  toHybridBackends := { Unfiltered.backends.toHybridBackends with
    searchByText := fun _ => .ok []
    searchByVector := fun _ _ => .ok ((both superseded).map fun m => ⟨m, 1⟩)
    getBatch := fun _ => .ok (both accessed) }
  scroll _ _ := .ok ([], none)
  searchByTags _ _ _ := .ok []
  getRecent _ _ _ := .ok []

def request : SearchRequest := { Unfiltered.request with mode := .similar }

theorem suits_stored : stored.Suits fun id h => hashToUuid h = .ok id := by
  intro id m hm
  obtain ⟨p, hp, hparse⟩ := Option.bind_eq_some_iff.mp hm
  have hhash := (parsePayload_eq_some hparse).2.1
  unfold stored at hp
  dsimp only at hp
  by_cases hold : id = eldestPoint
  · subst hold
    rw [Function.update_self] at hp
    obtain rfl := Option.some.inj hp
    rw [← (Value.string.inj (Option.some.inj hhash) : eldestHash = m.contentHash)]
    decide +kernel
  by_cases hnew : id = survivorPoint
  · subst hnew
    rw [Function.update_of_ne hold, Function.update_self] at hp
    obtain rfl := Option.some.inj hp
    rw [← (Value.string.inj (Option.some.inj hhash) : survivorHash = m.contentHash)]
    decide +kernel
  · rw [Function.update_of_ne hold, Function.update_of_ne hnew] at hp
    cases hp

theorem supersedes_superseded : superseded.Supersedes eldestPoint survivorPoint survivorHash 5 where
  marker := by decide +kernel
  survivor := ⟨dated "new" survivorHash 2, 2, by decide +kernel, rfl, by norm_num⟩
  suits := by
    refine suits_effect (fun params ctx mode id h => ?_) (Service.effect_of_serve mark stored) suits_stored
    have hupdates := congrArg Call.updates h
    cases hupdates

theorem survivorTimes_both : ∃ survivors,
    MemoryService.survivorTimes backends.getBatch ⟨false, some 5⟩
      (((both superseded).map fun m => (⟨m, 1⟩ : ScoredMemory)).map ScoredMemory.memory) = .ok survivors := by
  unfold MemoryService.survivorTimes
  split_ifs
  · exact ⟨_, rfl⟩
  · dsimp only
    split_ifs
    · exact ⟨_, rfl⟩
    · exact ⟨_, rfl⟩

/-- What the search shows of them. -/
def shown (survivors : String → Option ℚ) : List ScoredMemory :=
  ((both superseded).map fun m => ⟨m, 1⟩).filter fun sm => Visibility.shows ⟨false, some 5⟩ sm.memory survivors

theorem new_mem_both : ∃ m ∈ both superseded, m.supersessionMarker = none ∧ m.createdAt = 2 := by
  refine ⟨_, List.mem_filterMap.mpr ⟨survivorPoint, by simp, rfl⟩, ?_, ?_⟩ <;> decide +kernel

/-- It shows the new memory. -/
theorem search_accessed : ∃ rows,
    MemoryService.searchWith inOrder backends request true (some 5) 9 = some (.ok rows) ∧ rows ≠ [] := by
  obtain ⟨survivors, hsurvivors⟩ := survivorTimes_both
  have hfetch : MemoryService.fetchSimilar backends.getBatch ⟨false, some 5⟩ (backends.searchByVector []) 10 =
      .ok (shown survivors, true) :=
    fetchLiveWithRetry_exhausted rfl (by decide +kernel) hsurvivors
  have hsearch : MemoryService.searchSimilar (.ok [[]]) backends.searchByVector backends.getBatch "q" 10 ⟨false, some 5⟩ =
      .ok ((shown survivors).take 10) := by
    unfold MemoryService.searchSimilar
    rw [if_neg (by decide)]
    show (MemoryService.fetchSimilar _ _ _ _ >>= _) = _
    rw [hfetch]
    rfl
  refine ⟨_, congrArg some hsearch, fun hnil => ?_⟩
  obtain ⟨m, hm, hlive, hcreated⟩ := new_mem_both
  have hshows : Visibility.shows ⟨false, some 5⟩ m survivors = true := by
    simp only [Visibility.shows, Visibility.superseded, hlive, hcreated]
    decide
  have hmem : (⟨m, 1⟩ : ScoredMemory) ∈ shown survivors :=
    List.mem_filter.mpr ⟨List.mem_map.mpr ⟨m, hm, rfl⟩, hshows⟩
  rcases List.take_eq_nil_iff.mp hnil with hnil | hnil
  · cases hnil
  · rw [hnil] at hmem
    exact absurd hmem List.not_mem_nil

theorem held_both {s : Service} {calls : List Call}
    (h : Run (Service.Spares eldestPoint survivorPoint survivorHash) superseded calls s) {m : Memory} (hm : m ∈ both s) :
    superseded.Held eldestPoint survivorPoint survivorHash m := by
  obtain ⟨id, -, hid⟩ := List.mem_filterMap.mp hm
  exact ⟨calls, s, id, h, hid⟩

theorem run_accessed : Run (Service.Spares eldestPoint survivorPoint survivorHash) superseded [access] accessed :=
  .step (e := access) .start ⟨Service.effect_of_serve access superseded, trivial, id⟩

end Replayed

open Replayed in
/-- The search of it, at a time between. -/
theorem replay_hides_accessed : ∃ rows,
    MemoryService.searchWith inOrder Replayed.backends Replayed.request true (some 5) 9 = some (.ok rows) ∧ rows ≠ [] ∧
      ∀ sm ∈ rows, sm.memory.createdAt ≤ 5 ∧ hashToUuid sm.memory.contentHash ≠ .ok eldestPoint := by
  obtain ⟨rows, hrows, hne⟩ := search_accessed
  refine ⟨rows, hrows, hne, replay_hides supersedes_superseded (by decide +kernel) (fun m hm => ?_) rfl hrows⟩
  rcases hm with ⟨n, pool, hpool, sm, hsm, -⟩ | ⟨v, n, pool, hpool, sm, hsm, rfl⟩ | ⟨hashes, memories, hbatch, hmem⟩
  · obtain rfl := Except.ok.inj hpool
    exact absurd hsm List.not_mem_nil
  · obtain rfl := Except.ok.inj hpool
    obtain ⟨m, hm, rfl⟩ := List.mem_map.mp hsm
    exact held_both .start hm
  · obtain rfl := Except.ok.inj hbatch
    exact held_both run_accessed hmem

end Alaya
