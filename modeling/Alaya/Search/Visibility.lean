import Alaya.Core.Contradictions

/-!
# What a search may show

`Visibility` decides which memories a search shows: live ones now or, with a time to replay at, those
that were live then, by the creation times of the survivors their markers name.  `fetchLiveWithRetry`
filters an over-fetch by it and doubles the fetch until enough is left.
-/

namespace Alaya

open Json

/-- What a paged search is asked for. -/
structure SearchParams where
  page : ℕ
  pageSize : ℕ
  tags : Option (List String)
  matchAll : Bool
  memoryType : Option String
  includeSuperseded : Bool
  /-- The creation time that recent mode goes on from. -/
  cursor : Option ℚ

/-- Which memories a search may show: live ones now or, with a time, the store as it stood then. -/
structure Visibility where
  includeSuperseded : Bool
  asOf : Option ℚ

namespace Visibility

/-- A marker whose survivor is not in the store hides the memory at every time. -/
def superseded (vis : Visibility) (m : Memory) (survivors : String → Option ℚ) : Bool :=
  match m.supersessionMarker, vis.asOf with
  | none, _ => false
  | some _, none => true
  | some marker, some t => ((survivorOf marker m.contentHash).bind survivors).all fun created => created ≤ t

def shows (vis : Visibility) (m : Memory) (survivors : String → Option ℚ) : Bool :=
  (vis.asOf.all fun t => m.createdAt ≤ t) && (vis.includeSuperseded || !vis.superseded m survivors)

def needsSurvivors (vis : Visibility) : Bool := vis.asOf.isSome && !vis.includeSuperseded

end Visibility

namespace MemoryService

/-- The creation time of each survivor the marked memories of a pool name. -/
def survivorTimes (getBatch : List String → Except AlayaError (List Memory)) (vis : Visibility)
    (pool : List Memory) : Except AlayaError (String → Option ℚ) :=
  if !vis.needsSurvivors then .ok fun _ => none
  else
    let hashes := pool.filterMap fun m => m.supersessionMarker.bind fun v => survivorOf v m.contentHash
    if hashes.isEmpty then .ok fun _ => none
    else
      (getBatch (hashes.mergeSort fun h h' => h ≤ h').dedup).map fun memories hash =>
        (lookupMemory memories hash).map Memory.createdAt

/-- What is visible of a fetch of at least `fetchSize`, doubled until that is `target`, the store has no
more, or `maxFetch` is reached; and whether the store has no more. -/
def fetchLiveWithRetry (getBatch : List String → Except AlayaError (List Memory)) (vis : Visibility)
    (fetch : ℕ → Except AlayaError (List ScoredMemory)) (target maxFetch fetchSize : ℕ)
    (hpos : 0 < fetchSize) : Except AlayaError (List ScoredMemory × Bool) :=
  match fetch fetchSize with
  | .error e => .error e
  | .ok raw =>
    -- Judged on the raw answer, so filtering never reads as exhaustion.
    let exhausted := decide (raw.length < fetchSize)
    match survivorTimes getBatch vis (raw.map ScoredMemory.memory) with
    | .error e => .error e
    | .ok survivors =>
      let filtered := raw.filter fun sm => vis.shows sm.memory survivors
      if h : target ≤ filtered.length ∨ exhausted ∨ maxFetch ≤ fetchSize then .ok (filtered, exhausted)
      else
        fetchLiveWithRetry getBatch vis fetch target maxFetch (min (fetchSize * 2) maxFetch) (by omega)
termination_by maxFetch - fetchSize

end MemoryService

/-- The memories a search of the store as it is now shows. -/
def Visibility.showsNow (includeSuperseded : Bool) (m : Memory) : Bool := includeSuperseded || !m.isSuperseded

@[simp] theorem Visibility.shows_now {includeSuperseded : Bool} {m : Memory} {survivors : String → Option ℚ} :
    Visibility.shows ⟨includeSuperseded, none⟩ m survivors = Visibility.showsNow includeSuperseded m := by
  unfold shows superseded showsNow Memory.isSuperseded
  cases m.supersessionMarker <;> rfl

theorem survivorTimes_now {getBatch : List String → Except AlayaError (List Memory)} {includeSuperseded : Bool}
    {pool : List Memory} :
    MemoryService.survivorTimes getBatch ⟨includeSuperseded, none⟩ pool = .ok fun _ => none := rfl

/-- **What an over-fetch of the store as it is now comes to**, when a fetch answers the first of one
list. -/
theorem fetchLiveWithRetry_eq (getBatch : List String → Except AlayaError (List Memory))
    (includeSuperseded : Bool) (target maxFetch : ℕ) {fetchSize : ℕ} (hpos : 0 < fetchSize)
    {fetch : ℕ → Except AlayaError (List ScoredMemory)} {rows : List ScoredMemory} (hfetch : ∀ n, fetch n = .ok (rows.take n)) :
    ∃ n ≤ max maxFetch fetchSize,
      MemoryService.fetchLiveWithRetry getBatch ⟨includeSuperseded, none⟩ fetch target maxFetch fetchSize hpos =
          .ok ((rows.take n).filter fun sm => Visibility.showsNow includeSuperseded sm.memory,
            decide (rows.length < n)) ∧
        (target ≤ ((rows.take n).filter fun sm => Visibility.showsNow includeSuperseded sm.memory).length ∨
          rows.length < n ∨ n = max maxFetch fetchSize) := by
  induction hn : maxFetch - fetchSize using Nat.strongRecOn generalizing fetchSize with
  | ind k ih =>
    have hexhausted : decide ((rows.take fetchSize).length < fetchSize) = decide (rows.length < fetchSize) := by
      rw [List.length_take]
      exact decide_eq_decide.mpr (by omega)
    unfold MemoryService.fetchLiveWithRetry
    rw [hfetch]
    simp only [survivorTimes_now, Visibility.shows_now, hexhausted, decide_eq_true_eq]
    split_ifs with hstop
    · exact ⟨fetchSize, le_max_right _ _, rfl, by omega⟩
    · have hpos' : 0 < min (fetchSize * 2) maxFetch := by omega
      obtain ⟨n, hle, heq, hdone⟩ := ih (maxFetch - min (fetchSize * 2) maxFetch) (by omega) hpos' rfl
      have hmax : max maxFetch (min (fetchSize * 2) maxFetch) = max maxFetch fetchSize := by omega
      rw [hmax] at hle hdone
      exact ⟨n, hle, heq, hdone⟩

end Alaya
