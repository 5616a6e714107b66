import Alaya.Backends.Embedding

/-!
# The cached embedding provider

`embedBatch` looks every text up in the process's cache and, for what is missing there, in the shared
one; it asks the embedding client for the rest and puts the answers back by position.  Both caches and
the hash behind their keys are foreign code: a call meets any view of them, and the keys are a parameter.
-/

namespace Alaya

/-- What one read of the shared cache comes to, under its deadline. -/
inductive L2Get where
  | found (embedding : Embedding)
  | absent
  /-- The entry is off-format. -/
  | undecodable
  | failed
  | timedOut
  deriving DecidableEq

namespace L2Get

/-- A hit carries the dimensions the provider serves. -/
def embedding (dimensions : ℕ) : L2Get → Option Embedding
  | found e => if e.length ≠ dimensions then none else some e
  | _ => none

/-- Only a failed round-trip counts against the breaker. -/
def isFailure : L2Get → Bool
  | failed | timedOut => true
  | _ => false

end L2Get

def breakerThreshold : ℕ := 3

def breakerCooldownSecs : ℚ := 30

/-- The circuit breaker of the shared cache; it is closed while `openSince` is zero. -/
structure Breaker where
  failures : ℕ
  openSince : ℚ
  deriving DecidableEq

namespace Breaker

def available (b : Breaker) (now : ℚ) : Bool := b.openSince = 0 || breakerCooldownSecs ≤ now - b.openSince

def success (b : Breaker) : Breaker := if 0 < b.failures then ⟨0, 0⟩ else b

def failure (b : Breaker) (now : ℚ) : Breaker :=
  if b.openSince ≠ 0 ∨ breakerThreshold ≤ b.failures + 1 then ⟨b.failures + 1, now⟩
  else ⟨b.failures + 1, b.openSince⟩

/-- A batch counts once, and failure wins ties. -/
def recordBatch (b : Breaker) (now : ℚ) (successes failures : ℕ) : Breaker :=
  if 0 < failures ∧ successes ≤ failures then b.failure now
  else if 0 < successes then b.success
  else b

end Breaker

/-- What one call meets of the two caches: the process's cache at its start, the outcome of its `i`th
read of the shared one (`none` where that is not configured), the breaker, what other calls make of the
breaker meanwhile, and its readings of the clock. -/
structure CacheView where
  l1 : String → Option Embedding
  l2 : Option (ℕ → String → L2Get)
  breaker : Breaker
  others : Breaker → Breaker
  clock : ℕ → ℚ

/-- What a call ends in. -/
inductive Embedded where
  | ok (vectors : List Embedding)
  | error (e : AlayaError)
  | panicked
  deriving DecidableEq

/-- A call's outcome, and what it wrote to the two caches. -/
structure EmbedRun where
  outcome : Embedded
  l1Inserts : List (String × Embedding)
  l2Sets : List (String × Embedding)

/-- The slots of a batch, the positions still missing, the entries it copied from the shared cache, and
the breaker after the reads. -/
structure CacheLookup where
  results : List (Option Embedding)
  misses : List ℕ
  inserts : List (String × Embedding)
  breaker : Breaker

namespace CachedEmbedding

/-- `results[i] = Some(e)` for every pair, in order. -/
def setEach (results : List (Option Embedding)) (writes : List (ℕ × Embedding)) :
    List (Option Embedding) :=
  writes.foldl (fun results w => results.set w.1 (some w.2)) results

/-- Pair the keys of some positions with vectors. -/
def entries (keys : List String) (writes : List (ℕ × Embedding)) : List (String × Embedding) :=
  writes.filterMap fun w => keys[w.1]?.map fun k => (k, w.2)

/-- `Option::unwrap` on every slot. -/
def unwrapAll (results : List (Option Embedding)) : Embedded :=
  match results.mapM id with
  | some vectors => .ok vectors
  | none => .panicked

def lookupL1 (view : CacheView) (keys : List String) : CacheLookup :=
  let results := keys.map view.l1
  { results
    misses := (List.range keys.length).filter fun i => results[i]? = some none
    inserts := []
    breaker := view.breaker }

/-- Ask the shared cache for what is missing. -/
def lookupL2 (view : CacheView) (dimensions : ℕ) (keys : List String) (l : CacheLookup) : CacheLookup :=
  match view.l2 with
  | none => l
  | some get =>
    if l.breaker.available (view.clock 0) && !l.misses.isEmpty then
      let reads := l.misses.zipIdx.map fun (idx, i) => (idx, (keys[idx]?).elim .absent (get i))
      let found := reads.filterMap fun (idx, read) => (read.embedding dimensions).map fun e => (idx, e)
      { results := setEach l.results found
        misses := (reads.filter fun r => (r.2.embedding dimensions).isNone).map Prod.fst
        inserts := entries keys found
        breaker := l.breaker.recordBatch (view.clock 1)
          (reads.countP fun r => !r.2.isFailure) (reads.countP fun r => r.2.isFailure) }
    else l

def lookup (view : CacheView) (dimensions : ℕ) (keys : List String) : CacheLookup :=
  lookupL2 view dimensions keys (lookupL1 view keys)

/-- The texts that neither cache holds. -/
def missTexts (texts : List String) (l : CacheLookup) : List String := l.misses.filterMap fun i => texts[i]?

/-- `EmbeddingProvider::embed_batch` of the cache. -/
def embedBatch (client : EmbeddingClient) (cacheKey : String → ℕ → PromptName → String → Except AlayaError String)
    (view : CacheView) (endpoint : Endpoint) (texts : List String) (promptName : PromptName) : EmbedRun :=
  match texts.mapM (cacheKey client.model client.dimensions promptName) with
  | .error e => ⟨.error e, [], []⟩
  | .ok keys =>
    let l := lookup view client.dimensions keys
    if l.misses.isEmpty then ⟨unwrapAll l.results, l.inserts, []⟩
    else
      match client.embedBatch endpoint (missTexts texts l) promptName with
      | .error e => ⟨.error e, l.inserts, []⟩
      | .ok fresh =>
        let placed := l.misses.zip fresh
        let results := setEach l.results placed
        let sets := l.misses.filterMap fun i => (results[i]?).join.map fun e => (i, e)
        { outcome := unwrapAll results
          l1Inserts := l.inserts ++ entries keys placed
          l2Sets :=
            if view.l2.isSome && (view.others l.breaker).available (view.clock 2) then entries keys sets
            else [] }

end CachedEmbedding

/-! ### Writing by position -/

section

open CachedEmbedding

variable {results : List (Option Embedding)} {writes : List (ℕ × Embedding)} {misses : List ℕ}
  {fresh : List Embedding} {i : ℕ}

@[simp] theorem length_setEach : (setEach results writes).length = results.length := by
  unfold setEach
  induction writes generalizing results with
  | nil => rfl
  | cons w writes ih => rw [List.foldl_cons, ih, List.length_set]

/-- A position that is not written stays. -/
theorem setEach_of_notMem (hi : i ∉ writes.map Prod.fst) : (setEach results writes)[i]? = results[i]? := by
  unfold setEach
  induction writes generalizing results with
  | nil => rfl
  | cons w writes ih =>
    rw [List.map_cons, List.mem_cons, not_or] at hi
    rw [List.foldl_cons, ih hi.2, List.getElem?_set_ne fun heq => hi.1 heq.symm]

theorem fst_zip_subset (hi : i ∈ (misses.zip fresh).map Prod.fst) : i ∈ misses := by
  obtain ⟨w, hw, rfl⟩ := List.mem_map.mp hi
  exact (List.of_mem_zip hw).1

/-- **The empty slots are filled with what they stand for exactly if the vectors begin with that.** -/
theorem setEach_zip_iff (f : ℕ → Embedding) (hnodup : misses.Nodup)
    (hempty : ∀ i ∈ misses, results[i]? = some none) :
    (∀ i ∈ misses, (setEach results (misses.zip fresh))[i]? = some (some (f i))) ↔
      misses.map f <+: fresh := by
  induction misses generalizing results fresh with
  | nil => simp
  | cons i misses ih =>
    obtain ⟨hi, hrest⟩ := List.nodup_cons.mp hnodup
    cases fresh with
    | nil =>
      refine iff_of_false (fun h => ?_) (by simp)
      have hslot := h i List.mem_cons_self
      rw [List.zip_nil_right] at hslot
      cases (hempty i List.mem_cons_self).symm.trans hslot
    | cons e fresh =>
      have hlength : i < results.length :=
        (List.getElem?_eq_some_iff.mp (hempty i List.mem_cons_self)).1
      have hempty' : ∀ j ∈ misses, (results.set i (some e))[j]? = some none := by
        intro j hj
        have hne : i ≠ j := fun heq => hi (heq.symm ▸ hj)
        rw [List.getElem?_set_ne hne]
        exact hempty j (List.mem_cons_of_mem _ hj)
      have hhead : (setEach (results.set i (some e)) (misses.zip fresh))[i]? = some (some e) := by
        rw [setEach_of_notMem fun hmem => hi (fst_zip_subset hmem), List.getElem?_set_self hlength]
      rw [List.map_cons, List.cons_prefix_cons, ← ih hrest hempty', List.forall_mem_cons]
      refine and_congr ?_ .rfl
      show (setEach (results.set i (some e)) (misses.zip fresh))[i]? = _ ↔ _
      rw [hhead, Option.some_inj, Option.some_inj]
      exact eq_comm

/-- Every slot of `texts` holds the text's own vector or is missing. -/
structure Filled (vector : String → Embedding) (texts : List String) (results : List (Option Embedding))
    (misses : List ℕ) : Prop where
  length_eq : results.length = texts.length
  nodup : misses.Nodup
  missing : ∀ i, i ∈ misses ↔ results[i]? = some none
  own : ∀ (i : ℕ) (e : Embedding), results[i]? = some (some e) → (texts[i]?).map vector = some e

variable {vector : String → Embedding} {texts keys : List String}

/-- The vector of the text at a position. -/
def vectorAt (vector : String → Embedding) (texts : List String) (i : ℕ) : Embedding :=
  ((texts[i]?).map vector).getD []

theorem map_getElem? (hi : i < texts.length) :
    (texts[i]?).map vector = some (vectorAt vector texts i) := by
  rw [vectorAt, List.getElem?_eq_getElem hi]
  rfl

theorem Filled.lt (h : Filled vector texts results misses) (hi : i ∈ misses) : i < texts.length := by
  rw [← h.length_eq]
  exact (List.getElem?_eq_some_iff.mp ((h.missing i).mp hi)).1

/-- The vectors of the missing texts are the vectors at the missing positions. -/
theorem Filled.map_missTexts (h : Filled vector texts results misses) :
    (misses.filterMap fun i => texts[i]?).map vector = misses.map (vectorAt vector texts) := by
  have hlt : ∀ i ∈ misses, i < texts.length := fun i hi => h.lt hi
  clear h
  induction misses with
  | nil => rfl
  | cons i misses ih =>
    have hi := List.getElem?_eq_getElem (hlt i List.mem_cons_self)
    rw [List.filterMap_cons_some hi, List.map_cons, List.map_cons,
      ih fun j hj => hlt j (List.mem_cons_of_mem _ hj), vectorAt, hi]
    rfl

theorem mapM_id_eq_some {vectors : List Embedding} :
    results.mapM id = some vectors ↔ results = vectors.map some := by
  induction results generalizing vectors with
  | nil => cases vectors <;> simp
  | cons slot results ih =>
    rw [List.mapM_cons]
    cases slot with
    | none => cases vectors <;> simp
    | some e =>
      cases hrest : results.mapM id with
      | none =>
        have hnone : ∀ vectors : List Embedding, results ≠ vectors.map some := by
          intro vectors heq
          cases hrest.symm.trans (ih.mpr heq)
        cases vectors with
        | nil => simp
        | cons e' vectors => simpa using fun _ => hnone vectors
      | some vectors' =>
        obtain rfl := ih.mp hrest
        cases vectors with
        | nil => simp
        | cons e' vectors =>
          simp [(Option.some_injective Embedding).list_map.eq_iff]

/-- The slots unwrap to the vectors of the texts exactly if each holds its text's. -/
theorem unwrapAll_eq_ok_iff (hlength : results.length = texts.length) :
    unwrapAll results = .ok (texts.map vector) ↔
      ∀ i < texts.length, results[i]? = some (some (vectorAt vector texts i)) := by
  have hunwrap : unwrapAll results = .ok (texts.map vector) ↔ results = (texts.map vector).map some := by
    rw [← mapM_id_eq_some]
    unfold unwrapAll
    cases results.mapM id <;> simp
  have hslot : ∀ i < texts.length,
      ((texts.map vector).map some)[i]? = some (some (vectorAt vector texts i)) := by
    intro i hi
    rw [List.getElem?_map, List.getElem?_map, map_getElem? hi]
    rfl
  rw [hunwrap]
  constructor
  · rintro rfl i hi
    exact hslot i hi
  · intro hall
    refine List.ext_getElem? fun i => ?_
    by_cases hi : i < texts.length
    · rw [hall i hi, hslot i hi]
    · rw [List.getElem?_eq_none (by omega), List.getElem?_eq_none (by simp; omega)]

/-- **Filling in what is missing** gives every text its vector exactly if the new vectors begin with
those of the missing texts. -/
theorem Filled.unwrapAll_iff (h : Filled vector texts results misses) :
    unwrapAll (setEach results (misses.zip fresh)) = .ok (texts.map vector) ↔
      (misses.filterMap fun i => texts[i]?).map vector <+: fresh := by
  rw [unwrapAll_eq_ok_iff (by rw [length_setEach, h.length_eq]), h.map_missTexts,
    ← setEach_zip_iff _ h.nodup fun i hi => (h.missing i).mp hi]
  refine ⟨fun hall i hi => hall i (h.lt hi), fun hmissing i hi => ?_⟩
  by_cases hmiss : i ∈ misses
  · exact hmissing i hmiss
  · rw [setEach_of_notMem fun hmem => hmiss (fst_zip_subset hmem)]
    -- A slot that was not missing holds its own vector.
    have hlt : i < results.length := by rw [h.length_eq]; exact hi
    cases hslot : results[i] with
    | none => exact absurd ((h.missing i).mpr (by rw [List.getElem?_eq_getElem hlt, hslot])) hmiss
    | some e =>
      have hget : results[i]? = some (some e) := by rw [List.getElem?_eq_getElem hlt, hslot]
      have hown := h.own i e hget
      rw [map_getElem? hi] at hown
      rw [hget, Option.some.inj hown]

/-- The slot of a written position. -/
theorem setEach_of_mem {e : Embedding} (hnodup : (writes.map Prod.fst).Nodup) (hmem : (i, e) ∈ writes)
    (hi : i < results.length) : (setEach results writes)[i]? = some (some e) := by
  induction writes generalizing results with
  | nil => cases hmem
  | cons w writes ih =>
    rw [List.map_cons, List.nodup_cons] at hnodup
    show (setEach (results.set w.1 (some w.2)) writes)[i]? = _
    cases hmem with
    | head => rw [setEach_of_notMem hnodup.1, List.getElem?_set_self hi]
    | tail _ hmem => exact ih hnodup.2 hmem (by rwa [List.length_set])

/-- Writing some of the missing vectors leaves the others missing. -/
theorem Filled.fill {left : List ℕ} (h : Filled vector texts results misses)
    (hperm : (writes.map Prod.fst ++ left).Perm misses)
    (hown : ∀ w ∈ writes, (texts[w.1]?).map vector = some w.2) :
    Filled vector texts (setEach results writes) left := by
  have hboth : (writes.map Prod.fst ++ left).Nodup := hperm.nodup_iff.mpr h.nodup
  obtain ⟨hwritten, hleft, hdisjoint⟩ := List.nodup_append.mp hboth
  have hmiss : ∀ i, i ∈ misses ↔ i ∈ writes.map Prod.fst ∨ i ∈ left := by
    intro i
    rw [← hperm.mem_iff, List.mem_append]
  have hslot : ∀ w ∈ writes, (setEach results writes)[w.1]? = some (some w.2) := by
    intro w hw
    have hlt := h.lt ((hmiss w.1).mpr (.inl (List.mem_map_of_mem hw)))
    exact setEach_of_mem hwritten hw (by rw [h.length_eq]; exact hlt)
  refine ⟨by rw [length_setEach, h.length_eq], hleft, fun i => ?_, fun i e hget => ?_⟩
  · by_cases hi : i ∈ writes.map Prod.fst
    · obtain ⟨w, hw, rfl⟩ := List.mem_map.mp hi
      rw [hslot w hw]
      exact iff_of_false (fun hleft => hdisjoint _ hi _ hleft rfl) (by simp)
    · rw [setEach_of_notMem hi, ← h.missing, hmiss]
      exact ⟨.inr, fun hor => hor.resolve_left hi⟩
  · by_cases hi : i ∈ writes.map Prod.fst
    · obtain ⟨w, hw, rfl⟩ := List.mem_map.mp hi
      obtain rfl := Option.some.inj (Option.some.inj ((hslot w hw).symm.trans hget))
      exact hown w hw
    · rw [setEach_of_notMem hi] at hget
      exact h.own i e hget

theorem unwrapAll_ne_error (e : AlayaError) : unwrapAll results ≠ .error e := by
  unfold unwrapAll
  cases results.mapM id <;> simp

theorem unwrapAll_eq_panicked_iff :
    unwrapAll results = .panicked ↔ ∃ i : ℕ, results[i]? = some none := by
  have hmapM : unwrapAll results = .panicked ↔ results.mapM id = none := by
    unfold unwrapAll
    cases results.mapM id <;> simp
  rw [hmapM]
  constructor
  · intro hnone
    by_contra hslots
    -- With every slot taken the vectors can be read off.
    refine absurd (mapM_id_eq_some.mpr ?_ : results.mapM id = some (results.map (Option.getD · []))) (by simp [hnone])
    rw [List.map_map]
    refine List.ext_getElem? fun i => ?_
    rw [List.getElem?_map]
    cases hslot : results[i]? with
    | none => rfl
    | some slot =>
      cases slot with
      | none => exact absurd ⟨i, hslot⟩ hslots
      | some e => rfl
  · rintro ⟨i, hslot⟩
    cases hvectors : results.mapM id with
    | none => rfl
    | some vectors =>
      rw [mapM_id_eq_some.mp hvectors, List.getElem?_map] at hslot
      cases hget : vectors[i]? <;> simp [hget] at hslot

/-- **Unwrapping panics exactly if there are fewer vectors than missing texts.** -/
theorem Filled.unwrapAll_panicked_iff (h : Filled vector texts results misses) :
    unwrapAll (setEach results (misses.zip fresh)) = .panicked ↔ fresh.length < misses.length := by
  rw [unwrapAll_eq_panicked_iff]
  constructor
  · rintro ⟨i, hslot⟩
    by_contra hlength
    have hfst : (misses.zip fresh).map Prod.fst = misses := List.map_fst_zip (Nat.le_of_not_lt hlength)
    by_cases hi : i ∈ misses
    · rw [← hfst] at hi
      obtain ⟨w, hw, rfl⟩ := List.mem_map.mp hi
      have hlt := h.lt (fst_zip_subset hi)
      rw [setEach_of_mem (by rw [hfst]; exact h.nodup) hw (by rw [h.length_eq]; exact hlt)] at hslot
      cases hslot
    · rw [setEach_of_notMem fun hmem => hi (fst_zip_subset hmem)] at hslot
      exact hi ((h.missing i).mpr hslot)
  · intro hlength
    have hmem : misses[fresh.length] ∈ misses := List.getElem_mem hlength
    refine ⟨misses[fresh.length], ?_⟩
    rw [setEach_of_notMem, ← h.missing]
    · exact hmem
    · -- The first vectors go to the positions before it.
      intro hwritten
      have hfst : (misses.zip fresh).map Prod.fst = misses.take fresh.length := by
        rw [List.zip_eq_zip_take_min, Nat.min_eq_right hlength.le, List.take_length]
        exact List.map_fst_zip (by rw [List.length_take]; omega)
      rw [hfst] at hwritten
      obtain ⟨j, hj, heq⟩ := List.mem_take_iff_getElem.mp hwritten
      have := (h.nodup.getElem_inj_iff).mp heq
      omega

end

/-! ### Transparency -/

section

open CachedEmbedding

variable (key : String → Except AlayaError String) (vector : String → Embedding)

/-- Both caches hold under a text's key nothing but the text's vector. -/
structure CacheView.Own (view : CacheView) : Prop where
  l1 : ∀ t k e, key t = .ok k → view.l1 k = some e → e = vector t
  l2 : ∀ get i t k e, view.l2 = some get → key t = .ok k → get i k = .found e → e = vector t

/-- A call answers every text with its vector or fails, and caches a text's vector under its key. -/
structure Transparent (texts : List String) (run : EmbedRun) : Prop where
  answers : (∃ e, run.outcome = .error e) ∨ run.outcome = .ok (texts.map vector)
  caches : ∀ entry ∈ run.l1Inserts ++ run.l2Sets, ∃ t ∈ texts, key t = .ok entry.1 ∧ entry.2 = vector t

variable {key vector} {view : CacheView} {texts keys : List String} {dimensions : ℕ}

/-- A key stands at the position of its text. -/
theorem exists_text {i : ℕ} {k : String} (hkeys : List.Forall₂ (fun t k => key t = .ok k) texts keys)
    (hget : keys[i]? = some k) : ∃ t, texts[i]? = some t ∧ key t = .ok k := by
  induction hkeys generalizing i with
  | nil => cases hget
  | cons hk _ ih =>
    cases i with
    | zero =>
      obtain rfl := Option.some.inj hget
      exact ⟨_, rfl, hk⟩
    | succ i => exact ih hget

/-- The entries written for some positions are those of their texts. -/
theorem entries_own {writes : List (ℕ × Embedding)}
    (hkeys : List.Forall₂ (fun t k => key t = .ok k) texts keys)
    (hown : ∀ w ∈ writes, (texts[w.1]?).map vector = some w.2) :
    ∀ entry ∈ entries keys writes, ∃ t ∈ texts, key t = .ok entry.1 ∧ entry.2 = vector t := by
  intro entry hentry
  obtain ⟨w, hw, hmap⟩ := List.mem_filterMap.mp hentry
  obtain ⟨k, hk, rfl⟩ := Option.map_eq_some_iff.mp hmap
  obtain ⟨t, ht, hkey⟩ := exists_text hkeys hk
  have hvector := hown w hw
  rw [ht] at hvector
  exact ⟨t, List.mem_of_getElem? ht, hkey, (Option.some.inj hvector).symm⟩

/-- The positions with a vector and those without are all positions. -/
theorem hits_perm {α : Type} (f : α → Option Embedding) (reads : List (ℕ × α)) :
    ((reads.filterMap fun r => (f r.2).map fun e => (r.1, e)).map Prod.fst ++
      (reads.filter fun r => (f r.2).isNone).map Prod.fst).Perm (reads.map Prod.fst) := by
  induction reads with
  | nil => rfl
  | cons r reads ih =>
    cases hr : f r.2 with
    | none => simpa [hr] using List.perm_middle.trans (ih.cons r.1)
    | some e => simpa [hr] using ih.cons r.1

theorem L2Get.embedding_eq_some {read : L2Get} {e : Embedding} (h : read.embedding dimensions = some e) :
    read = .found e := by
  cases read with
  | found e' =>
    simp only [L2Get.embedding, Option.ite_none_left_eq_some, Option.some.injEq] at h
    rw [h.2]
  | _ => cases h

theorem lookupL1_filled (hown : view.Own key vector)
    (hkeys : List.Forall₂ (fun t k => key t = .ok k) texts keys) :
    Filled vector texts (lookupL1 view keys).results (lookupL1 view keys).misses := by
  have hlength := hkeys.length_eq
  refine ⟨by simp [lookupL1, hlength], List.nodup_range.filter _, fun i => ?_, fun i e hget => ?_⟩
  · simp only [lookupL1, List.mem_filter, List.mem_range, decide_eq_true_eq, and_iff_right_iff_imp]
    intro hslot
    have hi := (List.getElem?_eq_some_iff.mp hslot).1
    rwa [List.length_map] at hi
  · simp only [lookupL1, List.getElem?_map, Option.map_eq_some_iff] at hget
    obtain ⟨k, hk, hl1⟩ := hget
    obtain ⟨t, ht, hkey⟩ := exists_text hkeys hk
    rw [ht, hown.l1 t k e hkey hl1]
    rfl

/-- **Both lookups leave every slot with its text's vector or missing, and copy entries under their own
keys.** -/
theorem lookup_filled (dimensions : ℕ) (hown : view.Own key vector)
    (hkeys : List.Forall₂ (fun t k => key t = .ok k) texts keys) :
    Filled vector texts (lookup view dimensions keys).results (lookup view dimensions keys).misses ∧
      ∀ entry ∈ (lookup view dimensions keys).inserts, ∃ t ∈ texts, key t = .ok entry.1 ∧ entry.2 = vector t := by
  have hl1 := lookupL1_filled hown hkeys
  have hnone : ∀ entry ∈ (lookupL1 view keys).inserts, ∃ t ∈ texts, key t = .ok entry.1 ∧ entry.2 = vector t :=
    fun entry hentry => (List.not_mem_nil hentry).elim
  unfold lookup lookupL2
  generalize lookupL1 view keys = l at hl1 hnone
  cases hget : view.l2 with
  | none => exact ⟨hl1, hnone⟩
  | some get =>
    dsimp only
    split_ifs
    · set reads := l.misses.zipIdx.map fun (ji : ℕ × ℕ) =>
        (ji.1, (keys[ji.1]?).elim L2Get.absent (get ji.2)) with hreads
      set found := reads.filterMap fun r => (r.2.embedding dimensions).map fun e => (r.1, e) with hfound
      have hfst : reads.map Prod.fst = l.misses := by
        rw [hreads, List.map_map]
        exact List.zipIdx_map_fst 0 l.misses
      have hperm := hits_perm (L2Get.embedding dimensions) reads
      rw [hfst] at hperm
      have hfoundOwn : ∀ w ∈ found, (texts[w.1]?).map vector = some w.2 := by
        intro w hw
        obtain ⟨r, hr, hmap⟩ := List.mem_filterMap.mp hw
        obtain ⟨e, he, rfl⟩ := Option.map_eq_some_iff.mp hmap
        obtain ⟨ji, -, rfl⟩ := List.mem_map.mp hr
        have hread := L2Get.embedding_eq_some he
        cases hk : keys[ji.1]? with
        | none =>
          rw [hk] at hread
          cases hread
        | some k =>
          rw [hk] at hread
          obtain ⟨t, ht, hkey⟩ := exists_text hkeys hk
          show (texts[ji.1]?).map vector = some e
          rw [ht, hown.l2 get _ t k e hget hkey hread]
          rfl
      exact ⟨hl1.fill hperm hfoundOwn, entries_own hkeys hfoundOwn⟩
    · exact ⟨hl1, hnone⟩

variable (client : EmbeddingClient) (cacheKey : String → ℕ → PromptName → String → Except AlayaError String)
  (view : CacheView) (endpoint : Endpoint) (texts : List String) (promptName : PromptName)
  (vector : String → Embedding)

/-- Where the client answers the texts that neither cache holds, its answer begins with their vectors. -/
def Served : Prop :=
  ∀ keys fresh, texts.mapM (cacheKey client.model client.dimensions promptName) = .ok keys →
    client.embedBatch endpoint (missTexts texts (lookup view client.dimensions keys)) promptName = .ok fresh →
      (missTexts texts (lookup view client.dimensions keys)).map vector <+: fresh

/-- The client answers the texts that neither cache holds with fewer vectors. -/
def FallsShort : Prop :=
  ∃ keys fresh, texts.mapM (cacheKey client.model client.dimensions promptName) = .ok keys ∧
    client.embedBatch endpoint (missTexts texts (lookup view client.dimensions keys)) promptName = .ok fresh ∧
      fresh.length < (missTexts texts (lookup view client.dimensions keys)).length

variable {client cacheKey view endpoint texts promptName vector}

theorem mem_zip_of_isPrefix {misses : List ℕ} {f : ℕ → Embedding} {fresh : List Embedding}
    (h : misses.map f <+: fresh) {w : ℕ × Embedding} (hw : w ∈ misses.zip fresh) : w.2 = f w.1 := by
  induction misses generalizing fresh with
  | nil => cases hw
  | cons i misses ih =>
    obtain ⟨fresh, rfl⟩ := h
    rw [List.map_cons, List.cons_append, List.zip_cons_cons, List.mem_cons] at hw
    rcases hw with rfl | hw
    · rfl
    · exact ih (List.prefix_append _ _) hw

/-- With an answer for the missing texts, a call unwraps the filled slots. -/
theorem outcome_of_fresh {keys : List String} {fresh : List Embedding}
    (hkeys : texts.mapM (cacheKey client.model client.dimensions promptName) = .ok keys)
    (hfresh : client.embedBatch endpoint (missTexts texts (lookup view client.dimensions keys)) promptName =
      .ok fresh) :
    (embedBatch client cacheKey view endpoint texts promptName).outcome =
      unwrapAll (setEach (lookup view client.dimensions keys).results
        ((lookup view client.dimensions keys).misses.zip fresh)) := by
  unfold embedBatch
  rw [hkeys]
  dsimp only
  cases hempty : (lookup view client.dimensions keys).misses.isEmpty with
  | true =>
    rw [List.isEmpty_iff.mp hempty]
    rfl
  | false =>
    rw [hfresh]
    rfl

theorem run_of_error {keys : List String} {e : AlayaError}
    (hkeys : texts.mapM (cacheKey client.model client.dimensions promptName) = .ok keys)
    (herror : client.embedBatch endpoint (missTexts texts (lookup view client.dimensions keys)) promptName =
      .error e) :
    embedBatch client cacheKey view endpoint texts promptName =
      ⟨.error e, (lookup view client.dimensions keys).inserts, []⟩ := by
  have hempty : (lookup view client.dimensions keys).misses.isEmpty = false := by
    by_contra hempty
    rw [Bool.not_eq_false, List.isEmpty_iff] at hempty
    rw [missTexts, hempty] at herror
    cases herror
  unfold embedBatch
  rw [hkeys]
  dsimp only
  rw [hempty, herror]
  rfl

/-- What a call writes when the answer begins with the vectors of the missing texts. -/
theorem caches_own {keys : List String} {fresh : List Embedding}
    (hown : view.Own (cacheKey client.model client.dimensions promptName) vector)
    (hkeys : texts.mapM (cacheKey client.model client.dimensions promptName) = .ok keys)
    (hfresh : client.embedBatch endpoint (missTexts texts (lookup view client.dimensions keys)) promptName =
      .ok fresh)
    (hstart : (missTexts texts (lookup view client.dimensions keys)).map vector <+: fresh) :
    ∀ entry ∈ (embedBatch client cacheKey view endpoint texts promptName).l1Inserts ++
        (embedBatch client cacheKey view endpoint texts promptName).l2Sets,
      ∃ t ∈ texts, cacheKey client.model client.dimensions promptName t = .ok entry.1 ∧ entry.2 = vector t := by
  have hall := Rows.forall₂_of_mapM hkeys
  obtain ⟨hfilled, hinserts⟩ := lookup_filled client.dimensions hown hall
  unfold embedBatch
  rw [hkeys]
  dsimp only
  generalize hl : lookup view client.dimensions keys = l at *
  rw [missTexts, hfilled.map_missTexts] at hstart
  have hplaced : ∀ w ∈ l.misses.zip fresh, (texts[w.1]?).map vector = some w.2 := by
    intro w hw
    rw [map_getElem? (hfilled.lt (List.of_mem_zip hw).1), mem_zip_of_isPrefix hstart hw]
  have hslots := (setEach_zip_iff _ hfilled.nodup fun i hi => (hfilled.missing i).mp hi).mpr hstart
  have hsets : ∀ w ∈ l.misses.filterMap fun i =>
      ((setEach l.results (l.misses.zip fresh))[i]?).join.map fun e => (i, e),
      (texts[w.1]?).map vector = some w.2 := by
    intro w hw
    obtain ⟨i, hi, hslot⟩ := List.mem_filterMap.mp hw
    rw [hslots i hi] at hslot
    obtain rfl := Option.some.inj hslot
    exact map_getElem? (hfilled.lt hi)
  cases l.misses.isEmpty with
  | true => simpa using hinserts
  | false =>
    rw [hfresh]
    intro entry hentry
    rcases List.mem_append.mp hentry with hl1 | hl2
    · rcases List.mem_append.mp hl1 with hcopied | hinserted
      · exact hinserts entry hcopied
      · exact entries_own hall hplaced entry hinserted
    · change entry ∈ if _ then _ else _ at hl2
      split at hl2
      · exact entries_own hall hsets entry hl2
      · cases hl2

/-- **With an answer for the missing texts, a call is transparent exactly if the answer begins with their
vectors, and panics exactly if it is too short.** -/
theorem transparent_of_fresh {keys : List String} {fresh : List Embedding}
    (hown : view.Own (cacheKey client.model client.dimensions promptName) vector)
    (hkeys : texts.mapM (cacheKey client.model client.dimensions promptName) = .ok keys)
    (hfresh : client.embedBatch endpoint (missTexts texts (lookup view client.dimensions keys)) promptName =
      .ok fresh) :
    (Transparent (cacheKey client.model client.dimensions promptName) vector texts
        (embedBatch client cacheKey view endpoint texts promptName) ↔
      (missTexts texts (lookup view client.dimensions keys)).map vector <+: fresh) ∧
    ((embedBatch client cacheKey view endpoint texts promptName).outcome = .panicked ↔
      fresh.length < (missTexts texts (lookup view client.dimensions keys)).length) := by
  obtain ⟨hfilled, -⟩ := lookup_filled client.dimensions hown (Rows.forall₂_of_mapM hkeys)
  have houtcome := outcome_of_fresh hkeys hfresh
  refine ⟨⟨fun h => ?_, fun hstart => ⟨.inr ?_, caches_own hown hkeys hfresh hstart⟩⟩, ?_⟩
  · rcases h.answers with ⟨e, he⟩ | hok
    · exact absurd (houtcome.symm.trans he) (unwrapAll_ne_error e)
    · exact hfilled.unwrapAll_iff.mp (houtcome.symm.trans hok)
  · rw [houtcome]
    exact hfilled.unwrapAll_iff.mpr hstart
  · have hlength : (missTexts texts (lookup view client.dimensions keys)).length =
        (lookup view client.dimensions keys).misses.length := by
      have hmap := congrArg List.length hfilled.map_missTexts
      rwa [List.length_map, List.length_map] at hmap
    rw [houtcome, hlength]
    exact hfilled.unwrapAll_panicked_iff

theorem run_of_key_error {e : AlayaError}
    (hkeys : texts.mapM (cacheKey client.model client.dimensions promptName) = .error e) :
    embedBatch client cacheKey view endpoint texts promptName = ⟨.error e, [], []⟩ := by
  unfold embedBatch
  rw [hkeys]

/-- A failed call is transparent. -/
theorem transparent_of_error {keys : List String} {e : AlayaError}
    (hown : view.Own (cacheKey client.model client.dimensions promptName) vector)
    (hkeys : texts.mapM (cacheKey client.model client.dimensions promptName) = .ok keys)
    (herror : client.embedBatch endpoint (missTexts texts (lookup view client.dimensions keys)) promptName =
      .error e) :
    Transparent (cacheKey client.model client.dimensions promptName) vector texts
      (embedBatch client cacheKey view endpoint texts promptName) := by
  obtain ⟨-, hinserts⟩ := lookup_filled client.dimensions hown (Rows.forall₂_of_mapM hkeys)
  rw [run_of_error hkeys herror]
  refine ⟨.inl ⟨e, rfl⟩, fun entry hentry => hinserts entry ?_⟩
  rwa [List.append_nil] at hentry

theorem transparent_iff_served (hown : view.Own (cacheKey client.model client.dimensions promptName) vector) :
    Transparent (cacheKey client.model client.dimensions promptName) vector texts
        (embedBatch client cacheKey view endpoint texts promptName) ↔
      Served client cacheKey view endpoint texts promptName vector := by
  constructor
  · intro h keys fresh hkeys hfresh
    exact (transparent_of_fresh hown hkeys hfresh).1.mp h
  · intro h
    cases hkeys : texts.mapM (cacheKey client.model client.dimensions promptName) with
    | error e =>
      rw [run_of_key_error hkeys]
      exact ⟨.inl ⟨e, rfl⟩, fun entry hentry => (List.not_mem_nil hentry).elim⟩
    | ok keys =>
      cases hfresh : client.embedBatch endpoint
          (missTexts texts (lookup view client.dimensions keys)) promptName with
      | error e => exact transparent_of_error hown hkeys hfresh
      | ok fresh => exact (transparent_of_fresh hown hkeys hfresh).1.mpr (h keys fresh hkeys hfresh)

theorem panicked_iff_fallsShort (hown : view.Own (cacheKey client.model client.dimensions promptName) vector) :
    (embedBatch client cacheKey view endpoint texts promptName).outcome = .panicked ↔
      FallsShort client cacheKey view endpoint texts promptName := by
  constructor
  · intro h
    cases hkeys : texts.mapM (cacheKey client.model client.dimensions promptName) with
    | error e =>
      rw [run_of_key_error hkeys] at h
      cases h
    | ok keys =>
      cases hfresh : client.embedBatch endpoint
          (missTexts texts (lookup view client.dimensions keys)) promptName with
      | error e =>
        rw [run_of_error hkeys hfresh] at h
        cases h
      | ok fresh => exact ⟨keys, fresh, hkeys, hfresh, (transparent_of_fresh hown hkeys hfresh).2.mp h⟩
  · rintro ⟨keys, fresh, hkeys, hfresh, hshort⟩
    exact (transparent_of_fresh hown hkeys hfresh).2.mpr hshort

/-- **The embedding cache is transparent exactly if the client's answer for the missing texts begins with
their vectors; it panics exactly if that answer is shorter.**  A well-formed endpoint is served
transparently, whatever the order of its items. -/
theorem embedding_cache_transparent (client : EmbeddingClient)
    (cacheKey : String → ℕ → PromptName → String → Except AlayaError String) (view : CacheView)
    (endpoint : Endpoint) (texts : List String) (promptName : PromptName) (vector : String → Embedding)
    (hown : view.Own (cacheKey client.model client.dimensions promptName) vector) :
    (Transparent (cacheKey client.model client.dimensions promptName) vector texts
        (embedBatch client cacheKey view endpoint texts promptName) ↔
      Served client cacheKey view endpoint texts promptName vector) ∧
    ((embedBatch client cacheKey view endpoint texts promptName).outcome = .panicked ↔
      FallsShort client cacheKey view endpoint texts promptName) ∧
    (endpoint.WellFormed promptName vector →
      Served client cacheKey view endpoint texts promptName vector) := by
  refine ⟨transparent_iff_served hown, panicked_iff_fallsShort hown, fun hwell keys fresh _ hfresh => ?_⟩
  rw [EmbeddingClient.embedBatch_eq hwell hfresh]

end

/-! ### Two endpoints -/

namespace TwoEndpoints

def client : EmbeddingClient := EmbeddingClient.new "m" 1 32

/-- The text itself as its key. -/
def cacheKey (_ : String) (_ : ℕ) (_ : PromptName) (text : String) : Except AlayaError String := .ok text

def vector (text : String) : Embedding := [(prefixText .passage text).length]

/-- Both caches empty. -/
def view : CacheView where
  l1 _ := none
  l2 := some fun _ _ => .absent
  breaker := ⟨0, 0⟩
  others := id
  clock i := i

/-- An empty list of items. -/
def silent : Endpoint := fun _ _ => .ok []

/-- The length of every text, the last text's first. -/
def lengths : Endpoint := fun _ texts => .ok (texts.zipIdx.map fun tj => ⟨[tj.1.length], tj.2⟩).reverse

theorem lengths_wellFormed : lengths.WellFormed .passage vector := by
  intro i texts items h
  obtain rfl := Except.ok.inj h
  rw [List.zipIdx_map, List.map_map]
  exact List.reverse_perm _

theorem own : view.Own (cacheKey client.model client.dimensions .passage) vector where
  l1 _ _ _ _ h := by cases h
  l2 get i _ _ _ hget _ h := by
    obtain rfl := Option.some.inj hget
    cases h

/-- The process's cache holds one text, the shared one another, and its entry for a third is off-format. -/
def warmView : CacheView where
  l1 key := if key = "a" then some (vector "a") else none
  l2 := some fun _ key => if key = "bc" then .found (vector "bc") else if key = "def" then .undecodable else .absent
  breaker := ⟨0, 0⟩
  others := id
  clock i := i

theorem warm_own : warmView.Own (cacheKey client.model client.dimensions .passage) vector where
  l1 t k e hkey h := by
    obtain rfl : t = k := Except.ok.inj hkey
    obtain ⟨rfl, rfl⟩ : t = "a" ∧ vector "a" = e := by simpa [warmView] using h
    rfl
  l2 get i t k e hget hkey h := by
    obtain rfl : t = k := Except.ok.inj hkey
    obtain rfl := Option.some.inj hget
    dsimp only at h
    split_ifs at h with hbc
    rw [hbc, ← L2Get.found.inj h]

/-- A text of each cache, one that is asked for twice, one whose entry is off-format, and one of neither. -/
def mixed : List String := ["gh", "a", "bc", "gh", "def"]

theorem panics : (CachedEmbedding.embedBatch client cacheKey view silent ["a"] .passage).outcome = .panicked := by
  decide +kernel

end TwoEndpoints

open TwoEndpoints CachedEmbedding in
/-- A call over both caches, the missing texts answered in reverse order: every text has its vector, and what is
cached is the entry of the shared cache and the answers. -/
theorem reversed_answer_transparent :
    missTexts mixed (lookup warmView client.dimensions mixed) = ["gh", "gh", "def"] ∧
    (lookup warmView client.dimensions mixed).inserts = [("bc", vector "bc")] ∧
    (embedBatch client cacheKey warmView lengths mixed .passage).outcome = .ok (mixed.map vector) ∧
    ∀ entry ∈ (embedBatch client cacheKey warmView lengths mixed .passage).l1Inserts ++
      (embedBatch client cacheKey warmView lengths mixed .passage).l2Sets,
        ∃ t ∈ mixed, t = entry.1 ∧ entry.2 = vector t := by
  have hmissing : missTexts mixed (lookup warmView client.dimensions mixed) = ["gh", "gh", "def"] := by
    decide +kernel
  have hkeys : mixed.mapM (cacheKey client.model client.dimensions .passage) = .ok mixed := by decide +kernel
  have hfresh : ∃ fresh, client.embedBatch lengths ["gh", "gh", "def"] .passage = .ok fresh := ⟨_, rfl⟩
  obtain ⟨fresh, hfresh⟩ := hfresh
  rw [← hmissing] at hfresh
  obtain ⟨htransparent, -, hserved⟩ :=
    embedding_cache_transparent client cacheKey warmView lengths mixed .passage vector warm_own
  obtain ⟨hanswers, hcaches⟩ := htransparent.mpr (hserved lengths_wellFormed)
  refine ⟨hmissing, by decide +kernel, hanswers.resolve_left ?_, fun entry hentry => ?_⟩
  · rintro ⟨e, he⟩
    exact unwrapAll_ne_error e ((outcome_of_fresh hkeys hfresh).symm.trans he)
  · obtain ⟨t, ht, hkey, hvector⟩ := hcaches entry hentry
    exact ⟨t, ht, Except.ok.inj hkey, hvector⟩

/-- A response with fewer items than texts panics. -/
theorem short_answer_panics :
    ¬ ∀ (client : EmbeddingClient) (cacheKey : String → ℕ → PromptName → String → Except AlayaError String)
      (view : CacheView) (endpoint : Endpoint) (texts : List String) (promptName : PromptName)
      (vector : String → Embedding), view.Own (cacheKey client.model client.dimensions promptName) vector →
        Transparent (cacheKey client.model client.dimensions promptName) vector texts
          (CachedEmbedding.embedBatch client cacheKey view endpoint texts promptName) := by
  intro h
  have htransparent := h _ _ TwoEndpoints.view TwoEndpoints.silent ["a"] .passage _ TwoEndpoints.own
  rcases htransparent.answers with ⟨e, he⟩ | hok
  · cases TwoEndpoints.panics.symm.trans he
  · cases TwoEndpoints.panics.symm.trans hok

end Alaya
