import Alaya.Backends.Payload

/-!
# Reads by hash

The reads that name a memory by its content hash.  A hash reaches the collection as the id of its
point, which keeps the first half of its digits: two hashes with the same first half, up to case,
name one point.
-/

namespace Alaya

/-- The points of the collection. -/
abbrev Points := PointId → Option Payload

def getByHash (points : Points) (contentHash : String) : Except AlayaError (Option Memory) := do
  let pointId ← hashToUuid contentHash
  return (points pointId).bind parsePayload

/-- One memory for each hash whose point holds one, in the order of the hashes. -/
def getBatch (points : Points) (hashes : List String) : Except AlayaError (List Memory) := do
  let ids ← hashes.mapM hashToUuid
  return ids.filterMap fun id => (points id).bind parsePayload

/-- A well-formed hash names a point. -/
theorem exists_hashToUuid {h : String} (hvalid : validateContentHash h) : ∃ id, hashToUuid h = .ok id := by
  obtain ⟨hsize, hdigits⟩ := Bool.and_eq_true_iff.mp hvalid
  have hhex : h.toList.all isAsciiHexdigit = true := List.all_eq_true.mpr fun c hc =>
    (Bool.and_eq_true_iff.mp (List.all_eq_true.mp hdigits c hc)).1
  refine ⟨_, if_neg ?_⟩
  rw [hhex, of_decide_eq_true hsize]
  decide

/-- A batch of well-formed hashes is read. -/
theorem exists_getBatch (points : Points) {hashes : List String}
    (hvalid : ∀ h ∈ hashes, validateContentHash h) : ∃ batch, getBatch points hashes = .ok batch := by
  have hids : ∃ ids, hashes.mapM hashToUuid = .ok ids := by
    induction hashes with
    | nil => exact ⟨[], rfl⟩
    | cons h hashes ih =>
      obtain ⟨id, hid⟩ := exists_hashToUuid (hvalid h List.mem_cons_self)
      obtain ⟨ids, hids⟩ := ih fun h' hh' => hvalid h' (List.mem_cons_of_mem _ hh')
      refine ⟨id :: ids, ?_⟩
      rw [List.mapM_cons, hid, hids]
      rfl
  obtain ⟨ids, hids⟩ := hids
  refine ⟨ids.filterMap fun id => (points id).bind parsePayload, ?_⟩
  rw [getBatch, hids]
  rfl

/-- The digits of a hash that name its point. -/
def pointDigits (contentHash : String) : List Char :=
  (contentHash.toList.take 32).map Char.toLower

/-! ### Which hashes name one point -/

theorem hashToUuid_eq_ok {contentHash : String} {id : PointId}
    (h : hashToUuid contentHash = .ok id) :
    (∀ c ∈ contentHash.toList, isAsciiHexdigit c) ∧
      id = uuidToString (contentHash.toList.take 32) := by
  unfold hashToUuid at h
  split_ifs at h with hbad
  rw [not_or] at hbad
  exact ⟨by simpa using hbad.2, (Except.ok.inj h).symm⟩

/-- Without its hyphens a UUID is the digits it was printed from. -/
theorem filter_uuidToString {hex : List Char} (h : '-' ∉ hex.map Char.toLower) :
    (uuidToString hex).toList.filter (· ≠ '-') = hex.map Char.toLower := by
  set digits := hex.map Char.toLower with hdigits
  have hkept : ∀ l : List Char, l <:+: digits → l.filter (· ≠ '-') = l := by
    intro l hl
    refine List.filter_eq_self.mpr fun c hc => ?_
    rw [decide_eq_true_eq]
    rintro rfl
    exact h (hl.subset hc)
  have hmiddle : ∀ m n, (digits.drop m).take n <:+: digits :=
    fun m n => (List.take_prefix _ _).isInfix.trans (List.drop_suffix _ _).isInfix
  have hsplit : digits.take 8 ++ ((digits.drop 8).take 4 ++ ((digits.drop 12).take 4 ++
      ((digits.drop 16).take 4 ++ digits.drop 20))) = digits := by
    rw [← List.drop_drop (i := 4) (j := 16), List.take_append_drop,
      ← List.drop_drop (i := 4) (j := 12), List.take_append_drop,
      ← List.drop_drop (i := 4) (j := 8), List.take_append_drop, List.take_append_drop]
  simp only [uuidToString, ← hdigits, String.toList_ofList, List.filter_append, List.append_assoc]
  rw [List.filter_cons_of_neg (by simp), List.filter_cons_of_neg (by simp),
    List.filter_cons_of_neg (by simp), List.filter_cons_of_neg (by simp),
    hkept _ (List.take_prefix _ _).isInfix, hkept _ (hmiddle 8 4), hkept _ (hmiddle 12 4),
    hkept _ (hmiddle 16 4), hkept _ (List.drop_suffix _ _).isInfix]
  exact hsplit

theorem hyphen_not_mem_pointDigits {contentHash : String}
    (h : ∀ c ∈ contentHash.toList, isAsciiHexdigit c) : '-' ∉ pointDigits contentHash := by
  intro hmem
  obtain ⟨c, hc, hlower⟩ := List.mem_map.mp hmem
  have hhex := h c (List.mem_of_mem_take hc)
  unfold Char.toLower at hlower
  split at hlower
  · next hupper =>
    have hval : (c.val + 32).toNat = 45 := congrArg (fun c : Char => c.val.toNat) hlower
    have hle : 65 ≤ c.val.toNat := UInt32.le_iff_toNat_le.mp hupper.1
    have hge : c.val.toNat ≤ 90 := UInt32.le_iff_toNat_le.mp hupper.2
    rw [UInt32.toNat_add, show (32 : UInt32).toNat = 32 from rfl] at hval
    omega
  · rw [hlower] at hhex
    exact absurd hhex (by decide)

/-- **Two hashes name one point exactly when the first half of their digits agrees, up to case.** -/
theorem hashToUuid_inj {h h' : String} {id id' : PointId} (hid : hashToUuid h = .ok id)
    (hid' : hashToUuid h' = .ok id') : id = id' ↔ pointDigits h = pointDigits h' := by
  obtain ⟨hhex, rfl⟩ := hashToUuid_eq_ok hid
  obtain ⟨hhex', rfl⟩ := hashToUuid_eq_ok hid'
  constructor
  · intro heq
    have hdigits := filter_uuidToString (hyphen_not_mem_pointDigits hhex)
    have hdigits' := filter_uuidToString (hyphen_not_mem_pointDigits hhex')
    rw [heq, hdigits'] at hdigits
    exact hdigits.symm
  · intro hdigits
    unfold uuidToString
    rw [show (h.toList.take 32).map Char.toLower = (h'.toList.take 32).map Char.toLower from hdigits]

/-! ### What a read depends on -/

section

variable {points : Points} {id' : PointId}

/-- A get reads the point of its hash and no other. -/
theorem getByHash_update {h : String} (hne : hashToUuid h ≠ .ok id') (cell : Option Payload) :
    getByHash (Function.update points id' cell) h = getByHash points h := by
  unfold getByHash
  cases hid : hashToUuid h with
  | error e => rfl
  | ok id =>
    have hother : id ≠ id' := by
      rintro rfl
      exact hne hid
    show Except.ok ((Function.update points id' cell id).bind parsePayload) = _
    rw [Function.update_of_ne hother]
    rfl

theorem mem_of_mapM_hashToUuid {hashes : List String} {ids : List PointId}
    (h : hashes.mapM hashToUuid = .ok ids) {id : PointId} (hid : id ∈ ids) :
    ∃ g ∈ hashes, hashToUuid g = .ok id := by
  induction hashes generalizing ids with
  | nil =>
    cases h
    cases hid
  | cons g hashes ih =>
    rw [List.mapM_cons] at h
    obtain ⟨first, hfirst, h⟩ := bind_eq_ok.mp h
    obtain ⟨rest, hrest, h⟩ := bind_eq_ok.mp h
    obtain rfl := Except.ok.inj h
    rcases List.mem_cons.mp hid with rfl | hid
    · exact ⟨g, List.mem_cons_self, hfirst⟩
    · obtain ⟨g', hg', hid'⟩ := ih hrest hid
      exact ⟨g', List.mem_cons_of_mem _ hg', hid'⟩

/-- A batch reads the points of its hashes and no other. -/
theorem getBatch_update {hashes : List String} (hne : ∀ g ∈ hashes, hashToUuid g ≠ .ok id')
    (cell : Option Payload) :
    getBatch (Function.update points id' cell) hashes = getBatch points hashes := by
  unfold getBatch
  cases hids : hashes.mapM hashToUuid with
  | error e => rfl
  | ok ids =>
    refine congrArg Except.ok (List.filterMap_congr fun id hid => ?_)
    obtain ⟨g, hg, hpoint⟩ := mem_of_mapM_hashToUuid hids hid
    have hother : id ≠ id' := by
      rintro rfl
      exact hne g hg hpoint
    rw [Function.update_of_ne hother]

end

end Alaya
