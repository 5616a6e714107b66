import Alaya.Core.Footprint
import Mathlib.Data.List.ReduceOption

/-!
# Interference detection and the links of a store

Before it writes, a store searches the neighbours of its text.  The nearest other ones are weighed: a live
one above the upper threshold gets a CONTRADICTS edge for each sign that the new text contradicts its own,
one between the two thresholds a RELATES_TO edge.
-/

namespace Alaya

open Json Interleave Alaya.Flow Program

/-! ### Interference detection -/

namespace Interference

def negationWords : List String :=
  ["not", "no", "never", "without", "lack", "lacking", "false", "invalid", "incorrect", "wrong", "fail",
    "failed", "failure", "unable", "cannot", "can't", "won't", "don't", "doesn't", "didn't", "isn't",
    "aren't", "wasn't", "weren't", "shouldn't", "wouldn't", "couldn't"]

def antonymPairs : List (String × String) :=
  [("enable", "disable"), ("true", "false"), ("add", "remove"), ("success", "fail"),
    ("increase", "decrease"), ("start", "stop"), ("allow", "deny"), ("safe", "unsafe"),
    ("required", "optional"), ("sync", "async")]

def temporalPatterns : List String :=
  ["\\bno longer\\b", "\\bstopped\\b", "\\bswitched from\\b", "\\breplaced by\\b", "\\bmoved from\\b",
    "\\bmigrated from\\b", "\\bdeprecated\\b", "\\bused to\\b.*\\bnow\\b", "\\bpreviously\\b.*\\bnow\\b",
    "\\bwas\\b.*\\bnow\\b.*\\binstead\\b"]

/-- What detection asks of the text libraries. -/
structure TextLib where
  toLowercase : String → String
  /-- Whether a regular expression matches somewhere in a text. -/
  isMatch : String → String → Bool

def utf8Bytes (text : String) : List UInt8 := text.toList.flatMap String.utf8EncodeChar

def isAsciiAlphanumeric (b : UInt8) : Bool :=
  (48 ≤ b && b ≤ 57) || (65 ≤ b && b ≤ 90) || (97 ≤ b && b ≤ 122)

/-- Whether `text` contains `word` as a whole word, not as a part of another word. -/
def containsWord (text word : String) : Bool :=
  let bytes := utf8Bytes text
  let wordBytes := utf8Bytes word
  let wordLen := wordBytes.length
  (List.range (bytes.length + 1 - wordLen)).any fun i =>
    (bytes.drop i).take wordLen = wordBytes &&
      (i = 0 || !bytes[i - 1]?.any isAsciiAlphanumeric) &&
      (bytes.length ≤ i + wordLen || !bytes[i + wordLen]?.any isAsciiAlphanumeric)

def countNegationWords (text : TextLib) (content : String) : ℕ :=
  (negationWords.filter fun word => containsWord (text.toLowercase content) word).length

/-- The double nearest 0.7: the confidence of a negation or a temporal sign. -/
def negationConfidence : ℚ := 3152519739159347 / 4503599627370496

/-- The double nearest 0.8: the confidence of an antonym sign. -/
def antonymConfidence : ℚ := 3602879701896397 / 4503599627370496

/-- Whether one text has at least two negation words more than the other. -/
def checkNegationAsymmetry (text : TextLib) (newContent existingContent : String) :
    Option (ℚ × String) :=
  let newCount := countNegationWords text (text.toLowercase newContent)
  let existingCount := countNegationWords text (text.toLowercase existingContent)
  let diff := (newCount - existingCount) + (existingCount - newCount)
  if 2 ≤ diff then
    some (negationConfidence, "negation asymmetry: new has " ++ toString newCount ++
      " negation words, existing has " ++ toString existingCount ++ " (diff=" ++ toString diff ++ ")")
  else none

/-- Whether each text has one word of a pair that the other has not. -/
def crossed (text : TextLib) (newContent existingContent : String) (pair : String × String) : Bool :=
  let newHas := containsWord (text.toLowercase newContent)
  let existingHas := containsWord (text.toLowercase existingContent)
  (newHas pair.1 && existingHas pair.2 && !newHas pair.2 && !existingHas pair.1) ||
    (newHas pair.2 && existingHas pair.1 && !newHas pair.1 && !existingHas pair.2)

def checkAntonymPairs (text : TextLib) (newContent existingContent : String) :
    Option (ℚ × String) :=
  (antonymPairs.find? (crossed text newContent existingContent)).map fun pair =>
    (antonymConfidence, "antonym pair detected: '" ++ pair.1 ++ "' vs '" ++ pair.2 ++ "'")

def checkTemporalSupersession (text : TextLib) (newContent : String) : Option (ℚ × String) :=
  (temporalPatterns.find? fun pattern => text.isMatch pattern (text.toLowercase newContent)).map
    fun pattern => (negationConfidence, "temporal supersession pattern matched: '" ++ pattern ++ "'")

/-- A check's finding as a signal, while its confidence is above one half. -/
def signal (existingHash signalType : String) (found : Option (ℚ × String)) :
    Option ContradictionSignal :=
  (found.filter fun f => 1 / 2 < f.1).map fun f => ⟨existingHash, f.1, signalType, f.2⟩

def detectContradictionSignals (text : TextLib) (newContent existingContent existingHash : String) :
    List ContradictionSignal :=
  [signal existingHash "Negation" (checkNegationAsymmetry text newContent existingContent),
    signal existingHash "Antonym" (checkAntonymPairs text newContent existingContent),
    signal existingHash "Temporal" (checkTemporalSupersession text newContent)].reduceOption

/-- No letter and no digit. -/
def Boundary (b : Option UInt8) : Prop := b.any isAsciiAlphanumeric = false

theorem boundary_getLast? {bytes : List UInt8} {i : ℕ} (hi : i ≤ bytes.length) :
    Boundary (bytes.take i).getLast? ↔ i = 0 ∨ Boundary bytes[i - 1]? := by
  rw [List.getLast?_take]
  split
  · next hzero => exact iff_of_true rfl (.inl hzero)
  · next hpos =>
    rw [List.getElem?_eq_getElem (by omega), Option.some_or, or_iff_right hpos]

/-- A whole word stands between two texts that end on a boundary. -/
theorem containsWord_iff (text word : String) : containsWord text word = true ↔
    ∃ before after, utf8Bytes text = before ++ utf8Bytes word ++ after ∧
      Boundary before.getLast? ∧ Boundary after.head? := by
  unfold containsWord
  simp only [List.any_eq_true, List.mem_range, Bool.and_eq_true, Bool.or_eq_true, decide_eq_true_eq,
    Bool.not_eq_true']
  constructor
  · rintro ⟨i, hi, ⟨hword, hbefore⟩, hafter⟩
    refine ⟨(utf8Bytes text).take i, (utf8Bytes text).drop (i + (utf8Bytes word).length), ?_,
      (boundary_getLast? (by omega)).mpr hbefore, ?_⟩
    · rw [← hword, List.append_assoc, List.length_take, List.length_drop, ← List.drop_drop,
        Nat.min_eq_left (by omega), List.take_append_drop, List.take_append_drop]
    · rw [List.head?_drop]
      refine hafter.elim (fun hend => ?_) id
      rw [List.getElem?_eq_none hend]
      rfl
  · rintro ⟨before, after, hbytes, hbefore, hafter⟩
    have hlength : (utf8Bytes text).length =
        before.length + (utf8Bytes word).length + after.length := by
      rw [hbytes, List.length_append, List.length_append]
    have htake : (utf8Bytes text).take before.length = before := by
      rw [hbytes, List.append_assoc, List.take_left]
    have hdrop : (utf8Bytes text).drop before.length = utf8Bytes word ++ after := by
      rw [hbytes, List.append_assoc, List.drop_left]
    refine ⟨before.length, by omega, ⟨?_, ?_⟩, .inr ?_⟩
    · rw [hdrop, List.take_left]
    · rw [← htake] at hbefore
      exact (boundary_getLast? (by omega)).mp hbefore
    · rw [← List.head?_drop, ← List.drop_drop, hdrop, List.drop_left]
      exact hafter

end Interference

/-- The service's components with the detection of `interference`. -/
def Components.withInterference (lib : Components) (text : Interference.TextLib) : Components :=
  { lib with
    detectContradictionSignals := fun newContent existing _ =>
      Interference.detectContradictionSignals text newContent existing.content existing.contentHash }

/-! ### The calls that link -/

/-- A server whose neighbour searches are answered with `hits`. -/
def answering {σ : Type} (hits : List ScoredMemory) (serve : Server Reply σ) : Server Reply σ
  | .query (.searchByVector embedding limit filter), s =>
    if limit = neighbourSearchK then (.ok hits, s)
    else serve (.query (.searchByVector embedding limit filter)) s
  | c, s => serve c s

namespace MemoryService

end MemoryService

/-- The contradictions a store's caller is told of. -/
def StoreReport.contradictions : Option StoreReport → List ContradictionSignal
  | some (.stored _ _ _ _ _ contradictions) => contradictions
  | _ => []

section

variable (lib : Components) (params : StoreParams) (readOnly insertOnly : Bool) (now : ℚ)

section

variable {σ : Type} (serve : Server Reply σ) (hits : List ScoredMemory)

end

end

/-! ### Links to live memories -/

/-- What a vector search can answer: each memory once. -/
structure Neighbours where
  hits : List ScoredMemory
  nodup : (hits.map fun s => s.memory.contentHash).Nodup

namespace Neighbours

variable (neighbours : Neighbours)

end Neighbours

/-- A link to another live neighbour, of the kind its similarity calls for. -/
structure Bridge.TypedEdge.Sound (contentHash : String) (hits : List ScoredMemory)
    (e : Bridge.TypedEdge) : Prop where
  source : e.source = contentHash
  target : e.target ≠ contentHash
  neighbour : ∃ s ∈ hits, s.memory.contentHash = e.target ∧ s.memory.isSuperseded = false ∧
    (e.relationType = .contradicts ∧ contradictsFrom ≤ s.score ∨
      e.relationType = .relatesTo ∧ relatesFrom ≤ s.score ∧ s.score < contradictsFrom)

section

variable {lib : Components} {params : StoreParams} {now : ℚ} {hits : List ScoredMemory}

end

section

variable (text : Interference.TextLib) (lib : Components) (params : StoreParams) (now : ℚ)
  (neighbours : Neighbours)

end

/-! ### A hidden neighbour -/

namespace HiddenNeighbour

def hiddenHash : String := String.ofList (List.replicate 64 'a')

def writtenHash : String := String.ofList (List.replicate 64 'b')

/-- A superseded memory. -/
def hidden : Memory where
  content := "the port is 8080"
  contentHash := hiddenHash
  tags := []
  memoryType := "note"
  metadata := some [(supersededByKey, .string "x")]
  createdAt := 0
  updatedAt := 0
  embedding := none
  summary := none
  salienceScore := 0
  accessCount := 0
  accessTimestamps := []
  emotionalValence := none
  encodingContext := none
  provenance := none
  summaryEmbedding := none
  supersessionLog := none
  supersessionReason := none
  nearestSimilarity := none

/-- It is the one neighbour, halfway similar. -/
def neighbours : Neighbours := ⟨[⟨hidden, 1 / 2⟩], List.nodup_singleton _⟩

def components : Components where
  generateContentHash := fun _ => writtenHash
  computeSalience := fun _ => 0
  captureEncodingContext := fun _ _ => []
  buildProvenance := fun _ _ => []
  detectContradictionSignals := fun _ _ _ => []

def text : Interference.TextLib := ⟨id, fun _ _ => false⟩

def params : StoreParams := { content := "the port is 9090" }

/-- A service that holds the hidden memory's node. -/
def service : Service where
  points := fun _ => none
  vectors := fun _ => none
  graph := Graph.empty.ensureNode hiddenHash
  coAccess := []
  client := 0
  writes := 0
  answer := fun q _ _ =>
    match q with
    | .embed _ => .ok (some [1])
    | .searchByVector .. => .ok neighbours.hits
    | _ => .error (.storage "unreachable")

/-- The store of a text beside it. -/
def run : Except AlayaError (Option StoreReport) × Service :=
  (MemoryService.storeMemoryMode (components.withInterference text) params false false 1).run.run
    (answering neighbours.hits Service.serve) service

end HiddenNeighbour

end Alaya
