import Alaya.Lib.Rows
import Alaya.Types.Error
import Mathlib.Data.List.Sort
import Mathlib.Data.Rat.Defs

/-!
# The embedding client

`embedBatch` sends the texts in chunks, one request each, puts the data items of every response in the
order of their indices and the chunks one after another.  The endpoint is a parameter: it answers a
chunk with any items, or fails.
-/

namespace Alaya

open Rows

/-- A vector of 32-bit floats. -/
abbrev Embedding := List ℚ

inductive PromptName where
  | query
  | passage
  deriving DecidableEq

def prefixText : PromptName → String → String
  | .query, text => "search_query: " ++ text
  | .passage, text => "search_document: " ++ text

/-- One item of a response. -/
structure EmbeddingDatum where
  embedding : Embedding
  index : ℕ
  deriving DecidableEq

/-- How the endpoint answers the `i`th request of a call, given its input. -/
abbrev Endpoint := ℕ → List String → Except AlayaError (List EmbeddingDatum)

/-- The slices of `n` texts, the last one with what is left. -/
def chunks (n : ℕ) (texts : List String) : List (List String) :=
  (List.range ((texts.length + n - 1) / n)).map fun i => page (i * n) n texts

theorem flatten_chunks {n : ℕ} (hn : 0 < n) (texts : List String) : (chunks n texts).flatten = texts := by
  unfold chunks
  rw [← List.flatMap_def, pages_eq_take]
  refine List.take_of_length_le ?_
  have hdiv := Nat.div_add_mod (texts.length + n - 1) n
  have hmod := Nat.mod_lt (texts.length + n - 1) hn
  rw [Nat.mul_comm] at hdiv
  omega

def maxTeiBatchSize : ℕ := 256

/-- A client; its batch size is never zero. -/
structure EmbeddingClient where
  model : String
  dimensions : ℕ
  batchSize : ℕ
  batchSize_pos : 0 < batchSize

namespace EmbeddingClient

def new (model : String) (dimensions batchSize : ℕ) : EmbeddingClient where
  model
  dimensions
  batchSize := max 1 (min batchSize maxTeiBatchSize)
  batchSize_pos := lt_of_lt_of_le Nat.zero_lt_one (le_max_left _ _)

/-- The vectors of a response, by index. -/
def sortedEmbeddings (items : List EmbeddingDatum) : List Embedding :=
  (items.mergeSort fun d d' => d.index ≤ d'.index).map EmbeddingDatum.embedding

/-- One vector after another for `texts`, if no request fails. -/
def embedBatch (client : EmbeddingClient) (endpoint : Endpoint) (texts : List String)
    (promptName : PromptName) : Except AlayaError (List Embedding) :=
  if texts.isEmpty then .ok []
  else do
    let prefixed := texts.map (prefixText promptName)
    let results ← (chunks client.batchSize prefixed).zipIdx.mapM fun (chunk, i) =>
      (endpoint i chunk).map sortedEmbeddings
    return results.flatten

end EmbeddingClient

/-- An endpoint that answers every text with its vector, under the text's position in the request; the
items come in any order. -/
def Endpoint.WellFormed (endpoint : Endpoint) (promptName : PromptName) (vector : String → Embedding) :
    Prop :=
  ∀ (i : ℕ) (texts : List String) (items : List EmbeddingDatum), endpoint i (texts.map (prefixText promptName)) = .ok items →
    items.Perm (texts.zipIdx.map fun tj => ⟨vector tj.1, tj.2⟩)

/-- Sorted by index, the items of a well-formed response are the vectors of its texts. -/
theorem sortedEmbeddings_of_perm {items : List EmbeddingDatum} {texts : List String}
    {vector : String → Embedding}
    (h : items.Perm (texts.zipIdx.map fun tj => ⟨vector tj.1, tj.2⟩)) :
    EmbeddingClient.sortedEmbeddings items = texts.map vector := by
  set target : List EmbeddingDatum := texts.zipIdx.map fun tj => ⟨vector tj.1, tj.2⟩ with htarget
  set sorted := items.mergeSort fun d d' => decide (d.index ≤ d'.index) with hsorted
  have hperm : sorted.Perm target := (List.mergeSort_perm _ _).trans h
  have hindices : target.map EmbeddingDatum.index = List.range' 0 texts.length := by
    rw [htarget, List.map_map]
    exact List.zipIdx_map_snd 0 texts
  have hincreasing : target.Pairwise fun d d' => d.index < d'.index := by
    refine List.pairwise_map.mp ?_
    rw [hindices]
    exact List.pairwise_lt_range'
  have hle : sorted.Pairwise fun d d' => d.index ≤ d'.index := pairwise_mergeSort_key EmbeddingDatum.index items
  have hne : sorted.Pairwise fun d d' => d.index ≠ d'.index := by
    refine List.pairwise_map.mp ?_
    have hnodup : (target.map EmbeddingDatum.index).Nodup := by
      rw [hindices]
      exact List.nodup_range'
    exact ((hperm.map EmbeddingDatum.index).nodup_iff).mpr hnodup
  have hlt : sorted.Pairwise fun d d' => d.index < d'.index :=
    (hle.and hne).imp fun hd => lt_of_le_of_ne hd.1 hd.2
  have heq : sorted = target :=
    List.Perm.eq_of_pairwise (fun d d' _ _ hd hd' => absurd hd (lt_asymm hd')) hlt hincreasing hperm
  unfold EmbeddingClient.sortedEmbeddings
  rw [← hsorted, heq, htarget, List.map_map]
  show texts.zipIdx.map (vector ∘ Prod.fst) = _
  rw [← List.map_map, List.zipIdx_map_fst]

/-- **The client answers every text with its vector** when the endpoint does. -/
theorem EmbeddingClient.embedBatch_eq {client : EmbeddingClient} {endpoint : Endpoint}
    {promptName : PromptName} {vector : String → Embedding} (h : endpoint.WellFormed promptName vector)
    {texts : List String} {vectors : List Embedding}
    (hok : client.embedBatch endpoint texts promptName = .ok vectors) : vectors = texts.map vector := by
  unfold embedBatch at hok
  split at hok
  · next hempty =>
    obtain rfl := Except.ok.inj hok
    rw [List.isEmpty_iff.mp hempty, List.map_nil]
  · have hslices : chunks client.batchSize (texts.map (prefixText promptName)) =
        (chunks client.batchSize texts).map (List.map (prefixText promptName)) := by
      unfold chunks page
      rw [List.length_map, List.map_map]
      refine List.map_congr_left fun i _ => ?_
      rw [Function.comp_apply, List.map_take, List.map_drop]
    dsimp only at hok
    cases hresults : (chunks client.batchSize (texts.map (prefixText promptName))).zipIdx.mapM
        fun (chunk, i) => (endpoint i chunk).map sortedEmbeddings with
    | error e =>
      rw [hresults] at hok
      cases hok
    | ok results =>
      rw [hresults] at hok
      obtain rfl := Except.ok.inj hok
      rw [hslices, List.zipIdx_map, List.mapM_map] at hresults
      have hslice : ∀ ti ∈ (chunks client.batchSize texts).zipIdx, ∀ vectors,
          (endpoint ti.2 (ti.1.map (prefixText promptName))).map sortedEmbeddings = .ok vectors →
            vectors = ti.1.map vector := by
        rintro ⟨slice, i⟩ - vectors hanswer
        cases hitems : endpoint i (slice.map (prefixText promptName)) with
        | error e =>
          rw [hitems] at hanswer
          cases hanswer
        | ok items =>
          rw [hitems] at hanswer
          obtain rfl := Except.ok.inj hanswer
          exact sortedEmbeddings_of_perm (h i slice items hitems)
      have hall : results = (chunks client.batchSize texts).zipIdx.map fun ti => ti.1.map vector :=
        eq_map_of_mapM hresults fun ti hti vectors hvectors => hslice ti hti vectors hvectors
      calc results.flatten
          = (((chunks client.batchSize texts).zipIdx.map Prod.fst).map (List.map vector)).flatten := by
            rw [hall, List.map_map]
            rfl
        _ = (chunks client.batchSize texts).flatten.map vector := by
            rw [List.zipIdx_map_fst, List.map_flatten]
        _ = texts.map vector := by rw [flatten_chunks client.batchSize_pos]

end Alaya
