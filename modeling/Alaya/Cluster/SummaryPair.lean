import Alaya.Cluster.Cell
import Alaya.Cluster.Record

/-!
# A summary and its embedding

The embedding of a summary is derived from the text, so it must not outlive it.  Stores drop it or
carry it over with an equal text, a patch that changes the text removes it, a generated summary is
written only where there is none.  What breaks the pair is a patch that brings an embedding and no
summary: it leaves the embedding beside whatever text is there, or beside none.
-/

namespace Alaya

open Json Labelled

/-- The summary and its embedding that the caller of an operation sent in one request. -/
def Op.summaryPair : Op → Option (String × List ℚ)
  | patch _ request _ => do return (← request.summary, ← request.summaryEmbedding)
  | generatedSummary _ summary embedding _ => embedding.map fun e => (summary, e)
  | _ => none

/-- An embedding is sent only together with its summary. -/
def Op.EmbedsSummary : Op → Prop
  | patch _ request _ => request.summaryEmbedding.isSome → request.summary.isSome
  | _ => True

/-- Summary and embedding are the same, value for value. -/
structure SameSummary (p q : Payload) : Prop where
  summary : q.get "summary" = p.get "summary"
  embedding : q.get "summary_embedding" = p.get "summary_embedding"

/-- Where the embedding of a payload came from: its text and it were sent together. -/
structure SentTogether (op : Op) (p : Payload) (v : Value) (text : String) (e : List ℚ) : Prop where
  pair : op.summaryPair = some (text, e)
  summary : p.get "summary" = some (.string text)
  embedding : v = .ofF64s e

/-! ### What the builders leave of the pair -/

theorem get_stamp_summary (mine : String) (write : Payload) (prev : Option Payload) :
    SameSummary write (stamp mine write prev) :=
  ⟨get_stamp_of_ne (by decide) (by decide) .., get_stamp_of_ne (by decide) (by decide) ..⟩

theorem get_memoryToPayload_embedding (params : StoreParams) (ctx : StoreContext) :
    (memoryToPayload (params.memory ctx)).get "summary_embedding" = none := by
  simp [memoryToPayload, StoreParams.memory, Payload.get_insertSome, nearestSimilarityKey,
    Object.get_cons]

/-- A re-store keeps an embedding only beside the text it stood beside. -/
theorem get_carryOver_embedding {fresh prev : Payload} {v : Value}
    (hfresh : fresh.get "summary_embedding" = none)
    (hv : (carryOver fresh prev).get "summary_embedding" = some v) :
    prev.get "summary_embedding" = some v ∧
      (carryOver fresh prev).get "summary" = prev.get "summary" := by
  set carried := carryMetadata lastConfirmedAtKey prev (carryMetadata supersededByKey prev
    (carriedKeys.foldl (fun p key => p.insertSome key (prev.get key)) fresh)) with hcarried
  have hover : carryOver fresh prev = carryEmbedding prev carried := rfl
  have hnone : carried.get "summary_embedding" = none := by
    rw [hcarried, get_carryMetadata_of_ne (by decide), get_carryMetadata_of_ne (by decide),
      get_carried, if_neg (by decide), hfresh]
  have hsummary : (carryOver fresh prev).get "summary" = carried.get "summary" := by
    rw [hover, get_carryEmbedding_of_ne (by decide)]
  rw [hover, carryEmbedding] at hv
  split_ifs at hv with hsame
  · rw [Payload.get_insertSome, if_pos rfl, hnone, Option.or_none] at hv
    exact ⟨hv, hsummary.trans hsame.2.2.symm⟩
  · rw [hnone] at hv
    cases hv

theorem get_applyPatch_summary (p : Payload) (patch : PatchMemoryRequest) (now : ℚ) :
    (applyPatch p patch now).get "summary" =
      (patch.summary.map .string).or (p.get "summary") := by
  rw [applyPatch, Object.get_insert_of_ne (by decide), Payload.get_insertSome_of_ne (by decide),
    Payload.get_insertSome_of_ne (by decide), Payload.get_insertSome_of_ne (by decide),
    Payload.get_insertSome, if_pos rfl, Payload.get_insertSome_of_ne (by decide),
    get_dropStaleEmbedding (by decide)]

theorem get_applyPatch_embedding (p : Payload) (patch : PatchMemoryRequest) (now : ℚ) :
    (applyPatch p patch now).get "summary_embedding" =
      (patch.summaryEmbedding.map .ofF64s).or
        ((dropStaleEmbedding p patch).get "summary_embedding") := by
  rw [applyPatch, Object.get_insert_of_ne (by decide), Payload.get_insertSome_of_ne (by decide),
    Payload.get_insertSome, if_pos rfl, Payload.get_insertSome_of_ne (by decide),
    Payload.get_insertSome_of_ne (by decide), Payload.get_insertSome_of_ne (by decide)]

/-- A patch without an embedding keeps the stored one only beside the text it stood beside. -/
theorem get_applyPatch_kept {p : Payload} {patch : PatchMemoryRequest} {now : ℚ} {v : Value}
    (hnone : patch.summaryEmbedding = none)
    (hv : (applyPatch p patch now).get "summary_embedding" = some v) :
    p.get "summary_embedding" = some v ∧
      (applyPatch p patch now).get "summary" = p.get "summary" := by
  rw [get_applyPatch_embedding, hnone, Option.map_none, Option.none_or] at hv
  rw [get_applyPatch_summary]
  cases htext : patch.summary with
  | none =>
    simp only [dropStaleEmbedding, htext] at hv
    exact ⟨hv, rfl⟩
  | some text =>
    simp only [dropStaleEmbedding, htext, hnone] at hv
    split_ifs at hv with hchanged
    · rw [Object.get_erase_self] at hv
      cases hv
    · have hstored : (p.get "summary").bind Value.asStr = some text := by
        simpa using hchanged
      obtain ⟨w, hw, htext'⟩ := Option.bind_eq_some_iff.mp hstored
      rw [Value.asStr_eq_some.mp htext'] at hw
      exact ⟨hv, by rw [hw]; rfl⟩

/-- What a patch leaves: the pair it was sent, or the embedding and the text that were there. -/
theorem get_applyPatch_pair {p : Payload} {patch : PatchMemoryRequest} {now : ℚ} {v : Value}
    (hpair : patch.summaryEmbedding.isSome → patch.summary.isSome)
    (hv : (applyPatch p patch now).get "summary_embedding" = some v) :
    (∃ text e, patch.summary = some text ∧ patch.summaryEmbedding = some e ∧
      (applyPatch p patch now).get "summary" = some (.string text) ∧ v = .ofF64s e) ∨
      p.get "summary_embedding" = some v ∧
        (applyPatch p patch now).get "summary" = p.get "summary" := by
  cases hembedding : patch.summaryEmbedding with
  | none => exact .inr (get_applyPatch_kept hembedding hv)
  | some e =>
    obtain ⟨text, htext⟩ := Option.isSome_iff_exists.mp (hpair (by simp [hembedding]))
    rw [get_applyPatch_embedding, hembedding] at hv
    refine .inl ⟨text, e, htext, rfl, ?_, (Option.some.inj hv).symm⟩
    rw [get_applyPatch_summary, htext]
    rfl

theorem sameSummary_unsupersede (p : Payload) (reversal : ReversalRecord) :
    SameSummary p (unsupersedePayload p reversal).1 := by
  constructor <;>
  rw [unsupersedePayload, Object.get_insert_of_ne (by decide), Object.get_erase_of_ne (by decide),
    Object.get_erase_of_ne (by decide), Payload.get_removeMetadata_of_ne (by decide)]

/-- A merging operation writes neither key. -/
theorem Merged.sameSummary {op : Op} {p write : Payload} (h : Merged op p write) (mine : String)
    (copy : Option Payload) : SameSummary p (p.merge (stamp mine write copy)) := by
  have hkept : ∀ k, k = "summary" ∨ k = "summary_embedding" → write.get k = none := by
    rintro k (rfl | rfl) <;> cases h <;>
      simp [Object.get_insert, Object.get_cons, supersessionReasonKey]
  constructor <;>
  rw [Object.get_merge, get_stamp_of_ne (by decide) (by decide), hkept _ (by simp), Option.none_or]

/-! ### One write -/

/-- A write leaves the pair its caller sent, or the embedding and the text that were there. -/
theorem embedding_of_landing {op : Op} {mine : String} {p p' : Payload} {v : Value}
    (h : Landing op mine p p') (hop : op.EmbedsSummary)
    (hv : p'.get "summary_embedding" = some v) :
    (∃ text e, SentTogether op p' v text e) ∨
      p.get "summary_embedding" = some v ∧ p'.get "summary" = p.get "summary" := by
  cases h with
  | store _ =>
    obtain ⟨hsummary, hembedding⟩ := get_stamp_summary mine _ _
    rw [hembedding] at hv
    rw [hsummary]
    exact .inr (get_carryOver_embedding (get_memoryToPayload_embedding ..) hv)
  | @patch _ request now _ _ _ =>
    obtain ⟨hsummary, hembedding⟩ := get_stamp_summary mine (applyPatch p request now) (some p)
    rw [hembedding] at hv
    rw [hsummary]
    refine (get_applyPatch_pair hop hv).imp ?_ id
    rintro ⟨text, e, htext, he, hkept, rfl⟩
    exact ⟨text, e, by simp [Op.summaryPair, htext, he], hsummary.trans hkept, rfl⟩
  | @generatedSummary _ summary embedding now _ _ _ _ _ =>
    obtain ⟨hsummary, hembedding⟩ := get_stamp_summary mine (applyPatch p
      { summary := some summary, summaryEmbedding := embedding } now) (some p)
    rw [hembedding] at hv
    rw [hsummary]
    refine (get_applyPatch_pair (fun _ => rfl) hv).imp ?_ id
    rintro ⟨text, e, htext, he, hkept, rfl⟩
    obtain rfl := Option.some.inj htext
    exact ⟨summary, e, by simp [Op.summaryPair, show embedding = some e from he],
      hsummary.trans hkept, rfl⟩
  | reverse _ =>
    obtain ⟨hsummary, hembedding⟩ := get_stamp_summary mine _ _
    obtain ⟨hsummary', hembedding'⟩ := sameSummary_unsupersede p _
    exact .inr ⟨by rw [← hembedding', ← hembedding, hv], hsummary.trans hsummary'⟩
  | merge hmerged =>
    obtain ⟨hsummary, hembedding⟩ := hmerged.sameSummary mine _
    exact .inr ⟨by rw [← hembedding, hv], hsummary⟩

/-- A fresh point has no embedding. -/
theorem embedding_of_created {op : Op} {mine : String} {p : Payload} (h : Created op mine p) :
    p.get "summary_embedding" = none := by
  cases h with
  | store _ =>
    rw [(get_stamp_summary mine _ _).embedding]
    exact get_memoryToPayload_embedding ..

theorem summary_of_parsePayload {p : Payload} {m : Memory} (h : parsePayload p = some m) :
    m.summary = (p.get "summary").bind Value.asStr := by
  simp only [parsePayload, Option.bind_eq_bind, Option.bind_eq_some_iff] at h
  obtain ⟨_, _, _, _, _, _, _, _, h⟩ := h
  exact congrArg Memory.summary (Option.some.inj h).symm

/-! ### Over the history of a point -/

/-- The embedding of a point was sent with the text the point holds, by a write since its last
delete, or the point has held both all along. -/
theorem embedding_run {c : Option Payload} {evs : List CellEvent} {p : Payload} {v : Value}
    (h : Run CellStep c evs (some p)) (hops : ∀ op mine, .write op mine ∈ evs → op.EmbedsSummary)
    (hv : p.get "summary_embedding" = some v) :
    (∃ a op mine b text e, evs = a ++ .write op mine :: b ∧ CellEvent.erase ∉ b ∧
      SentTogether op p v text e) ∨
      CellEvent.erase ∉ evs ∧ ∃ q, c = some q ∧ q.get "summary_embedding" = some v ∧
        p.get "summary" = q.get "summary" := by
  induction evs using List.reverseRecOn generalizing p with
  | nil =>
    obtain rfl := Run.eq_of_nil h
    exact .inr ⟨by simp, p, rfl, hv, rfl⟩
  | append_singleton evs ev ih =>
    obtain ⟨cell, hrun, hstep⟩ := Run.last h
    cases hstep with
    | @write op mine _ _ hland =>
      cases cell with
      | none =>
        rw [embedding_of_created (created_of_land hland)] at hv
        cases hv
      | some q =>
        rcases embedding_of_landing (landing_of_land hland) (hops op mine (by simp)) hv with
          ⟨text, e, hsent⟩ | ⟨hq, hsame⟩
        · exact .inl ⟨evs, op, mine, [], text, e, rfl, by simp, hsent⟩
        · have hops' := fun op mine hmem => hops op mine (List.mem_append_left _ hmem)
          rcases ih hrun hops' hq with
            ⟨a, op', mine', b, text, e, rfl, hb, hsent⟩ | ⟨hevs, q', hc, hq', hsame'⟩
          · refine .inl ⟨a, op', mine', b ++ [.write op mine], text, e, by simp, by simpa using hb, ?_⟩
            exact ⟨hsent.pair, hsame.trans hsent.summary, hsent.embedding⟩
          · exact .inr ⟨by simpa using hevs, q', hc, hq', hsame.trans hsame'⟩

/-- **A stored embedding describes the stored summary.**  In every run whose patches bring an
embedding only with its summary, the embedding of a point was sent together with the text the point
holds, by a write since its last delete, or the point has held both from the start.  And in every run
a generated summary is written only over a point that has no summary when the write commits. -/
theorem summary_pair_kept {s : Start} {tr : List Event} {w : World} {id : PointId}
    (hrun : Runs s.world tr w)
    (hpatches : ∀ task op write before after, Event.wrote task op write before after ∈ tr →
      write.id = id → op.EmbedsSummary) :
    (∀ p v, w.points id = some p → p.get "summary_embedding" = some v →
      (∃ a task op write before after b text e,
        tr = a ++ .wrote task op write before after :: b ∧ write.id = id ∧
          Event.erased id ∉ b ∧ SentTogether op p v text e) ∨
      Event.erased id ∉ tr ∧ ∃ q, s.points id = some q ∧ q.get "summary_embedding" = some v ∧
        p.get "summary" = q.get "summary") ∧
    ∀ task hash summary embedding now write before after,
      Event.wrote task (.generatedSummary hash summary embedding now) write before after ∈ tr →
      ∃ q, before = some q ∧ (q.get "summary").bind Value.asStr = none := by
  constructor
  · intro p v hp hv
    have hcell := cell_run s.inv hrun id
    rw [hp] at hcell
    have hops : ∀ op mine, .write op mine ∈ cellEvents id tr → op.EmbedsSummary := by
      intro op mine hmem
      obtain ⟨task, write, before, after, he, hid, -⟩ := mem_cellEvents_write.mp hmem
      exact hpatches task op write before after he hid
    rcases embedding_run hcell hops hv with
      ⟨_, op, mine, _, text, e, hevs, hkept, hsent⟩ | ⟨hkept, q, hq, hqv, hsame⟩
    · obtain ⟨a, task, write, before, after, b, rfl, hid, -, rfl⟩ := cellEvents_split hevs
      exact .inl ⟨a, task, op, write, before, after, b, text, e, rfl, hid, by simpa using hkept, hsent⟩
    · exact .inr ⟨by simpa using hkept, q, hq, hqv, hsame⟩
  · intro task hash summary embedding now write before after he
    obtain ⟨a, b, rfl⟩ := List.append_of_mem he
    obtain ⟨m, m', ha, hstep, -⟩ := hrun.split_at
    obtain ⟨hland, -, -⟩ := land_of_wrote (s.inv.run ha) (change_of_step hstep)
    cases before with
    | none => cases created_of_land hland
    | some q =>
      cases landing_of_land hland with
      | generatedSummary hparse hsummary =>
        exact ⟨q, rfl, (summary_of_parsePayload hparse).symm.trans hsummary⟩
      | merge hmerged =>
        cases hmerged with
        | accessed htime => cases htime

/-- The memory is stored and then patched. -/
def storeAndPatch (request : PatchMemoryRequest) : List Action :=
  [.spawn 0 1 aStore, .read 0, .send 0, .readBack 0,
    .spawn 1 1 (.patch aHash request 1), .read 1, .send 1, .readBack 1]

def aPatch : PatchMemoryRequest where
  summary := some "s"
  summaryEmbedding := some [1]

theorem summary_pair_kept_patched : ∃ a task op write before after b p text e w,
    Runs emptyStart.world (a ++ .wrote task op write before after :: b) w ∧
      w.points aPoint = some p ∧ SentTogether op p (.ofF64s [1]) text e := by
  have hpatched : (exec World.step emptyStart.world (storeAndPatch aPatch)).map (fun x =>
      ((x.2.points aPoint).map fun p => p.get "summary_embedding", cellEvents aPoint x.1)) =
        some (some (some (.ofF64s [1])),
          [.write aStore (token 1 0), .write (.patch aHash aPatch 1) (token 1 1)]) := by
    decide +kernel
  obtain ⟨⟨tr, w⟩, hexec, hx⟩ := Option.map_eq_some_iff.mp hpatched
  obtain ⟨hcell, hevs⟩ := Prod.mk.inj hx
  obtain ⟨p, hp, hv⟩ := Option.map_eq_some_iff.mp hcell
  have hrun : Runs emptyStart.world tr w := run_of_exec hexec
  have hops : ∀ task op write before after, Event.wrote task op write before after ∈ tr →
      write.id = aPoint → op.EmbedsSummary := by
    intro task op write before after he hid
    have hmem := mem_cellEvents_write.mpr ⟨task, write, before, after, he, hid, rfl⟩
    rw [hevs] at hmem
    simp only [List.mem_cons, CellEvent.write.injEq, List.not_mem_nil, or_false] at hmem
    rcases hmem with ⟨rfl, -⟩ | ⟨rfl, -⟩
    · trivial
    · exact fun _ => rfl
  rcases (summary_pair_kept hrun hops).1 p _ hp hv with
    ⟨a, task, op, write, before, after, b, text, e, rfl, -, -, hsent⟩ | ⟨-, q, hq, -⟩
  · exact ⟨a, task, op, write, before, after, b, p, text, e, w, hrun, hp, hsent⟩
  · cases hq

/-- A patch that brings an embedding alone leaves it on a memory that has no summary. -/
theorem embedding_without_summary : ∃ tr w p, Runs emptyStart.world tr w ∧
    w.points aPoint = some p ∧ p.get "summary_embedding" = some (.ofF64s [1]) ∧
      p.get "summary" = none ∧ ¬∃ op text e, SentTogether op p (.ofF64s [1]) text e := by
  have hpatched : (exec World.step emptyStart.world
      (storeAndPatch { summaryEmbedding := some [1] })).map (fun x =>
        (x.2.points aPoint).map fun p => (p.get "summary_embedding", p.get "summary")) =
          some (some (some (.ofF64s [1]), none)) := by
    decide +kernel
  obtain ⟨⟨tr, w⟩, hexec, hx⟩ := Option.map_eq_some_iff.mp hpatched
  obtain ⟨p, hp, hpair⟩ := Option.map_eq_some_iff.mp hx
  obtain ⟨hv, hsummary⟩ := Prod.mk.inj hpair
  refine ⟨tr, w, p, run_of_exec hexec, hp, hv, hsummary, ?_⟩
  rintro ⟨op, text, e, hsent⟩
  exact Option.some_ne_none _ (hsent.summary.symm.trans hsummary)

end Alaya
