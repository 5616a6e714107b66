import Alaya.Cluster.Landing
import Alaya.Core.Refutation

/-!
# A store that only adds

A read-only caller's store writes the vector store alone, and there one new point: whatever runs beside it and however
its calls fail, it leaves what is stored, the graph and the queue as they are but for one insert, and nothing is
started in the background (`readOnly_store`).
-/

namespace Alaya

open Interleave Program Alaya.Flow

/-- A memory of `params` is put where none was; nothing else changes. -/
def Service.Inserts (lib : Components) (params : StoreParams) (s s' : Service) : Prop :=
  ∃ ctx id, ctx.contentHash = lib.generateContentHash params.content ∧ hashToUuid ctx.contentHash = .ok id ∧
    params.validate = .ok () ∧ s.points id = none ∧
      s' = s.write (.store params ctx .insertOnly) id (stamp s.mine (memoryToPayload (params.memory ctx)) none)

/-- One of the program's own moments inserts, and no other changes anything. -/
def InsertsOnce (lib : Components) (params : StoreParams) (tr : List (Moment Call Service)) : Prop :=
  ∃ tr₁ m tr₂, tr = tr₁ ++ m :: tr₂ ∧ m.call.isSome ∧ Own tr₁ Service.Same ∧ m.before.Inserts lib params m.after ∧
    Own tr₂ Service.Same

section

variable {lib : Components} {params : StoreParams} {now : ℚ} {others : Service → Service → Prop} {s s' : Service}
  {tr tr₁ tr₂ : List (Moment Call Service)}

theorem InsertsOnce.after_same (h₁ : Own tr₁ Service.Same) (h : InsertsOnce lib params tr₂) :
    InsertsOnce lib params (tr₁ ++ tr₂) := by
  obtain ⟨before, m, after, rfl, hown, hbefore, hinserts, hafter⟩ := h
  exact ⟨tr₁ ++ before, m, after, (List.append_assoc ..).symm, hown, h₁.append hbefore, hinserts, hafter⟩

theorem InsertsOnce.before_same (h : InsertsOnce lib params tr₁) (h₂ : Own tr₂ Service.Same) :
    InsertsOnce lib params (tr₁ ++ tr₂) := by
  obtain ⟨before, m, after, rfl, hown, hbefore, hinserts, hafter⟩ := h
  exact ⟨before, m, after ++ tr₂, by rw [List.append_assoc, List.cons_append], hown, hbefore, hinserts,
    hafter.append h₂⟩

/-- A write of an insert that lands. -/
theorem inserts_of_land {ctx : StoreContext} {id : PointId} {p : Payload}
    (hctx : ctx.contentHash = lib.generateContentHash params.content) (hid : hashToUuid ctx.contentHash = .ok id)
    (hland : (Op.store params ctx .insertOnly).land s.mine (s.points id) = some p) :
    s.Inserts lib params (s.write (.store params ctx .insertOnly) id p) := by
  cases hpoint : s.points id with
  | some q =>
    rw [hpoint] at hland
    exact (not_land_insertOnly hland).elim
  | none =>
    rw [hpoint] at hland
    cases created_of_land hland with
    | store hvalid => exact ⟨ctx, id, hctx, hid, hvalid, hpoint, rfl⟩

/-- What an insert's update does, if anything. -/
theorem same_or_inserts {ctx : StoreContext} {id : PointId}
    (hctx : ctx.contentHash = lib.generateContentHash params.content) (hid : hashToUuid ctx.contentHash = .ok id)
    (h : s.Effect (.vectors (.update (.store params ctx .insertOnly) id)) s') :
    s.Same s' ∨ s.Inserts lib params s' := by
  cases h with
  | quiet => exact .inl rfl
  | landed hland => exact .inr (inserts_of_land hctx hid hland)

/-- An insert that says it created its point did. -/
theorem inserts_of_created {ctx : StoreContext} {id : PointId} {u : Updated} {hash hash' : String}
    (hctx : ctx.contentHash = lib.generateContentHash params.content) (hid : hashToUuid ctx.contentHash = .ok id)
    (h : s.Serves (.vectors (.update (.store params ctx .insertOnly) id)) (.ok u) s')
    (hu : storeResult hash (some u.update) = .ok (true, hash')) : s.Inserts lib params s' := by
  have hlanded : ∃ p, u.update = .landed p true := by
    revert hu
    cases u.update with
    | landed p created =>
      intro hu
      obtain ⟨rfl, -⟩ := Prod.mk.inj (Except.ok.inj hu)
      exact ⟨p, rfl⟩
    | skipped | absent | deleted | unconfirmed => exact fun hu => by cases hu
  obtain ⟨p, hp⟩ := hlanded
  have hserved := h.update (.inr ⟨p, true, hp⟩)
  obtain ⟨-, -, -, hland⟩ := Service.update_answer (congrArg Prod.fst hserved)
  rw [hp] at hland
  obtain rfl := (congrArg Prod.snd hserved).symm.trans (Service.update_state hland)
  exact inserts_of_land hctx hid hland

/-- The write of a store that only adds. -/
theorem insertsOnce_store {ctx : StoreContext} (hctx : ctx.contentHash = lib.generateContentHash params.content)
    {x : Except AlayaError (Bool × String)}
    (h : Among Service.Serves others (Vectors.store params ctx .insertOnly).run s tr x s') :
    (Own tr Service.Same ∨ InsertsOnce lib params tr) ∧
      ∀ hash, x = .ok (true, hash) → InsertsOnce lib params tr := by
  have h := Among.check h
  cases hid : hashToUuid ctx.contentHash with
  | error e =>
    rw [hid] at h
    obtain rfl := Among.eq_of_done h
    exact ⟨.inl (Among.own_done h), nofun⟩
  | ok id =>
    rw [hid] at h
    obtain ⟨tr₁, tr₂, u, t, rfl, hupdate, hrest⟩ := Among.seq h
    obtain ⟨before, t₀, t₁, r, after, rfl, hbefore, hserves, hwaits⟩ := Among.first hupdate
    have hlast : Own (after ++ tr₂) Service.Same := by
      refine (Among.own_done hwaits).append ?_
      cases u with
      | error e => exact Among.own_done hrest
      | ok u => exact own_reads (Program.Makes.ofExcept _) hrest
    obtain rfl := Among.eq_of_done hwaits
    have hinsert : t₀.Inserts lib params t₁ →
        InsertsOnce lib params ((before ++ ⟨some (.vectors (.update (.store params ctx .insertOnly) id)), t₀, t₁⟩ ::
          after) ++ tr₂) := fun hinserts =>
      ⟨before, ⟨_, t₀, t₁⟩, after ++ tr₂, by rw [List.append_assoc, List.cons_append], rfl, .of_none hbefore, hinserts, hlast⟩
    refine ⟨?_, fun hash hx => ?_⟩
    · rcases same_or_inserts hctx hid hserves.effect with hsame | hinserts
      · refine .inl ?_
        rw [List.append_assoc, List.cons_append]
        refine (Own.of_none hbefore).append fun m hm hown => ?_
        rcases List.mem_cons.mp hm with rfl | hm
        · exact hsame
        · exact hlast m hm hown
      · exact .inr (hinsert hinserts)
    · subst hx
      cases u with
      | error e => cases Among.eq_of_done hrest
      | ok u =>
        have hrest : Among Service.Serves others (ofExcept (storeResult ctx.contentHash
            (some (show Updated from u).update)) : Flow (Bool × String)).run t tr₂ (.ok (true, hash)) s' := hrest
        cases hresult : storeResult ctx.contentHash (some (show Updated from u).update) with
        | error e =>
          rw [hresult] at hrest
          cases Among.eq_of_done hrest
        | ok a =>
          rw [hresult] at hrest
          obtain rfl := Except.ok.inj (Among.eq_of_done hrest)
          exact hinsert (inserts_of_created hctx hid hserves hresult)

/-! ### The whole store -/

/-- What the end of a read-only store says of its moments. -/
structure ReadOnlyEnds (lib : Components) (params : StoreParams) (tr : List (Moment Call Service))
    (r : Except AlayaError (Option StoreReport)) : Prop where
  once : Own tr Service.Same ∨ InsertsOnce lib params tr
  reports : r ≠ .ok none
  duplicate : ∀ contentHash existingHash similarity,
    r = .ok (some (.duplicate contentHash existingHash similarity)) → Own tr Service.Same
  stored : ∀ contentHash memoryType created tags neighbours contradictions,
    r = .ok (some (.stored contentHash memoryType created tags neighbours contradictions)) →
      contentHash = lib.generateContentHash params.content ∧ created = true ∧ InsertsOnce lib params tr

theorem ReadOnlyEnds.after_same {r : Except AlayaError (Option StoreReport)} (h₁ : Own tr₁ Service.Same)
    (h : ReadOnlyEnds lib params tr₂ r) : ReadOnlyEnds lib params (tr₁ ++ tr₂) r where
  once := h.once.imp h₁.append (InsertsOnce.after_same h₁)
  reports := h.reports
  duplicate a b c hr := h₁.append (h.duplicate a b c hr)
  stored a b c d e f hr := by
    obtain ⟨hhash, hcreated, hinserts⟩ := h.stored a b c d e f hr
    exact ⟨hhash, hcreated, hinserts.after_same h₁⟩

theorem ReadOnlyEnds.of_error {e : AlayaError} (h : Own tr Service.Same ∨ InsertsOnce lib params tr) :
    ReadOnlyEnds lib params tr (.error e) := ⟨h, nofun, nofun, nofun⟩

theorem readOnlyEnds_storePoint {embedding : List ℚ} {similar : Option (List ScoredMemory)}
    {r : Except AlayaError (Option StoreReport)} (h : Among Service.Serves others
      (MemoryService.storePoint lib params true true now embedding similar).run s tr r s') :
    ReadOnlyEnds lib params tr r := by
  obtain ⟨tr₁, tr₂, x, t, rfl, hstore, hrest⟩ := Among.seq h
  obtain ⟨hwrite, hcreated⟩ := insertsOnce_store rfl hstore
  rcases x with e | ⟨created, hash⟩
  · obtain rfl := Among.eq_of_done hrest
    exact .of_error (hwrite.imp (·.append (Among.own_done hrest)) (·.before_same (Among.own_done hrest)))
  · cases created with
    | false =>
      obtain rfl := Among.eq_of_done hrest
      exact .of_error (hwrite.imp (·.append (Among.own_done hrest)) (·.before_same (Among.own_done hrest)))
    | true =>
      obtain rfl := Among.eq_of_done hrest
      have honce := (hcreated hash rfl).before_same (Among.own_done hrest)
      refine ⟨.inr honce, nofun, nofun, fun _ _ _ _ _ _ hr => ?_⟩
      obtain ⟨rfl, -, rfl, -⟩ := StoreReport.stored.inj (Option.some.inj (Except.ok.inj hr))
      exact ⟨rfl, rfl, honce⟩

theorem readOnlyEnds_storeMemoryMode {r : Except AlayaError (Option StoreReport)}
    (h : Among Service.Serves others (MemoryService.storeMemoryMode lib params true true now).run s tr r s') :
    ReadOnlyEnds lib params tr r := by
  unfold MemoryService.storeMemoryMode at h
  split at h
  · obtain rfl := Among.eq_of_done h
    exact .of_error (.inl (Among.own_done h))
  have hcheck := Among.check h
  cases hvalid : checked params.validate with
  | error e =>
    rw [hvalid] at hcheck
    obtain rfl := Among.eq_of_done hcheck
    exact .of_error (.inl (Among.own_done hcheck))
  | ok _ =>
    rw [hvalid] at hcheck
    obtain ⟨tr₁, tr₂, x, t, rfl, hembed, hrest⟩ := Among.seq hcheck
    have hasked : Own tr₁ Service.Same := own_reads (makes_ask (c := .query (.embed params.content)) trivial) hembed
    rcases x with e | (_ | embedding)
    · obtain rfl := Among.eq_of_done hrest
      exact .of_error (.inl (hasked.append (Among.own_done hrest)))
    · obtain rfl := Among.eq_of_done hrest
      exact .of_error (.inl (hasked.append (Among.own_done hrest)))
    · refine .after_same hasked ?_
      obtain ⟨tr₃, tr₄, y, t', rfl, hnear, hrest⟩ := Among.seq hrest
      have hasked : Own tr₃ Service.Same := by
        refine own_reads ?_ hnear
        unfold MemoryService.nearDuplicate
        split
        · exact .pure _
        · exact (makes_attempt (makes_ask trivial)).seq fun _ => .pure _
      rcases y with e | (_ | top)
      · obtain rfl := Among.eq_of_done hrest
        exact .of_error (.inl (hasked.append (Among.own_done hrest)))
      -- A read-only store searches no neighbours.
      · exact .after_same hasked (readOnlyEnds_storePoint hrest)
      · obtain rfl := Among.eq_of_done hrest
        have hsame := hasked.append (Among.own_done hrest)
        exact ⟨.inl hsame, nofun, fun _ _ _ _ => hsame, nofun⟩

end

/-! ### What a store starts in the background -/

/-- The hashes a store's report contradicts, each once and in order. -/
def contradictedHashes (contradictions : List ContradictionSignal) : List String :=
  ((contradictions.map ContradictionSignal.existingHash).mergeSort (· ≤ ·)).dedup

/-- What the worker starts once a store has answered: a summary to generate, of a hash and its content, and the pairs
that ask for a judge. -/
structure Followups where
  summary : Option (String × String)
  judged : List (String × String)

/-- `spawn_store_followups` of a store, where the service has a summary provider and a judge or has none. -/
def storeFollowups (summarizes judges : Bool) (params : StoreParams) (readOnly : Bool) : StoreReport → Followups
  | .duplicate .. => ⟨none, []⟩
  | .stored contentHash _ created _ _ contradictions =>
    ⟨if !readOnly && params.summary.isNone && summarizes then some (contentHash, params.content) else none,
     if readOnly || !judges || !created then [] else (contradictedHashes contradictions).map fun dst => (contentHash, dst)⟩

/-- What a read-only store that answers with a report has done. -/
def StoreReport.Adds (lib : Components) (params : StoreParams) (tr : List (Moment Call Service)) : StoreReport → Prop
  | .duplicate .. => Own tr Service.Same
  | .stored contentHash _ created _ _ _ =>
    contentHash = lib.generateContentHash params.content ∧ created = true ∧ InsertsOnce lib params tr

section

variable {lib : Components} {params : StoreParams} {now : ℚ} {others : Service → Service → Prop} {s s' : Service}
  {tr : List (Moment Call Service)}

/-- **A read-only store adds at most one memory.**  Whatever the others do and whichever of its calls fail, before or
after they took effect: at one of its own moments at most, the memory of its own hash is put where none was, and no
other moment changes a point, a vector, the graph or the queue.  A store that is reported made that insert, one that is
skipped as a duplicate made none, and nothing is left to the background. -/
theorem readOnly_store {r : Except AlayaError StoreReport}
    (h : Among Service.Serves others (MemoryService.storeMemoryWith lib params true now).run s tr r s') :
    (Own tr Service.Same ∨ InsertsOnce lib params tr) ∧
      ∀ report, r = .ok report → report.Adds lib params tr ∧
        ∀ summarizes judges, storeFollowups summarizes judges params true report = ⟨none, []⟩ := by
  obtain ⟨tr₁, tr₂, x, t, rfl, hstore, hrest⟩ := Among.seq h
  have hends := readOnlyEnds_storeMemoryMode hstore
  have hwaits : Own tr₂ Service.Same := by
    rcases x with e | (_ | report) <;> exact Among.own_done hrest
  refine ⟨hends.once.imp (·.append hwaits) (·.before_same hwaits), fun report hr => ?_⟩
  subst hr
  rcases x with e | (_ | found)
  · cases Among.eq_of_done hrest
  · exact absurd rfl hends.reports
  obtain rfl := Except.ok.inj (Among.eq_of_done hrest)
  cases report with
  | duplicate contentHash existingHash similarity =>
    exact ⟨(hends.duplicate _ _ _ rfl).append hwaits, fun _ _ => rfl⟩
  | stored contentHash memoryType created tags neighbours contradictions =>
    obtain ⟨hhash, hcreated, honce⟩ := hends.stored _ _ _ _ _ _ rfl
    exact ⟨⟨hhash, hcreated, honce.before_same hwaits⟩, fun _ _ => rfl⟩

end

namespace EmptyStore

/-- The hash of every text. -/
def hash : String := String.ofList (List.replicate 64 'a')

def lib : Components where
  generateContentHash _ := hash
  computeSalience _ := 0
  captureEncodingContext _ _ := []
  buildProvenance _ _ := []
  detectContradictionSignals _ _ _ := []

def params : StoreParams := { content := "the port is 9090" }

/-- A service that holds nothing, whose embedder answers. -/
def service : Service where
  points _ := none
  vectors _ := none
  graph := .empty
  coAccess := []
  client := 0
  writes := 0
  answer := fun q _ _ =>
    match q with
    | .embed _ => .ok (some [1])
    | _ => .error (.storage "unreachable")

/-- The store into it, with nobody beside it. -/
def run : List (Moment Call Service) × Except AlayaError StoreReport × Service :=
  (MemoryService.storeMemoryWith lib params true 1).run.scheduled Service.serve [] service

/-- The hash of a memory that is reported as stored and new. -/
def newHash : StoreReport → Option String
  | .stored contentHash _ true _ _ _ => some contentHash
  | _ => none

def point : PointId := uuidToString (List.replicate 32 'a')

end EmptyStore

open EmptyStore in
/-- It reports the memory as stored, and has put it where nothing was. -/
theorem readOnly_store_empty : ∃ report, run.2.1 = .ok report ∧ newHash report = some hash ∧
    InsertsOnce lib params run.1 ∧
    ((run.2.2.points point).bind parsePayload).map Memory.contentHash = some hash ∧
    ∀ summarizes judges, storeFollowups summarizes judges params true report = ⟨none, []⟩ := by
  have hrun : Among Service.Serves (fun _ _ => True) (MemoryService.storeMemoryWith lib params true 1).run service run.1
      run.2.1 run.2.2 := Among.of_schedule (fun _ _ => .inl rfl) (fun _ _ => trivial) _ _ _
  have hresult : run.2.1.toOption.map newHash = some (some hash) ∧
      ((run.2.2.points point).bind parsePayload).map Memory.contentHash = some hash := by
    decide +kernel
  obtain ⟨report, hreport, hstored⟩ := Option.map_eq_some_iff.mp hresult.1
  obtain ⟨hadds, hnothing⟩ := (readOnly_store hrun).2 report (toOption_eq_some.mp hreport)
  refine ⟨report, toOption_eq_some.mp hreport, hstored, ?_, hresult.2, hnothing⟩
  cases report with
  | duplicate => cases hstored
  | stored => exact hadds.2.2

end Alaya
