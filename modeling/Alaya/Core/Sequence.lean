import Alaya.Core.Refute
import Alaya.Core.Stored

/-!
# Operations one after another

A sequential run: each operation runs alone, from its first call to its last, with the clock its
caller reads.  `Report.pairs` are the memories an operation reports superseded, each with its survivor.
-/

namespace Alaya

open Json Interleave Labelled

/-- The memories a read of some hashes finds. -/
def Service.batch (s : Service) (hashes : List String) : List Memory :=
  (getBatch s.points hashes).toOption.getD []

inductive Operation where
  /-- A store by any caller: a read-only one, or one that only inserts. -/
  | store (params : StoreParams) (readOnly insertOnly : Bool) (now : ℚ)
  | supersede (oldHash newHash reason : String)
  | merge (canonicalHash : String) (duplicateHashes : List String) (reason : String) (dryRun : Bool)
  | refute (contentHash : String) (refutation : Refutation) (now : ℚ)
  | unsupersede (contentHash reason via : String) (now : ℚ)
  | delete (contentHash : String)

inductive Report where
  | stored (report : Option StoreReport)
  | superseded (report : SupersedeReport)
  | merged (report : MergeReport)
  | refuted (answer : RefuteAnswer)
  | unsuperseded (report : UnsupersedeReport)
  | deleted (deleted : Bool)

namespace Operation

def flow (lib : Components) : Operation → Flow Report
  | store params readOnly insertOnly now =>
    .stored <$> MemoryService.storeMemoryMode lib params readOnly insertOnly now
  | supersede oldHash newHash reason =>
    .superseded <$> MemoryService.memorySupersede oldHash newHash reason
  | merge canonicalHash duplicateHashes reason dryRun =>
    .merged <$> MemoryService.mergeDuplicates canonicalHash duplicateHashes reason dryRun
  | refute contentHash refutation now =>
    .refuted <$> MemoryService.memoryRefute lib contentHash refutation now
  | unsupersede contentHash reason via now =>
    .unsuperseded <$> MemoryService.memoryUnsupersede contentHash reason via now
  | delete contentHash => .deleted <$> MemoryService.deleteMemory contentHash

/-- The memories an operation is to supersede in a state, each with its survivor: the pairs that
pass the operation's own checks there. -/
def Supersedes (lib : Components) (s : Service) : Operation → String → String → Prop
  | supersede oldHash newHash _, m, n => m = oldHash ∧ n = newHash ∧ validateContentHash oldHash ∧
      validateContentHash newHash ∧ oldHash ≠ newHash ∧
      (∃ w ∈ s.batch [oldHash, newHash], w.contentHash = oldHash) ∧
      ∃ w ∈ s.batch [oldHash, newHash], w.contentHash = newHash
  | merge canonicalHash duplicateHashes _ dryRun, m, n => dryRun = false ∧ n = canonicalHash ∧
      validateContentHash canonicalHash ∧ (∃ w, getByHash s.points canonicalHash = .ok (some w)) ∧
      m ∈ MemoryService.mergeCandidates canonicalHash duplicateHashes ∧
      ∃ w ∈ s.batch (MemoryService.mergeCandidates canonicalHash duplicateHashes), w.contentHash = m
  | refute contentHash refutation _, m, n => m = contentHash ∧ refutation.supersede = true ∧
      (∃ reason, MemoryService.refuteChecked lib contentHash refutation = .ok (reason, n)) ∧
      (∃ wrong, (s.batch [contentHash, n]).find? (fun w => w.contentHash = contentHash) = some wrong ∧
        MemoryService.wrongRefusal refutation n wrong = none) ∧
      ((s.batch [contentHash, n]).find? (fun w => w.contentHash = n)).bind refutation.refusal = none
  | _, _, _ => False

end Operation

/-- The memories a report names as superseded by this operation, each with its survivor. -/
def Report.pairs : Report → List (String × String)
  | superseded report => [(report.superseded, report.supersededBy)]
  | merged report =>
    if report.dryRun then [] else report.superseded.map fun dup => (dup, report.canonicalHash)
  | refuted (.finished plan .superseded) => [(plan.contentHash, plan.correctionHash)]
  | _ => []

/-- One operation runs alone, and what it answers. -/
def SeqStep (lib : Components) (s : Service) (e : Operation × Except AlayaError Report)
    (s' : Service) : Prop :=
  (e.1.flow lib).run.run Service.serve s = (e.2, s')

/-- Run some operations one after another: what each answers, and the state they leave. -/
def runEach (lib : Components) :
    Service → List Operation → List (Operation × Except AlayaError Report) × Service
  | s, [] => ([], s)
  | s, op :: ops =>
    let r := (op.flow lib).run.run Service.serve s
    let rest := runEach lib r.2 ops
    ((op, r.1) :: rest.1, rest.2)

theorem run_runEach (lib : Components) (s : Service) (ops : List Operation) :
    Run (SeqStep lib) s (runEach lib s ops).1 (runEach lib s ops).2 := by
  induction ops generalizing s with
  | nil => exact .start
  | cons op ops ih => exact (Run.single rfl).append (ih _)

/-! ### The checks of a supersession -/

open Alaya.Flow Program

theorem wp_getBatch {hashes : List String} {Q : Except AlayaError (List Memory) → Service → Prop}
    {s : Service} : wp Service.serve (Vectors.getBatch hashes).run Q s ↔
      Q (getBatch s.points hashes) s := by
  cases hashes <;> exact .rfl

theorem wp_getByHash {contentHash : String} {Q : Except AlayaError (Option Memory) → Service → Prop}
    {s : Service} : wp Service.serve (Vectors.getByHash contentHash).run Q s ↔
      Q (getByHash s.points contentHash) s := .rfl

/-- An operation that succeeds, as a step. -/
theorem seqStep_of_toOption {lib : Components} {s : Service} {op : Operation} {report : Report}
    (h : ((op.flow lib).run.run Service.serve s).1.toOption = some report) :
    SeqStep lib s (op, .ok report) ((op.flow lib).run.run Service.serve s).2 :=
  Prod.ext (toOption_eq_some.mp h) rfl

/-- What holds when an operation ends holds of a step. -/
theorem SeqStep.of_wp {lib : Components} {s s' : Service} {e : Operation × Except AlayaError Report}
    {Q : Except AlayaError Report → Service → Prop} (h : SeqStep lib s e s')
    (hwp : wp Service.serve (e.1.flow lib).run Q s) : Q e.2 s' := by
  unfold wp at hwp
  rw [show (e.1.flow lib).run.run Service.serve s = (e.2, s') from h] at hwp
  exact hwp

theorem Service.batch_of_ok {s : Service} {hashes : List String} {found : List Memory}
    (h : getBatch s.points hashes = .ok found) : s.batch hashes = found := by
  rw [Service.batch, h]
  rfl

namespace MemoryService

theorem supersedeChecked_eq_ok {oldHash newHash : String} {u : Unit}
    (h : supersedeChecked oldHash newHash = .ok u) :
    validateContentHash oldHash ∧ validateContentHash newHash ∧ oldHash ≠ newHash := by
  unfold supersedeChecked at h
  split_ifs at h with hvalid hne
  rw [Bool.or_eq_true, not_or] at hvalid
  exact ⟨by simpa using hvalid.1, by simpa using hvalid.2, hne⟩

theorem bothFound_eq_ok {oldHash newHash : String} {batch : List Memory} {u : Unit}
    (h : bothFound oldHash newHash batch = .ok u) :
    (∃ w ∈ batch, w.contentHash = oldHash) ∧ ∃ w ∈ batch, w.contentHash = newHash := by
  unfold bothFound at h
  split_ifs at h with hold hnew
  exact ⟨by simpa using hold, by simpa using hnew⟩

theorem mem_mergeCandidates {canonicalHash dup : String} {duplicateHashes : List String} :
    dup ∈ mergeCandidates canonicalHash duplicateHashes ↔
      dup ∈ duplicateHashes ∧ dup ≠ canonicalHash ∧ validateContentHash dup := by
  unfold mergeCandidates duplicateRefusal
  rw [List.mem_filter]
  refine and_congr_right fun _ => ?_
  split_ifs with hsame hvalid <;> simp_all

end MemoryService

section

variable {s : Service} {lib : Components} {contentHash : String} {refutation : Refutation} {now : ℚ}

/-- A first phase that stores nothing. -/
def RefuteStage.Refuses : Except AlayaError RefuteStage → Prop
  | .ok (.stored _) => False
  | _ => True

/-- **A refute that does not pass its own checks changes nothing.** -/
theorem refute_refused (h : ∀ m n, ¬(Operation.refute contentHash refutation now).Supersedes lib s m n)
    (hsupersede : refutation.supersede = true) :
    wp Service.serve (MemoryService.refuteStore lib contentHash refutation now).run
      (fun r s' => s' = s ∧ RefuteStage.Refuses r) s := by
  refine wp_seq.mpr (wp_ofExcept.mpr ?_)
  cases hchecked : MemoryService.refuteChecked lib contentHash refutation with
  | error e => exact ⟨rfl, trivial⟩
  | ok checked =>
    obtain ⟨reason, correctionHash⟩ := checked
    refine wp_seq.mpr (wp_getBatch.mpr ?_)
    cases hbatch : getBatch s.points [contentHash, correctionHash] with
    | error e => exact ⟨rfl, trivial⟩
    | ok found =>
      have hfound := Service.batch_of_ok hbatch
      dsimp only
      cases hwrong : found.find? fun m => m.contentHash = contentHash with
      | none => exact ⟨rfl, trivial⟩
      | some wrong =>
        dsimp only
        cases hrefusal : MemoryService.wrongRefusal refutation correctionHash wrong with
        | some refused => exact ⟨rfl, trivial⟩
        | none =>
          have hpasses : (found.find? fun m => m.contentHash = correctionHash).bind
              refutation.refusal ≠ none := by
            intro hnone
            refine h contentHash correctionHash ⟨rfl, hsupersede, ⟨reason, hchecked⟩, ?_, ?_⟩
            · exact ⟨wrong, by rw [hfound, hwrong], hrefusal⟩
            · rw [hfound, hnone]
          -- What is left is a correction that the stored memories refuse.
          cases hexisting : found.find? fun m => m.contentHash = correctionHash with
          | none =>
            rw [hexisting] at hpasses
            exact absurd rfl hpasses
          | some existing =>
            rw [hexisting, Option.bind_some] at hpasses
            refine wp_seq.mpr ?_
            unfold MemoryService.storeCorrection
            dsimp only
            cases hcorrection : refutation.refusal existing with
            | none => exact absurd hcorrection hpasses
            | some refused => exact ⟨rfl, trivial⟩

end

end Alaya
