import Alaya.Types.Graph
import Mathlib.Data.Finset.Basic
import Mathlib.Data.Finset.Image
import Mathlib.Data.Finset.Sort
import Mathlib.Data.String.Basic
import Mathlib.Logic.Function.Basic

/-!
# The graph and its statements

The graph holds one node for each hash that was ensured, and edges between nodes: `MERGE` leaves at
most one edge of a type from one node to another, and a deleted node takes its edges with it.  Each
Cypher statement of the bridge is one function here, evaluated and applied in one step.  An edge's
creation time is kept where a statement reads it: on CONTRADICTS.
-/

namespace Alaya

/-- The judge's properties of a CONTRADICTS edge, `e.verdict` to `e.judged_at`. -/
structure Judgement where
  verdict : Option Verdict := none
  verdictSurvivor : Option String := none
  verdictReason : Option String := none
  verdictConfidence : Option ℚ := none
  verdictModel : Option String := none
  judgedAt : Option ℚ := none
  deriving DecidableEq

/-- The operator's properties, `e.resolution`, `e.resolved_at` and `e.resolved_via`. -/
structure Stamp where
  resolution : Option Resolution := none
  resolvedAt : Option ℚ := none
  resolvedVia : Option String := none
  deriving DecidableEq

/-- The properties of a CONTRADICTS edge. -/
structure Link where
  createdAt : Option ℚ := none
  confidence : Option ℚ := none
  judgement : Judgement := {}
  stamp : Stamp := {}
  refuteReason : Option String := none
  deriving DecidableEq

/-- The graph.  No edge lacks one of its nodes. -/
structure Graph where
  nodes : Finset String
  /-- The mark a sweep left on a node. -/
  sweepMark : String → Option String
  /-- SUPERSEDES edges, from the survivor to the superseded. -/
  supersedes : Finset (String × String)
  contradicts : String → String → Option Link
  /-- RELATES_TO and PRECEDES edges. -/
  related : Finset (UserRelationType × String × String)
  supersedes_nodes : ∀ e ∈ supersedes, e.1 ∈ nodes ∧ e.2 ∈ nodes
  contradicts_nodes : ∀ a b, (contradicts a b).isSome → a ∈ nodes ∧ b ∈ nodes
  related_nodes : ∀ e ∈ related, e.2.1 ∈ nodes ∧ e.2.2 ∈ nodes

/-- The judge's properties of a verdict as they are written: all six. -/
def EdgeVerdict.judgement (v : EdgeVerdict) : Judgement where
  verdict := some v.verdict
  verdictSurvivor := v.verdictSurvivor
  verdictReason := some v.verdictReason
  verdictConfidence := some v.verdictConfidence
  verdictModel := some v.verdictModel
  judgedAt := some v.judgedAt

/-- An edge that carries a verdict, a resolution or a refute's reason. -/
def Link.audited (link : Link) : Bool :=
  link.judgement.verdict.isSome || link.stamp.resolution.isSome || link.refuteReason.isSome

namespace Graph

def empty : Graph where
  nodes := ∅
  sweepMark := fun _ => none
  supersedes := ∅
  contradicts := fun _ _ => none
  related := ∅
  supersedes_nodes := by simp
  contradicts_nodes := by simp
  related_nodes := by simp

/-! ### Nodes -/

/-- `MERGE` the node and clear a sweep's mark. -/
def ensureNode (g : Graph) (hash : String) : Graph where
  nodes := insert hash g.nodes
  sweepMark := Function.update g.sweepMark hash none
  supersedes := g.supersedes
  contradicts := g.contradicts
  related := g.related
  supersedes_nodes e he := (g.supersedes_nodes e he).imp Finset.mem_insert_of_mem
    Finset.mem_insert_of_mem
  contradicts_nodes a b h := (g.contradicts_nodes a b h).imp Finset.mem_insert_of_mem
    Finset.mem_insert_of_mem
  related_nodes e he := (g.related_nodes e he).imp Finset.mem_insert_of_mem
    Finset.mem_insert_of_mem

/-- `DETACH DELETE` every node in `gone`. -/
def detachDelete (g : Graph) (gone : Finset String) : Graph where
  nodes := g.nodes \ gone
  sweepMark := g.sweepMark
  supersedes := g.supersedes.filter fun e => e.1 ∉ gone ∧ e.2 ∉ gone
  contradicts a b := if a ∉ gone ∧ b ∉ gone then g.contradicts a b else none
  related := g.related.filter fun e => e.2.1 ∉ gone ∧ e.2.2 ∉ gone
  supersedes_nodes e he := by
    obtain ⟨hmem, hleft, hright⟩ := Finset.mem_filter.mp he
    obtain ⟨hsrc, hdst⟩ := g.supersedes_nodes e hmem
    exact ⟨Finset.mem_sdiff.mpr ⟨hsrc, hleft⟩, Finset.mem_sdiff.mpr ⟨hdst, hright⟩⟩
  contradicts_nodes a b h := by
    split_ifs at h with hkept
    · obtain ⟨hsrc, hdst⟩ := g.contradicts_nodes a b h
      exact ⟨Finset.mem_sdiff.mpr ⟨hsrc, hkept.1⟩, Finset.mem_sdiff.mpr ⟨hdst, hkept.2⟩⟩
    · cases h
  related_nodes e he := by
    obtain ⟨hmem, hleft, hright⟩ := Finset.mem_filter.mp he
    obtain ⟨hsrc, hdst⟩ := g.related_nodes e hmem
    exact ⟨Finset.mem_sdiff.mpr ⟨hsrc, hleft⟩, Finset.mem_sdiff.mpr ⟨hdst, hright⟩⟩

def deleteNode (g : Graph) (hash : String) : Graph := g.detachDelete {hash}

-- `ORDER BY m.content_hash`: a list in hash order is sorted by this one order.
instance trans_hash : IsTrans String (· ≤ ·) := inferInstance

instance antisymm_hash : @Std.Antisymm String (· ≤ ·) := inferInstance

instance total_hash : @Std.Total String (· ≤ ·) := inferInstance

/-- One page of node hashes after `after`, in hash order. -/
def listMemoryNodes (g : Graph) (after : String) (limit : ℕ) : List String :=
  ((g.nodes.filter fun hash => after < hash).sort (· ≤ ·)).take limit

/-- Mark the given nodes with a sweep's token. -/
def sweepMarkMemoryNodes (g : Graph) (hashes : List String) (token : String) : Graph :=
  { g with sweepMark := fun hash =>
      if hash ∈ hashes ∧ hash ∈ g.nodes then some token else g.sweepMark hash }

/-- The given nodes that still carry `token`. -/
def marked (g : Graph) (hashes : List String) (token : String) : Finset String :=
  g.nodes.filter fun hash => hash ∈ hashes ∧ g.sweepMark hash = some token

/-- `DETACH DELETE` the given nodes that still carry `token`; how many. -/
def sweepDeleteMarkedNodes (g : Graph) (hashes : List String) (token : String) : ℕ × Graph :=
  ((g.marked hashes token).card, g.detachDelete (g.marked hashes token))

/-! ### SUPERSEDES -/

/-- `MATCH` both nodes and `MERGE` the edge between them; how many edges were bound. -/
def createSystemEdge (g : Graph) (src dst : String) : ℕ × Graph :=
  if h : src ∈ g.nodes ∧ dst ∈ g.nodes then
    (1, { g with
      supersedes := insert (src, dst) g.supersedes
      supersedes_nodes := fun e he => by
        rcases Finset.mem_insert.mp he with rfl | he
        · exact h
        · exact g.supersedes_nodes e he })
  else (0, g)

/-- Delete every SUPERSEDES edge into `dst`, whatever its source; the sources. -/
def deleteIncomingSystemEdges (g : Graph) (dst : String) : Finset String × Graph :=
  ((g.supersedes.filter fun e => e.2 = dst).image Prod.fst,
    { g with
      supersedes := g.supersedes.filter fun e => e.2 ≠ dst
      supersedes_nodes := fun e he => g.supersedes_nodes e (Finset.mem_filter.mp he).1 })

/-- How many SUPERSEDES edges point into a node. -/
def indegree (g : Graph) (hash : String) : ℕ := (g.supersedes.filter fun e => e.2 = hash).card

/-! ### CONTRADICTS and the other user relations -/

/-- Replace the properties of the edge `src -> dst`, or leave the graph alone without one. -/
def setLink (g : Graph) (src dst : String) (link : Link) : Graph :=
  if h : src ∈ g.nodes ∧ dst ∈ g.nodes then
    { g with
      contradicts := fun a b => if a = src ∧ b = dst then some link else g.contradicts a b
      contradicts_nodes := fun a b hab => by
        split_ifs at hab with heq
        · obtain ⟨rfl, rfl⟩ := heq
          exact h
        · exact g.contradicts_nodes a b hab }
  else g

/-- `MATCH` the edge `src -> dst` `WHERE` a test of its properties, and `SET` some of them; how many
edges were matched. -/
def editLink (g : Graph) (src dst : String) (test : Link → Bool) (edit : Link → Link) : ℕ × Graph :=
  match g.contradicts src dst with
  | some link => if test link then (1, g.setLink src dst (edit link)) else (0, g)
  | none => (0, g)

/-- `MERGE` a typed edge between two nodes; a new one carries its creation time and confidence. -/
def createTypedEdge (g : Graph) (src dst : String) (rel : UserRelationType) (ts : ℚ)
    (confidence : Option ℚ) : ℕ × Graph :=
  if h : src ∈ g.nodes ∧ dst ∈ g.nodes then
    match rel with
    | .contradicts =>
      match g.contradicts src dst with
      | some _ => (1, g)
      | none => (1, g.setLink src dst { createdAt := some ts, confidence })
    | rel => (1, { g with
        related := insert (rel, src, dst) g.related
        related_nodes := fun e he => by
          rcases Finset.mem_insert.mp he with rfl | he
          · exact h
          · exact g.related_nodes e he })
  else (0, g)

/-- `MERGE` the edge a refute files and stamp its reason unless it carries one; the stored reason,
`none` when a node is missing. -/
def linkRefutation (g : Graph) (src dst : String) (ts : ℚ) (reason : String) :
    Option String × Graph :=
  if src ∈ g.nodes ∧ dst ∈ g.nodes then
    let link := (g.contradicts src dst).getD { createdAt := some ts }
    let stored := link.refuteReason.getD reason
    (some stored, g.setLink src dst { link with refuteReason := some stored })
  else (none, g)

/-- Delete one typed edge; how many were deleted. -/
def deleteTypedEdge (g : Graph) (src dst : String) (rel : UserRelationType) : ℕ × Graph :=
  match rel with
  | .contradicts =>
    ((g.contradicts src dst).elim 0 fun _ => 1, { g with
      contradicts := fun a b => if a = src ∧ b = dst then none else g.contradicts a b
      contradicts_nodes := fun a b h => by
        split_ifs at h
        · cases h
        · exact g.contradicts_nodes a b h })
  | rel =>
    (if (rel, src, dst) ∈ g.related then 1 else 0, { g with
      related := g.related.erase (rel, src, dst)
      related_nodes := fun e he => g.related_nodes e (Finset.mem_of_mem_erase he) })

/-- Set the judge's verdict on an existing edge.  An `unjudged` marker lands only on an edge with no
real verdict. -/
def setContradictionVerdict (g : Graph) (src dst : String) (v : EdgeVerdict) : ℕ × Graph :=
  g.editLink src dst
    (fun link => v.verdict ≠ .unjudged || link.judgement.verdict = none ||
      link.judgement.verdict = some v.verdict)
    fun link => { link with judgement := v.judgement }

/-- Set or clear the operator's resolution on an existing edge. -/
def setContradictionResolution (g : Graph) (src dst : String) (resolution : Option Resolution)
    (resolvedVia : String) (resolvedAt : ℚ) : ℕ × Graph :=
  g.editLink src dst (fun _ => true) fun link =>
    { link with stamp :=
        match resolution with
        | some r => ⟨some r, some resolvedAt, some resolvedVia⟩
        | none => {} }

/-- The stamp of a settled pair. -/
def keepBoth (resolvedVia : String) (resolvedAt : ℚ) : Stamp :=
  ⟨some .keepBoth, some resolvedAt, some resolvedVia⟩

/-- Stamp `keep_both` on an existing edge that has no resolution yet. -/
def settleContradiction (g : Graph) (src dst resolvedVia : String) (resolvedAt : ℚ) : ℕ × Graph :=
  g.editLink src dst (fun link => link.stamp.resolution = none)
    fun link => { link with stamp := keepBoth resolvedVia resolvedAt }

/-- Clear the stamp only while it is still `keep_both` by `resolvedVia` at `resolvedAt`. -/
def unsettleContradiction (g : Graph) (src dst resolvedVia : String) (resolvedAt : ℚ) : ℕ × Graph :=
  g.editLink src dst (fun link => link.stamp = keepBoth resolvedVia resolvedAt)
    fun link => { link with stamp := {} }

def countAuditedContradiction (g : Graph) (src dst : String) : ℕ :=
  match g.contradicts src dst with
  | some link => if link.audited then 1 else 0
  | none => 0

/-! ### What the statements leave -/

section

variable (g : Graph) {src dst a b : String}

theorem contradicts_setLink (h : src ∈ g.nodes ∧ dst ∈ g.nodes) (link : Link) :
    (g.setLink src dst link).contradicts a b =
      if a = src ∧ b = dst then some link else g.contradicts a b := by
  rw [setLink, dif_pos h]

@[simp] theorem nodes_setLink (link : Link) : (g.setLink src dst link).nodes = g.nodes := by
  unfold setLink
  split <;> rfl

@[simp] theorem supersedes_setLink (link : Link) :
    (g.setLink src dst link).supersedes = g.supersedes := by
  unfold setLink
  split <;> rfl

/-- An edit reaches the edge it matches, when that passes the test, and no other. -/
theorem contradicts_editLink (test : Link → Bool) (edit : Link → Link) :
    (g.editLink src dst test edit).2.contradicts a b =
      if a = src ∧ b = dst then
        (g.contradicts src dst).map fun link => if test link then edit link else link
      else g.contradicts a b := by
  unfold editLink
  cases hlink : g.contradicts src dst with
  | none =>
    split_ifs with heq
    · obtain ⟨rfl, rfl⟩ := heq
      exact hlink
    · rfl
  | some link =>
    have hnodes := g.contradicts_nodes src dst (by simp [hlink])
    by_cases htest : test link
    · simp only [htest, if_true, contradicts_setLink g hnodes, Option.map_some]
    · simp only [htest, Bool.false_eq_true, if_false, Option.map_some]
      split_ifs with heq
      · obtain ⟨rfl, rfl⟩ := heq
        exact hlink
      · rfl

@[simp] theorem nodes_editLink (test : Link → Bool) (edit : Link → Link) :
    (g.editLink src dst test edit).2.nodes = g.nodes := by
  unfold editLink
  split
  · split <;> simp
  · rfl

@[simp] theorem supersedes_editLink (test : Link → Bool) (edit : Link → Link) :
    (g.editLink src dst test edit).2.supersedes = g.supersedes := by
  unfold editLink
  split
  · split <;> simp
  · rfl

@[simp] theorem nodes_createSystemEdge : (g.createSystemEdge src dst).2.nodes = g.nodes := by
  unfold createSystemEdge
  split <;> rfl

theorem mem_supersedes_createSystemEdge {e : String × String} :
    e ∈ (g.createSystemEdge src dst).2.supersedes ↔
      e ∈ g.supersedes ∨ (src ∈ g.nodes ∧ dst ∈ g.nodes) ∧ e = (src, dst) := by
  unfold createSystemEdge
  split
  · next h => simp [h, or_comm]
  · next h => simp [h]

@[simp] theorem nodes_deleteIncoming :
    (g.deleteIncomingSystemEdges dst).2.nodes = g.nodes := rfl

theorem mem_supersedes_deleteIncoming {e : String × String} :
    e ∈ (g.deleteIncomingSystemEdges dst).2.supersedes ↔ e ∈ g.supersedes ∧ e.2 ≠ dst :=
  Finset.mem_filter

@[simp] theorem supersedes_ensureNode (hash : String) :
    (g.ensureNode hash).supersedes = g.supersedes := rfl

@[simp] theorem mem_nodes_ensureNode {hash h : String} :
    h ∈ (g.ensureNode hash).nodes ↔ h = hash ∨ h ∈ g.nodes := Finset.mem_insert

theorem mem_supersedes_deleteNode {hash : String} {e : String × String} :
    e ∈ (g.deleteNode hash).supersedes ↔ e ∈ g.supersedes ∧ e.1 ≠ hash ∧ e.2 ≠ hash := by
  simp [deleteNode, detachDelete]

@[simp] theorem nodes_linkRefutation (ts : ℚ) (reason : String) :
    (g.linkRefutation src dst ts reason).2.nodes = g.nodes := by
  unfold linkRefutation
  split <;> simp

@[simp] theorem supersedes_linkRefutation (ts : ℚ) (reason : String) :
    (g.linkRefutation src dst ts reason).2.supersedes = g.supersedes := by
  unfold linkRefutation
  split <;> simp

@[simp] theorem nodes_createTypedEdge (rel : UserRelationType) (ts : ℚ) (confidence : Option ℚ) :
    (g.createTypedEdge src dst rel ts confidence).2.nodes = g.nodes := by
  unfold createTypedEdge
  split
  · cases rel with
    | contradicts =>
      dsimp only
      split <;> simp
    | relatesTo | precedes => rfl
  · rfl

@[simp] theorem supersedes_createTypedEdge (rel : UserRelationType) (ts : ℚ)
    (confidence : Option ℚ) :
    (g.createTypedEdge src dst rel ts confidence).2.supersedes = g.supersedes := by
  unfold createTypedEdge
  split
  · cases rel with
    | contradicts =>
      dsimp only
      split <;> simp
    | relatesTo | precedes => rfl
  · rfl

/-- A typed edge leaves a CONTRADICTS edge that is there alone. -/
theorem contradicts_createTypedEdge (rel : UserRelationType) (ts : ℚ) (confidence : Option ℚ) :
    (g.createTypedEdge src dst rel ts confidence).2.contradicts a b =
      if rel = .contradicts ∧ (src ∈ g.nodes ∧ dst ∈ g.nodes) ∧ a = src ∧ b = dst then
        some ((g.contradicts a b).getD { createdAt := some ts, confidence })
      else g.contradicts a b := by
  unfold createTypedEdge
  by_cases h : src ∈ g.nodes ∧ dst ∈ g.nodes
  · rw [dif_pos h]
    cases rel with
    | relatesTo | precedes => rw [if_neg (by simp)]
    | contradicts =>
      dsimp only
      by_cases hab : a = src ∧ b = dst
      · obtain ⟨rfl, rfl⟩ := hab
        rw [if_pos ⟨rfl, h, rfl, rfl⟩]
        cases hlink : g.contradicts a b with
        | none => rw [contradicts_setLink g h, if_pos ⟨rfl, rfl⟩, Option.getD_none]
        | some link => rw [hlink, Option.getD_some]
      · rw [if_neg fun hcond => hab hcond.2.2]
        split
        · rfl
        · rw [contradicts_setLink g h, if_neg hab]
  · rw [dif_neg h, if_neg fun hcond => h hcond.2.1]

/-- A refute's link keeps the edge that is there and a reason it carries. -/
theorem contradicts_linkRefutation (ts : ℚ) (reason : String) :
    (g.linkRefutation src dst ts reason).2.contradicts a b =
      if (src ∈ g.nodes ∧ dst ∈ g.nodes) ∧ a = src ∧ b = dst then
        let link := (g.contradicts a b).getD { createdAt := some ts }
        some { link with refuteReason := some (link.refuteReason.getD reason) }
      else g.contradicts a b := by
  unfold linkRefutation
  by_cases h : src ∈ g.nodes ∧ dst ∈ g.nodes
  · rw [if_pos h]
    dsimp only
    rw [contradicts_setLink g h]
    by_cases hab : a = src ∧ b = dst
    · obtain ⟨rfl, rfl⟩ := hab
      rw [if_pos ⟨rfl, rfl⟩, if_pos ⟨h, rfl, rfl⟩]
    · rw [if_neg hab, if_neg fun hcond => hab hcond.2]
  · rw [if_neg h, if_neg fun hcond => h hcond.1]

@[simp] theorem contradicts_createSystemEdge :
    (g.createSystemEdge src dst).2.contradicts = g.contradicts := by
  unfold createSystemEdge
  split <;> rfl

@[simp] theorem nodes_deleteTypedEdge (rel : UserRelationType) :
    (g.deleteTypedEdge src dst rel).2.nodes = g.nodes := by
  cases rel <;> rfl

@[simp] theorem supersedes_deleteTypedEdge (rel : UserRelationType) :
    (g.deleteTypedEdge src dst rel).2.supersedes = g.supersedes := by
  cases rel <;> rfl

end

end Graph

end Alaya
