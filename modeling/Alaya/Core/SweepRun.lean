import Alaya.Core.Sweep

/-!
# A sweep among other writes

One sweep runs while anything else happens to both stores, and its own calls may fail before or after they took
effect.  What it may write is read off its calls, and what it removes off the moments before: two reads without the
point, the mark between them, and no ensure since the mark.
-/

namespace Alaya

open Interleave Alaya.Flow Program

/-! ### What a moment of a sweep does -/

/-- What a call of a sweep does to the stores: it marks or deletes nodes of `P`, or nothing. -/
inductive SweepMove (token : String) (P : String → Prop) (s : Service) : Service → Prop
  | same : SweepMove token P s s
  | marked {hashes : List String} : (∀ hash ∈ hashes, P hash) →
      SweepMove token P s { s with graph := s.graph.sweepMarkMemoryNodes hashes token }
  | deleted {gone : Finset String} : (∀ hash ∈ gone, P hash) →
      SweepMove token P s { s with graph := s.graph.detachDelete gone }

/-- The program removes the node. -/
structure Removes (hash : String) (m : Moment Call Service) : Prop where
  own : m.call.isSome
  before : hash ∈ m.before.graph.nodes
  after : hash ∉ m.after.graph.nodes

/-- How many nodes the program removes in a run. -/
def removed (tr : List (Moment Call Service)) : ℕ :=
  (tr.map fun m => if m.call.isSome then (m.before.graph.nodes \ m.after.graph.nodes).card else 0).sum

/-- The node was marked and its point absent at a read since; nothing has ensured the node since the mark. -/
def Rechecked (token hash : String) (past : List (Moment Call Service)) : Prop :=
  ∃ a m₂ c m₃ d hashes reread, past = a ++ m₂ :: (c ++ m₃ :: d) ∧
    m₂.call = some (.graph (.sweepMarkMemoryNodes hashes token)) ∧ hash ∈ hashes ∧
    m₃.call = some (.vectors (.existingHashes reread)) ∧ m₃.before.Gone hash ∧
    ∀ m ∈ c ++ m₃ :: d, m.after.graph ≠ m.before.graph.ensureNode hash

/-- The point was absent at a read, and again after the node was marked. -/
def GoneTwice (token hash : String) (past : List (Moment Call Service)) : Prop :=
  ∃ a m₁ b hashes, past = a ++ m₁ :: b ∧ m₁.call = some (.vectors (.existingHashes hashes)) ∧
    m₁.before.Gone hash ∧ Rechecked token hash b

/-- No move of the others marks a node with the token. -/
def Foreign (token : String) (others : Service → Service → Prop) : Prop :=
  ∀ s s' hash, others s s' → s'.graph.sweepMark hash = some token → s.graph.sweepMark hash = some token

section

variable {token hash : String} {P Q : String → Prop} {s s' : Service} {tr tr₁ tr₂ : List (Moment Call Service)}
  {others : Service → Service → Prop}

theorem SweepMove.mono (h : SweepMove token P s s') (hPQ : ∀ hash, P hash → Q hash) : SweepMove token Q s s' := by
  cases h with
  | same => exact .same
  | marked hmarked => exact .marked fun hash hhash => hPQ hash (hmarked hash hhash)
  | deleted hdeleted => exact .deleted fun hash hhash => hPQ hash (hdeleted hash hhash)

theorem removed_append (tr₁ tr₂ : List (Moment Call Service)) :
    removed (tr₁ ++ tr₂) = removed tr₁ + removed tr₂ := by
  rw [removed, List.map_append, List.sum_append]
  rfl

theorem removed_cons (m : Moment Call Service) (tr : List (Moment Call Service)) : removed (m :: tr) =
    (if m.call.isSome then (m.before.graph.nodes \ m.after.graph.nodes).card else 0) + removed tr := List.sum_cons

theorem removed_eq_zero (h : Own tr fun t t' => t.graph.nodes ⊆ t'.graph.nodes) : removed tr = 0 := by
  unfold removed
  refine List.sum_eq_zero fun n hn => ?_
  obtain ⟨m, hm, rfl⟩ := List.mem_map.mp hn
  split
  · next hown => rw [Finset.card_eq_zero, Finset.sdiff_eq_empty_iff_subset]; exact h m hm hown
  · rfl

theorem Rechecked.prepend {past : List (Moment Call Service)} (h : Rechecked token hash past)
    (tr : List (Moment Call Service)) : Rechecked token hash (tr ++ past) := by
  obtain ⟨a, m₂, c, m₃, d, hashes, reread, rfl, hrest⟩ := h
  exact ⟨tr ++ a, m₂, c, m₃, d, hashes, reread, (List.append_assoc ..).symm, hrest⟩

theorem GoneTwice.prepend {past : List (Moment Call Service)} (h : GoneTwice token hash past)
    (tr : List (Moment Call Service)) : GoneTwice token hash (tr ++ past) := by
  obtain ⟨a, m₁, b, hashes, rfl, hrest⟩ := h
  exact ⟨tr ++ a, m₁, b, hashes, (List.append_assoc ..).symm, hrest⟩

/-- A hash that a read does not report has no point. -/
theorem gone_of_existingHashes {hashes present : List String}
    (h : s.Serves (.vectors (.existingHashes hashes)) (.ok present) s') (hhash : hash ∈ hashes)
    (hmissing : hash ∉ present) : s.Gone hash := by
  rcases h with h | ⟨hunsure, -⟩
  · have hread : existingHashes s.points hashes = .ok present := congrArg Prod.fst h
    unfold existingHashes at hread
    cases hids : hashes.mapM hashToUuid with
    | error e =>
      rw [hids] at hread
      cases hread
    | ok ids =>
      rw [hids] at hread
      obtain ⟨id, hzip, hid⟩ := Rows.exists_mem_zip_of_mapM hids hhash
      refine ⟨id, hid, ?_⟩
      cases hpoint : s.points id with
      | none => rfl
      | some p =>
        refine absurd ?_ hmissing
        rw [← Except.ok.inj hread]
        exact List.mem_map.mpr ⟨(hash, id), List.mem_filter.mpr ⟨hzip, by simp [hpoint]⟩, rfl⟩
  · exact hunsure.elim

/-- A call of a sweep that follows a mark: the second read, or the delete of some of the nodes. -/
def Call.OfSweepMarked (missing : List String) (token : String) (c : Call) : Prop :=
  c = .vectors (.existingHashes missing) ∨
    ∃ gone : List String, gone.Sublist missing ∧ c = .graph (.sweepDeleteMarkedNodes gone token)

/-- What the delete of a sweep does. -/
theorem effect_sweepDelete {gone : List String} (h : s.Effect (.graph (.sweepDeleteMarkedNodes gone token)) s') :
    s' = s ∨ s' = { s with graph := s.graph.detachDelete (s.graph.marked gone token) } := by
  cases h with
  | quiet => exact .inl rfl
  | graph => exact .inr rfl

theorem mem_marked {g : Graph} {hashes : List String} :
    hash ∈ g.marked hashes token ↔ hash ∈ g.nodes ∧ hash ∈ hashes ∧ g.sweepMark hash = some token := by
  rw [Graph.marked, Finset.mem_filter]

theorem move_of_sweepMarked {missing : List String} {c : Call} {r : Reply c} (hc : c.OfSweepMarked missing token)
    (h : s.Serves c r s') : SweepMove token (· ∈ missing) s s' := by
  rcases hc with rfl | ⟨gone, hgone, rfl⟩
  · exact h.effect.eq_of_reads trivial ▸ .same
  · rcases effect_sweepDelete h.effect with rfl | rfl
    · exact .same
    · exact .deleted fun hash hhash => hgone.subset (mem_marked.mp hhash).2.1

/-- The nodes a delete removes are among those it was given. -/
theorem removed_sweepDelete {gone : List String} {r : Reply (.graph (.sweepDeleteMarkedNodes gone token))}
    (h : s.Serves (.graph (.sweepDeleteMarkedNodes gone token)) r s') :
    (s.graph.nodes \ s'.graph.nodes).card ≤ gone.length := by
  rcases effect_sweepDelete h.effect with rfl | rfl
  · rw [Finset.sdiff_self]
    exact Nat.zero_le _
  · refine (Finset.card_le_card fun hash hhash => ?_).trans (List.toFinset_card_le gone)
    obtain ⟨hnode, hleft⟩ := Finset.mem_sdiff.mp hhash
    by_contra hnot
    refine hleft (Finset.mem_sdiff.mpr ⟨hnode, fun hmarked => hnot ?_⟩)
    exact List.mem_toFinset.mpr (mem_marked.mp hmarked).2.1

theorem makes_sweepGone (missing : List String) (token : String) (present : List String) :
    (MemoryService.sweepGone missing token present).run.Makes (Call.OfSweepMarked missing token) := by
  unfold MemoryService.sweepGone
  by_cases hgone : missing.filter (· ∉ present) = []
  · simp only [hgone]
    exact .pure 0
  · simp only [hgone]
    exact makes_ask (.inr ⟨_, List.filter_sublist, rfl⟩)

/-- What a delete removes carries the mark and was not reported. -/
theorem sweepGone_run {missing present : List String} {x : Except AlayaError ℕ}
    (h : Among Service.Serves others (MemoryService.sweepGone missing token present).run s tr x s') :
    removed tr ≤ missing.length ∧ Traced tr fun _ m => ∀ hash, Removes hash m →
      hash ∈ missing ∧ hash ∉ present ∧ m.before.graph.sweepMark hash = some token := by
  unfold MemoryService.sweepGone at h
  by_cases hgone : missing.filter (· ∉ present) = []
  · simp only [hgone] at h
    have hown : Own tr fun _ _ => False := h.own_done
    refine ⟨?_, .of_own hown fun _ m hm hash hremoves => (hm hremoves.own).elim⟩
    rw [removed_eq_zero (hown.mono fun _ _ h => h.elim)]
    exact Nat.zero_le _
  · simp only [hgone] at h
    have hcall : Among Service.Serves others (.call (.graph (.sweepDeleteMarkedNodes
        (missing.filter (· ∉ present)) token)) .done) s tr x s' := h
    obtain ⟨tr₁, t, t', r, tr₂, rfl, hbefore, hserves, hrest⟩ := hcall.first
    have hbefore' : Own tr₁ fun _ _ => False := .of_none hbefore
    have hrest' : Own tr₂ fun _ _ => False := hrest.own_done
    constructor
    · rw [removed_append, removed_cons, removed_eq_zero (hbefore'.mono fun _ _ h => h.elim),
        removed_eq_zero (hrest'.mono fun _ _ h => h.elim)]
      refine le_trans ?_ (List.length_filter_le (· ∉ present) missing)
      simpa using removed_sweepDelete hserves
    · refine .append (.of_own hbefore' fun _ m hm hash hremoves => (hm hremoves.own).elim) ?_
      refine .cons (fun hash hremoves => ?_) (.of_own hrest' fun _ m hm hash hremoves => (hm hremoves.own).elim)
      rcases effect_sweepDelete hserves.effect with rfl | rfl
      · exact (hremoves.after hremoves.before).elim
      · have hmarked : hash ∈ t.graph.marked (missing.filter (· ∉ present)) token := by
          by_contra hnot
          exact hremoves.after (Finset.mem_sdiff.mpr ⟨hremoves.before, hnot⟩)
        obtain ⟨-, hfound, hmark⟩ := mem_marked.mp hmarked
        obtain ⟨hmissing, hnot⟩ := List.mem_filter.mp hfound
        exact ⟨hmissing, of_decide_eq_true hnot, hmark⟩

/-- Nothing but a mark of the sweep itself marks a node with its token. -/
theorem unmarked_of_sweepMarked {missing : List String} (hforeign : Foreign token others) {α : Type}
    {p : Program Reply α} {a : α} (hp : p.Makes (Call.OfSweepMarked missing token))
    (h : Among Service.Serves others p s tr a s') (hs : s.graph.sweepMark hash ≠ some token) :
    ∀ m ∈ tr, m.before.graph.sweepMark hash ≠ some token := by
  have hkept := h.preserves (I := fun s => s.graph.sweepMark hash ≠ some token) hp ?_ ?_ hs
  · exact fun m hm => (hkept.2 m hm).1
  · intro c t r t' hc hserves ht
    rcases hc with rfl | ⟨gone, -, rfl⟩
    · rwa [hserves.effect.eq_of_reads trivial]
    · rcases effect_sweepDelete hserves.effect with rfl | rfl <;> exact ht
  · exact fun t t' hothers ht ht' => ht (hforeign t t' hash hothers ht')

theorem makes_reread {missing : List String} (hmissing : missing ≠ []) (token : String) :
    (Vectors.existingHashes missing >>= MemoryService.sweepGone missing token).run.Makes
      (Call.OfSweepMarked missing token) := by
  obtain ⟨first, rest, rfl⟩ := List.exists_cons_of_ne_nil hmissing
  exact Makes.seq (makes_ask (.inl rfl)) fun present => makes_sweepGone ..

/-- What is removed after a mark has no point at the second read. -/
theorem reread_run {missing : List String} (hmissing : missing ≠ []) {x : Except AlayaError ℕ}
    (h : Among Service.Serves others (Vectors.existingHashes missing >>=
      MemoryService.sweepGone missing token : Flow ℕ).run s tr x s') :
    removed tr ≤ missing.length ∧ Traced tr fun past m => ∀ hash, Removes hash m →
      hash ∈ missing ∧ m.before.graph.sweepMark hash = some token ∧ ∃ c m₃ d reread, past = c ++ m₃ :: d ∧
        m₃.call = some (.vectors (.existingHashes reread)) ∧ m₃.before.Gone hash := by
  obtain ⟨first, rest, rfl⟩ := List.exists_cons_of_ne_nil hmissing
  have hcall : Among Service.Serves others (.call (.vectors (.existingHashes (first :: rest)))
      (ExceptT.bindCont (MemoryService.sweepGone (first :: rest) token))) s tr x s' := h
  obtain ⟨tr₁, t, t', r, tr₂, rfl, hbefore, hserves, hrest⟩ := hcall.first
  have hread : t' = t := hserves.effect.eq_of_reads trivial
  have hbefore' : Own tr₁ fun _ _ => False := .of_none hbefore
  have hsplit : ∀ {Q : List (Moment Call Service) → Moment Call Service → Prop},
      (∀ past m, ¬m.call.isSome → Q past m) → Q tr₁ ⟨some (.vectors (.existingHashes (first :: rest))), t, t'⟩ →
      (Traced tr₂ fun past m => Q (tr₁ ++ ⟨some (.vectors (.existingHashes (first :: rest))), t, t'⟩ :: past) m) →
      Traced (tr₁ ++ ⟨some (.vectors (.existingHashes (first :: rest))), t, t'⟩ :: tr₂) Q := by
    intro Q hnone hfirst htail
    refine .append (.of_own hbefore' fun past m hm => hnone past m hm) (.cons ?_ htail)
    rwa [List.append_nil]
  have hcount : removed (tr₁ ++ ⟨some (.vectors (.existingHashes (first :: rest))), t, t'⟩ :: tr₂) = removed tr₂ := by
    rw [removed_append, removed_cons, removed_eq_zero (hbefore'.mono fun _ _ h => h.elim), hread]
    simp
  rw [hcount]
  cases r with
  | error e =>
    have hown : Own tr₂ fun _ _ => False := hrest.own_done
    refine ⟨?_, hsplit (fun past m hm hash hremoves => (hm hremoves.own).elim)
      (fun hash hremoves => (hremoves.after (hread ▸ hremoves.before)).elim)
      (.of_own hown fun past m hm hash hremoves => (hm hremoves.own).elim)⟩
    rw [removed_eq_zero (hown.mono fun _ _ h => h.elim)]
    exact Nat.zero_le _
  | ok present =>
    obtain ⟨hcard, htraced⟩ := sweepGone_run hrest
    refine ⟨hcard, hsplit (fun past m hm hash hremoves => (hm hremoves.own).elim)
      (fun hash hremoves => (hremoves.after (hread ▸ hremoves.before)).elim)
      (htraced.mono fun past m hm hash hremoves => ?_)⟩
    obtain ⟨hmem, hnot, hmark⟩ := hm hash hremoves
    exact ⟨hmem, hmark, tr₁, _, past, _, rfl, rfl, gone_of_existingHashes hserves hmem hnot⟩

/-- What a sweep removes was marked, read again without a point, and not ensured since the mark. -/
theorem sweepMissing_run {missing : List String} (hforeign : Foreign token others) {x : Except AlayaError ℕ}
    (h : Among Service.Serves others (MemoryService.sweepMissing missing token).run s tr x s') :
    Own tr (SweepMove token (· ∈ missing)) ∧ removed tr ≤ missing.length ∧
      Traced tr fun past m => ∀ hash, Removes hash m → hash ∈ missing ∧ Rechecked token hash past := by
  have hnothing : ∀ {tr : List (Moment Call Service)}, Own tr (fun _ _ => False) →
      Own tr (SweepMove token (· ∈ missing)) ∧ removed tr ≤ missing.length ∧
        Traced tr fun past m => ∀ hash, Removes hash m → hash ∈ missing ∧ Rechecked token hash past := by
    refine fun hown => ⟨hown.mono fun _ _ h => h.elim, ?_,
      .of_own hown fun _ m hm hash hremoves => (hm hremoves.own).elim⟩
    rw [removed_eq_zero (hown.mono fun _ _ h => h.elim)]
    exact Nat.zero_le _
  unfold MemoryService.sweepMissing at h
  by_cases hmissing : missing = []
  · simp only [hmissing] at h
    exact hnothing h.own_done
  rw [if_neg hmissing] at h
  have hcall : Among Service.Serves others (.call (.graph (.sweepMarkMemoryNodes missing token))
      (ExceptT.bindCont fun _ => Vectors.existingHashes missing >>= MemoryService.sweepGone missing token))
      s tr x s' := h
  obtain ⟨tr₁, u, u', r, tr₂, rfl, hbefore, hserves, hrest⟩ := hcall.first
  have hbefore' : Own tr₁ fun _ _ => False := .of_none hbefore
  -- Only the second read and the delete are left, whatever the mark was answered.
  have hmakes : (ExceptT.bindCont (fun _ => Vectors.existingHashes missing >>=
      MemoryService.sweepGone missing token) r : Program Reply (Except AlayaError ℕ)).Makes
        (Call.OfSweepMarked missing token) := by
    cases r with
    | error e => trivial
    | ok _ => exact makes_reread hmissing token
  have hmarked : SweepMove token (· ∈ missing) u u' ∧ u'.graph.nodes = u.graph.nodes := by
    cases hserves.effect with
    | quiet => exact ⟨.same, rfl⟩
    | graph => exact ⟨.marked fun hash hhash => hhash, rfl⟩
  have htail : removed tr₂ ≤ missing.length ∧ Traced tr₂ fun past m => ∀ hash, Removes hash m →
      hash ∈ missing ∧ m.before.graph.sweepMark hash = some token ∧ ∃ c m₃ d reread, past = c ++ m₃ :: d ∧
        m₃.call = some (.vectors (.existingHashes reread)) ∧ m₃.before.Gone hash := by
    cases r with
    | error e =>
      have hown : Own tr₂ fun _ _ => False := hrest.own_done
      refine ⟨?_, .of_own hown fun past m hm hash hremoves => (hm hremoves.own).elim⟩
      rw [removed_eq_zero (hown.mono fun _ _ h => h.elim)]
      exact Nat.zero_le _
    | ok _ => exact reread_run hmissing hrest
  refine ⟨?_, ?_, ?_⟩
  · refine (hbefore'.mono fun _ _ h => h.elim).append fun m hm hown => ?_
    rcases List.mem_cons.mp hm with rfl | hm
    · exact hmarked.1
    · exact hrest.own hmakes (fun _ _ _ _ hc hserves => move_of_sweepMarked hc hserves) m hm hown
  · rw [removed_append, removed_cons, removed_eq_zero (hbefore'.mono fun _ _ h => h.elim), hmarked.2]
    simpa using htail.1
  · refine .append (.of_own hbefore' fun past m hm hash hremoves => (hm hremoves.own).elim) ?_
    refine .cons (fun hash hremoves => ?_) fun past m rest htr hash hremoves => ?_
    · exact (hremoves.after (hmarked.2 ▸ hremoves.before)).elim
    · obtain ⟨hmem, hmark, c, m₃, d, reread, rfl, hcall, hgone⟩ := htail.2 past m rest htr hash hremoves
      refine ⟨hmem, tr₁, _, c, m₃, d, missing, reread, rfl, rfl, hmem, hcall, hgone, fun e he hensured => ?_⟩
      -- An ensure clears the mark, and nothing sets it again before the delete.
      obtain ⟨e₁, e₂, hsplit⟩ := List.append_of_mem he
      rw [hsplit, List.append_assoc, List.cons_append] at htr
      obtain ⟨q, hq, hcut⟩ := Among.cut (htr ▸ hrest)
      have hcleared : e.after.graph.sweepMark hash ≠ some token := by
        rw [hensured]
        exact fun h => by cases (Function.update_self ..).symm.trans h
      have hlost := unmarked_of_sweepMarked hforeign (hq _ hmakes) hcut hcleared
      exact hlost m (List.mem_append_right _ List.mem_cons_self) hmark

theorem makes_missingPoints (window : List String) : (MemoryService.missingPoints window).run.Makes Call.Reads := by
  refine Makes.seq ?_ fun present => .pure _
  cases window.filter validateContentHash with
  | nil => exact .pure []
  | cons hash hashes => exact makes_ask trivial

/-- The hashes without a point that a window is judged on. -/
theorem missingPoints_run {window : List String} {found : ℕ × List String}
    (h : Among Service.Serves others (MemoryService.missingPoints window).run s tr (.ok found) s') :
    ∀ hash ∈ found.2, (hash ∈ window ∧ validateContentHash hash = true) ∧ ∃ a m₁ b hashes, tr = a ++ m₁ :: b ∧
      m₁.call = some (.vectors (.existingHashes hashes)) ∧ m₁.before.Gone hash := by
  obtain ⟨tr₁, tr₂, present, t, rfl, hread, hrest⟩ := Among.seq_ok h
  obtain rfl := Except.ok.inj hrest.eq_of_done
  intro hash hhash
  obtain ⟨hvalid, hnot⟩ := List.mem_filter.mp hhash
  refine ⟨List.mem_filter.mp hvalid, ?_⟩
  cases hvalids : window.filter validateContentHash with
  | nil =>
    rw [hvalids] at hvalid
    cases hvalid
  | cons first rest =>
    rw [hvalids] at hread hvalid
    obtain ⟨a, u, u', b, rfl, hserves, -⟩ := Among.ask_split hread
    refine ⟨a, ⟨some (.vectors (.existingHashes (first :: rest))), u, u'⟩, b ++ tr₂, first :: rest, ?_, rfl,
      gone_of_existingHashes hserves hvalid (of_decide_eq_true hnot)⟩
    rw [List.append_assoc, List.cons_append]

/-! ### A run of a sweep -/

/-- What a part of a sweep does from `st` on, where it ended at `ended`, or failed: what it removes has a past
of `Q`. -/
structure SweepRun (token : String) (Q : String → List (Moment Call Service) → Prop) (st : Sweep)
    (ended : Option Sweep) (tr : List (Moment Call Service)) : Prop where
  moves : Own tr (SweepMove token fun hash => validateContentHash hash = true ∧ st.after < hash ∧
    ∀ e, ended = some e → hash ≤ e.after)
  count : removed tr + st.candidates ≤ (ended.map Sweep.candidates).getD graphSweepHoldFloor
  traced : Traced tr fun past m => ∀ hash, Removes hash m → Q hash past
  allowed : ∀ e, ended = some e → e.candidates ≤ graphSweepHoldFloor
  moved : ∀ e, ended = some e → st.after ≤ e.after ∧ (e.candidates = st.candidates ∨ st.after < e.after)

section

variable {Q Q' : String → List (Moment Call Service) → Prop} {st e : Sweep} {ended : Option Sweep}

/-- One part after another. -/
theorem SweepRun.append (h₁ : SweepRun token Q st (some e) tr₁) (h₂ : SweepRun token Q' e ended tr₂)
    (hQ : ∀ hash past, Q' hash past → Q hash (tr₁ ++ past)) : SweepRun token Q st ended (tr₁ ++ tr₂) where
  moves := by
    refine (h₁.moves.mono fun _ _ hmove => hmove.mono ?_).append (h₂.moves.mono fun _ _ hmove => hmove.mono ?_)
    · rintro hash ⟨hvalid, hafter, hle⟩
      exact ⟨hvalid, hafter, fun e' he' => (hle e rfl).trans (h₂.moved e' he').1⟩
    · rintro hash ⟨hvalid, hafter, hle⟩
      exact ⟨hvalid, (h₁.moved e rfl).1.trans_lt hafter, hle⟩
  count := by
    have hfirst : removed tr₁ + st.candidates ≤ e.candidates := h₁.count
    have hrest := h₂.count
    rw [removed_append]
    omega
  traced := h₁.traced.append (h₂.traced.mono fun past m hm hash hremoves => hQ hash past (hm hash hremoves))
  allowed := h₂.allowed
  moved e' he' := by
    obtain ⟨hle, hmoved⟩ := h₁.moved e rfl
    obtain ⟨hle', hmoved'⟩ := h₂.moved e' he'
    refine ⟨hle.trans hle', ?_⟩
    rcases hmoved' with heq | hlt
    · rcases hmoved with heq' | hlt'
      · exact .inl (heq.trans heq')
      · exact .inr (hlt'.trans_le hle')
    · exact .inr (hle.trans_lt hlt)

/-- A part that writes nothing. -/
theorem SweepRun.quiet (h : Own tr Service.Same) (hst : st.candidates ≤ graphSweepHoldFloor)
    (hended : ended = none ∨ ended = some st) : SweepRun token Q st ended tr where
  moves := h.mono fun t t' hsame => (show t' = t from hsame) ▸ .same
  count := by
    rw [removed_eq_zero (h.mono fun t t' hsame => (show t' = t from hsame) ▸ Finset.Subset.refl _), Nat.zero_add]
    rcases hended with rfl | rfl
    · exact hst
    · exact le_rfl
  traced := .of_own h fun past m hm hash hremoves =>
    (hremoves.after ((show m.after = m.before from hm hremoves.own) ▸ hremoves.before)).elim
  allowed e he := by
    rcases hended with rfl | rfl
    · cases he
    · exact Option.some.inj he ▸ hst
  moved e he := by
    rcases hended with rfl | rfl
    · cases he
    · obtain rfl := Option.some.inj he
      exact ⟨le_rfl, .inl rfl⟩

/-- Where nothing follows. -/
theorem SweepRun.wait (h : SweepRun token Q st ended tr₁) (hnothing : Own tr₂ fun _ _ => False) :
    SweepRun token Q st ended (tr₁ ++ tr₂) where
  moves := h.moves.append (hnothing.mono fun _ _ h => h.elim)
  count := by
    rw [removed_append, removed_eq_zero (hnothing.mono fun _ _ h => h.elim), Nat.add_zero]
    exact h.count
  traced := h.traced.append (.of_own hnothing fun past m hm hash hremoves => (hm hremoves.own).elim)
  allowed := h.allowed
  moved := h.moved

/-- Where a page left the call. -/
def pageEnd : Except AlayaError (SweepReport ⊕ Sweep) → Option Sweep
  | .ok (.inl report) => some report.state
  | .ok (.inr st) => some st
  | .error _ => none

/-- Where a call ended. -/
def sweepEnd (x : Except AlayaError SweepReport) : Option Sweep := x.toOption.map SweepReport.state

/-- A hold is at the page's start, and the allowance holds no page but after deletions. -/
def HoldsAt (st : Sweep) : SweepReport → Prop
  | .held hold st' _ _ => st' = st ∧ (hold = .callCap → 0 < st.candidates)
  | .passed .. => False

theorem judgePage_run {page : List String} {last : String} {window : ℕ × List String}
    {x : Except AlayaError (SweepReport ⊕ Sweep)} (hforeign : Foreign token others)
    (hst : st.candidates ≤ graphSweepHoldFloor) (hlast : st.after < last)
    (hwindow : ∀ hash ∈ window.2, st.after < hash ∧ validateContentHash hash = true)
    (h : Among Service.Serves others (MemoryService.judgePage token st page last window).run s tr x s') :
    SweepRun token (fun hash past => hash ∈ window.2 ∧ Rechecked token hash past) st (pageEnd x) tr ∧
      (∀ report, x = .ok (.inl report) → HoldsAt st report) ∧
      ∀ st', x = .ok (.inr st') → st'.after = last ∧ st'.scanned = st.scanned + page.length := by
  unfold MemoryService.judgePage at h
  by_cases hholds : windowHolds window.2.length window.1 = true
  · rw [if_pos hholds] at h
    obtain rfl := h.eq_of_done
    refine ⟨.quiet h.own_done hst (.inr rfl), fun report hreport => ?_, fun st' hst' => by cases hst'⟩
    obtain rfl := Sum.inl.inj (Except.ok.inj hreport)
    exact ⟨rfl, fun hcap => by cases hcap⟩
  · rw [if_neg hholds] at h
    have hfew : window.2.length ≤ graphSweepHoldFloor := by
      by_contra hmany
      exact hholds (by simp [windowHolds, not_le.mp hmany])
    by_cases hcap : graphSweepHoldFloor < st.candidates + (window.2.filter (· ≤ last)).length
    · simp only [hcap] at h
      obtain rfl := h.eq_of_done
      refine ⟨.quiet h.own_done hst (.inr rfl), fun report hreport => ?_, fun st' hst' => by cases hst'⟩
      obtain rfl := Sum.inl.inj (Except.ok.inj hreport)
      refine ⟨rfl, fun _ => ?_⟩
      have hle := List.length_filter_le (· ≤ last) window.2
      omega
    · simp only [hcap] at h
      obtain ⟨tr₁, tr₂, y, t, rfl, hmissing, hrest⟩ := Among.seq h
      obtain ⟨hmoves, hcount, htraced⟩ := sweepMissing_run hforeign hmissing
      have hnothing : Own tr₂ fun _ _ => False := by
        cases y <;> exact Among.own_done hrest
      have hend : (∀ report, x ≠ .ok (.inl report)) ∧ ∀ st', x = .ok (.inr st') → st'.after = last ∧
          st'.scanned = st.scanned + page.length ∧
          st'.candidates = st.candidates + (window.2.filter (· ≤ last)).length := by
        cases y with
        | error e =>
          obtain rfl := Among.eq_of_done hrest
          exact ⟨fun report hreport => (by cases hreport), fun st' hst' => (by cases hst')⟩
        | ok swept =>
          obtain rfl := Among.eq_of_done hrest
          refine ⟨fun report hreport => (by cases hreport), fun st' hst' => ?_⟩
          obtain rfl := Sum.inr.inj (Except.ok.inj hst')
          exact ⟨rfl, rfl, rfl⟩
      have hended : ∀ e, pageEnd x = some e → x = .ok (.inr e) := by
        intro e he
        cases x with
        | error err => cases he
        | ok y =>
          cases y with
          | inl report => exact (hend.1 report rfl).elim
          | inr st' => exact congrArg (Except.ok ∘ Sum.inr) (Option.some.inj he)
      refine ⟨⟨?_, ?_, ?_, fun e he => ?_, fun e he => ?_⟩, fun report hreport => (hend.1 report hreport).elim,
        fun st' hst' => ⟨(hend.2 st' hst').1, (hend.2 st' hst').2.1⟩⟩
      · refine (hmoves.mono fun _ _ hmove => hmove.mono fun hash hhash => ?_).append
          (hnothing.mono fun _ _ h => h.elim)
        obtain ⟨hfound, hle⟩ := List.mem_filter.mp hhash
        refine ⟨(hwindow hash hfound).2, (hwindow hash hfound).1, fun e he => ?_⟩
        rw [(hend.2 e (hended e he)).1]
        exact of_decide_eq_true hle
      · rw [removed_append, removed_eq_zero (hnothing.mono fun _ _ h => h.elim), Nat.add_zero]
        cases he : pageEnd x with
        | none => rw [Option.map_none, Option.getD_none]; omega
        | some e =>
          have hcandidates := (hend.2 e (hended e he)).2.2
          rw [Option.map_some, Option.getD_some]
          omega
      · refine htraced.append (.of_own hnothing fun past m hm hash hremoves => (hm hremoves.own).elim) |>.mono
          fun past m hm hash hremoves => ?_
        obtain ⟨hmem, hrechecked⟩ := hm hash hremoves
        exact ⟨(List.mem_filter.mp hmem).1, hrechecked⟩
      · rw [(hend.2 e (hended e he)).2.2]
        exact not_lt.mp hcap
      · rw [(hend.2 e (hended e he)).1]
        exact ⟨hlast.le, .inr hlast⟩

/-- A page, with the read of its window. -/
theorem page_run {window page : List String} {last : String} {x : Except AlayaError (SweepReport ⊕ Sweep)}
    (hforeign : Foreign token others) (hst : st.candidates ≤ graphSweepHoldFloor) (hlast : st.after < last)
    (hwindow : ∀ hash ∈ window, st.after < hash)
    (h : Among Service.Serves others (MemoryService.missingPoints window >>=
      MemoryService.judgePage token st page last).run s tr x s') :
    SweepRun token (GoneTwice token) st (pageEnd x) tr ∧
      (∀ report, x = .ok (.inl report) → HoldsAt st report) ∧
      ∀ st', x = .ok (.inr st') → st'.after = last ∧ st'.scanned = st.scanned + page.length := by
  obtain ⟨tr₁, tr₂, y, t, rfl, hread, hrest⟩ := Among.seq h
  have hreads := own_reads (makes_missingPoints window) hread
  cases y with
  | error e =>
    obtain rfl := Among.eq_of_done hrest
    exact ⟨.quiet (hreads.append (Among.own_done hrest)) hst (.inl rfl), fun report hreport => (by cases hreport),
      fun st' hst' => (by cases hst')⟩
  | ok found =>
    have hfound := missingPoints_run hread
    obtain ⟨hrun, hreport, hpage⟩ := judgePage_run hforeign hst hlast
      (fun hash hhash => ⟨hwindow hash (hfound hash hhash).1.1, (hfound hash hhash).1.2⟩) hrest
    refine ⟨SweepRun.append (.quiet hreads hst (.inr rfl)) hrun fun hash past hpast => ?_, hreport, hpage⟩
    obtain ⟨-, a, m₁, b, hashes, rfl, hcall, hgone⟩ := hfound hash hpast.1
    exact ⟨a, m₁, b ++ past, hashes, by rw [List.append_assoc, List.cons_append], hcall, hgone,
      hpast.2.prepend b⟩

/-- The nodes a page is read from lie after the cursor. -/
theorem after_of_mem_listMemoryNodes {g : Graph} {after : String} {limit : ℕ}
    (h : hash ∈ g.listMemoryNodes after limit) : after < hash := by
  have hmem := List.mem_of_mem_take h
  exact (Finset.mem_filter.mp ((Finset.mem_sort _).mp hmem)).2

/-- What the reads of a window answer. -/
theorem window_of_serves {after : String} {limit : ℕ} {window : List String}
    (h : s.Serves (.graph (.listMemoryNodes after limit)) (.ok window) s') :
    window = s.graph.listMemoryNodes after limit := by
  rcases h with h | ⟨hunsure, -⟩
  · exact (Except.ok.inj (congrArg Prod.fst h)).symm
  · exact hunsure.elim

/-- **The pages of a sweep**, by induction on how many are left. -/
theorem sweepPages_run {limit pages : ℕ} {x : Except AlayaError SweepReport} (hforeign : Foreign token others)
    (hst : st.candidates ≤ graphSweepHoldFloor)
    (h : Among Service.Serves others (MemoryService.sweepPages limit token pages st).run s tr x s') :
    SweepRun token (GoneTwice token) st (sweepEnd x) tr ∧
      ∀ e valid missing, x = .ok (.held .callCap e valid missing) → 0 < e.candidates := by
  induction pages generalizing st s tr with
  | zero =>
    obtain rfl := h.eq_of_done
    exact ⟨.quiet h.own_done hst (.inr rfl), fun e valid missing he => by cases he⟩
  | succ pages ih =>
    unfold MemoryService.sweepPages at h
    by_cases hmore : st.scanned < limit
    · rw [if_pos hmore] at h
      obtain ⟨tr₁, tr₂, y, t, rfl, hlist, hrest⟩ := Among.seq h
      have hreads : Own tr₁ Service.Same := hlist.own (P := fun c => ∃ after n, c = .graph (.listMemoryNodes after n))
        (makes_ask ⟨_, _, rfl⟩) (by
          rintro c u r u' ⟨after, n, rfl⟩ hserves
          cases hserves.effect <;> rfl)
      cases y with
      | error e =>
        obtain rfl := Among.eq_of_done hrest
        exact ⟨.quiet (hreads.append (Among.own_done hrest)) hst (.inl rfl), fun e valid missing he => (by cases he)⟩
      | ok window =>
        obtain ⟨u, u', -, hserves⟩ := hlist.ask
        obtain rfl : window = u.graph.listMemoryNodes st.after graphSweepPage := window_of_serves hserves
        simp only [Among.After, MemoryService.sweepPage] at hrest
        split at hrest
        · obtain rfl := Among.eq_of_done hrest
          exact ⟨.quiet (hreads.append (Among.own_done hrest)) hst (.inr rfl), fun e valid missing he => (by cases he)⟩
        · next last hlast =>
          have hmem := List.mem_of_mem_take (List.mem_of_getLast? hlast)
          obtain ⟨tr₂, tr₃, z, v, rfl, hpage, hrest⟩ := Among.seq hrest
          obtain ⟨hrun, hheld, hpassed⟩ := page_run hforeign hst (after_of_mem_listMemoryNodes hmem)
            (fun hash hhash => after_of_mem_listMemoryNodes hhash) hpage
          suffices hpages : SweepRun token (GoneTwice token) st (sweepEnd x) (tr₂ ++ tr₃) ∧
              ∀ e valid missing, x = .ok (.held .callCap e valid missing) → 0 < e.candidates from
            ⟨SweepRun.append (.quiet hreads hst (.inr rfl)) hpages.1 fun hash past hpast => hpast.prepend tr₁,
              hpages.2⟩
          cases z with
          | error e =>
            obtain rfl := Among.eq_of_done hrest
            exact ⟨hrun.wait (Among.own_done hrest), fun e valid missing he => (by cases he)⟩
          | ok z =>
            cases z with
            | inl report =>
              obtain rfl := Among.eq_of_done hrest
              refine ⟨hrun.wait (Among.own_done hrest), fun e valid missing he => ?_⟩
              obtain rfl := Except.ok.inj he
              obtain ⟨rfl, hcap⟩ := hheld _ rfl
              exact hcap rfl
            | inr st' =>
              simp only [Among.After] at hrest
              split at hrest
              · obtain rfl := Among.eq_of_done hrest
                exact ⟨hrun.wait (Among.own_done hrest), fun e valid missing he => (by cases he)⟩
              · obtain ⟨hrest, hcap⟩ := ih (hrun.allowed st' rfl) hrest
                exact ⟨hrun.append hrest fun hash past hpast => hpast.prepend tr₂, hcap⟩
    · rw [if_neg hmore] at h
      obtain rfl := h.eq_of_done
      exact ⟨.quiet h.own_done hst (.inr rfl), fun e valid missing he => by cases he⟩

theorem sweep_run {after : String} {limit : ℕ} {x : Except AlayaError SweepReport} (hforeign : Foreign token others)
    (h : Among Service.Serves others (MemoryService.sweepGoneMemoryNodes after limit token).run s tr x s') :
    SweepRun token (GoneTwice token) ⟨after, 0, 0, 0, 0⟩ (sweepEnd x) tr ∧
      ∀ e valid missing, x = .ok (.held .callCap e valid missing) → 0 < e.candidates := by
  unfold MemoryService.sweepGoneMemoryNodes at h
  have hrest := Among.check h
  cases hchecked : MemoryService.sweepChecked limit token with
  | error e =>
    rw [hchecked] at hrest
    obtain rfl := Among.eq_of_done hrest
    exact ⟨.quiet (Among.own_done hrest) (Nat.zero_le _) (.inl rfl), fun e valid missing he => by cases he⟩
  | ok _ =>
    rw [hchecked] at hrest
    exact sweepPages_run hforeign (Nat.zero_le _) hrest

end

/-- **A sweep removes only the nodes of memories that are gone.**  Whatever runs beside it and whichever of its calls
fail: a node that it removes has a valid hash after its cursor, its memory had no point at two reads, the node was
marked between them, and nothing has ensured it since the mark. -/
theorem sweep_removes_gone {after : String} {limit : ℕ} {x : Except AlayaError SweepReport}
    (hforeign : Foreign token others)
    (h : Among Service.Serves others (MemoryService.sweepGoneMemoryNodes after limit token).run s tr x s') :
    Traced tr fun past m => ∀ hash, Removes hash m →
      validateContentHash hash = true ∧ after < hash ∧ GoneTwice token hash past := by
  have hrun := (sweep_run hforeign h).1
  rintro past m rest rfl hash hremoves
  have hmove := hrun.moves m (List.mem_append_right _ List.mem_cons_self) hremoves.own
  have hplace : validateContentHash hash = true ∧ after < hash := by
    have hbefore := hremoves.before
    have hafter := hremoves.after
    generalize m.before = t at hmove hbefore
    generalize m.after = t' at hmove hafter
    cases hmove with
    | same => exact (hafter hbefore).elim
    | marked _ => exact (hafter hbefore).elim
    | @deleted gone hgone =>
      have hmem : hash ∈ gone := by
        by_contra hnot
        exact hafter (Finset.mem_sdiff.mpr ⟨hbefore, hnot⟩)
      exact ⟨(hgone hash hmem).1, (hgone hash hmem).2.1⟩
  exact ⟨hplace.1, hplace.2, hrun.traced past m rest rfl hash hremoves⟩

/-- A node that is gone at the end of a run nobody disturbs was removed at some moment of it. -/
theorem exists_removes {α : Type} {p : Program Reply α} {a : α} (h : Among Service.Serves Nobody p s tr a s')
    (hbefore : hash ∈ s.graph.nodes) (hafter : hash ∉ s'.graph.nodes) :
    ∃ past m rest, tr = past ++ m :: rest ∧ Removes hash m := by
  induction h with
  | done => exact (hafter hbefore).elim
  | @call c next s s₁ s' r tr a _ _ ih =>
    by_cases hleft : hash ∈ s₁.graph.nodes
    · obtain ⟨past, m, rest, rfl, hremoves⟩ := ih hleft hafter
      exact ⟨_ :: past, m, rest, rfl, hremoves⟩
    · exact ⟨[], _, tr, rfl, rfl, hbefore, hleft⟩
  | other hothers _ _ => exact hothers.elim

/-- The stray node is removed after two reads without its point. -/
theorem sweep_removes_gone_strayed : ∃ tr s', Among Service.Serves Nobody
    (MemoryService.sweepGoneMemoryNodes "" 3 "run").run strayed tr (.ok (.passed ⟨thirdHash, 3, 1, 0, 1⟩ false)) s' ∧
      ∃ past m rest, tr = past ++ m :: rest ∧ Removes thirdHash m ∧ GoneTwice "run" thirdHash past := by
  obtain ⟨s', hresult, hnodes⟩ := run_strayed
  obtain ⟨tr, hrun⟩ := run_alone (MemoryService.sweepGoneMemoryNodes "" 3 "run").run strayed
  rw [hresult] at hrun
  have hbefore : thirdHash ∈ strayed.graph.nodes := by decide +kernel
  have hafter : thirdHash ∉ s'.graph.nodes := by
    rw [hnodes]
    decide +kernel
  obtain ⟨past, m, rest, htr, hremoves⟩ := exists_removes hrun hbefore hafter
  refine ⟨tr, s', hrun, past, m, rest, htr, hremoves, ?_⟩
  exact (sweep_removes_gone (fun _ _ _ h => h.elim) hrun past m rest htr thirdHash hremoves).2.2

/-- **What a sweep call may write.**  Whatever runs beside it and whichever of its calls fail: it never writes to the
vector store, it marks and deletes only nodes with a valid hash between its first cursor and the one it answers, so
nothing on a held page, and it deletes at most `graphSweepHoldFloor` nodes.  The allowance never holds it at its first
cursor, so a call resumed from there gets past that page. -/
theorem sweep_bounded {after : String} {limit : ℕ} {x : Except AlayaError SweepReport} (hforeign : Foreign token others)
    (h : Among Service.Serves others (MemoryService.sweepGoneMemoryNodes after limit token).run s tr x s') :
    Own tr (SweepMove token fun hash => validateContentHash hash = true ∧ after < hash ∧
        ∀ report, x = .ok report → hash ≤ report.state.after) ∧
      removed tr ≤ graphSweepHoldFloor ∧
      ∀ report, x = .ok report → after ≤ report.state.after ∧
        ∀ e valid missing, report = .held .callCap e valid missing → after < e.after := by
  obtain ⟨hrun, hcap⟩ := sweep_run hforeign h
  refine ⟨hrun.moves.mono fun _ _ hmove => hmove.mono fun hash hhash => ⟨hhash.1, hhash.2.1, ?_⟩, ?_, ?_⟩
  · rintro report rfl
    exact hhash.2.2 report.state rfl
  · have hcount := hrun.count
    cases hended : sweepEnd x with
    | none =>
      rw [hended] at hcount
      exact hcount
    | some e =>
      rw [hended] at hcount
      exact le_trans hcount (hrun.allowed e hended)
  · rintro report rfl
    obtain ⟨hle, hmoved⟩ := hrun.moved report.state rfl
    refine ⟨hle, ?_⟩
    rintro e valid missing rfl
    refine hmoved.resolve_left fun hsame => ?_
    exact absurd hsame (hcap e valid missing rfl).ne'

/-- The call that removed one node may have removed two more. -/
theorem sweep_bounded_strayed : ∃ tr s', Among Service.Serves Nobody
    (MemoryService.sweepGoneMemoryNodes "" 3 "run").run strayed tr (.ok (.passed ⟨thirdHash, 3, 1, 0, 1⟩ false)) s' ∧
      removed tr ≤ 3 := by
  obtain ⟨s', hresult, -⟩ := run_strayed
  obtain ⟨tr, hrun⟩ := run_alone (MemoryService.sweepGoneMemoryNodes "" 3 "run").run strayed
  rw [hresult] at hrun
  exact ⟨tr, s', hrun, (sweep_bounded (fun _ _ _ h => h.elim) hrun).2.1⟩

end

end Alaya
