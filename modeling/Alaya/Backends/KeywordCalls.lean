import Alaya.Backends.KeywordFill
import Mathlib.Algebra.Order.BigOperators.Group.List
import Mathlib.Algebra.Order.Group.Nat
import Mathlib.Data.Finset.Sort
import Mathlib.Data.Fintype.Basic
import Mathlib.Order.Interval.Finset.Fin

/-!
# What the keyword backfill comes to

What a call makes of the collection, how many exchanges it takes, and what calls one after another leave to be
filled.
-/

namespace Alaya

open Labelled Collection

variable {ι : Type} [LinearOrder ι]

/-! ### What a call leaves alone -/

/-- Everything of a collection but the keyword vectors. -/
def visible (c : Collection ι) (id : ι) : Option (Payload × List ℚ) := (c id).map fun p => (p.payload, p.dense)

/-- What the others make of it; a request of the call makes nothing of it. -/
def replay (v : ι → Option (Payload × List ℚ)) : FillEvent ι → ι → Option (Payload × List ℚ)
  | .deleted id => Function.update v id none
  | .stored id payload dense _ => Function.update v id (some (payload, dense))
  | .scrolled | .wrote _ | .failed _ => v

theorem visible_other {c c' : Collection ι} {e : FillEvent ι} (h : OtherStep c e c') :
    visible c' = replay (visible c) e := by
  have hupdate : ∀ id p, visible (Function.update c id p) =
      Function.update (visible c) id (p.map fun p => (p.payload, p.dense)) := by
    intro id p
    funext id'
    unfold visible
    by_cases heq : id' = id
    · rw [heq, Function.update_self, Function.update_self]
    · rw [Function.update_of_ne heq, Function.update_of_ne heq]
  cases h with
  | deleted id => exact hupdate id none
  | stored id payload dense content => exact hupdate id _

theorem visible_step {limit : ℕ} {w w' : FillWorld ι} {e : FillEvent ι} (h : FillWorld.Step limit w e w') :
    visible w'.collection = replay (visible w.collection) e := by
  cases h with
  | scrolled _ | scrollFails _ | skipped _ => rfl
  | wrote _ | gone _ | writeFails _ _ | retried _ | retryFails _ _ =>
    exact funext fun id => visible_setKeywords _ id
  | other phase he => exact visible_other he

/-- **The payloads, the other vectors and which points there are: all that is the others' doing.** -/
theorem visible_run {limit : ℕ} {w₀ w : FillWorld ι} {tr : List (FillEvent ι)}
    (h : Run (FillWorld.Step limit) w₀ tr w) : visible w.collection = tr.foldl replay (visible w₀.collection) := by
  refine h.invariant (fun tr w => visible w.collection = tr.foldl replay (visible w₀.collection)) rfl ?_
  intro tr s e s' _ hvisible hstep
  rw [List.foldl_append, ← hvisible]
  exact visible_step hstep

/-! ### A call ends -/

/-- A point without a keyword vector. -/
def Collection.Lacks (c : Collection ι) (id : ι) : Prop := ∃ p, c id = some p ∧ p.keyword = none

omit [LinearOrder ι] in
theorem Collection.lacks_iff {c : Collection ι} {id : ι} :
    c.Lacks id ↔ (c id).any (fun p => p.keyword.isNone) = true := by
  unfold Lacks
  cases c id with
  | none => simp
  | some p => simp [Option.isNone_iff_eq_none]

omit [LinearOrder ι] in
theorem Collection.fillable_iff {c : Collection ι} {id : ι} :
    Fillable c id ↔ (c id).any (fun p => p.keyword.isNone && p.content.isSome) = true := by
  unfold Fillable
  cases c id with
  | none => simp
  | some p => simp [Option.isNone_iff_eq_none, Option.isSome_iff_ne_none]

instance (c : Collection ι) (id : ι) : Decidable (c.Lacks id) := decidable_of_iff _ Collection.lacks_iff.symm

instance (c : Collection ι) (id : ι) : Decidable (Fillable c id) := decidable_of_iff _ Collection.fillable_iff.symm

theorem Collection.Lacks.of_setKeywords {c : Collection ι} {points : List (ι × String)} {id : ι}
    (h : (setKeywords points c).Lacks id) : c.Lacks id := by
  obtain ⟨p, hp, hkeyword⟩ := h
  obtain ⟨q, hq, rfl⟩ := Option.map_eq_some_iff.mp hp
  refine ⟨q, hq, ?_⟩
  split at hkeyword
  · cases hkeyword
  · exact hkeyword

theorem Collection.Lacks.of_other {c c' : Collection ι} {e : FillEvent ι} {id : ι} (h : OtherStep c e c')
    (hid : c'.Lacks id) : c.Lacks id := by
  obtain ⟨p, hp, hkeyword⟩ := hid
  cases h with
  | deleted gone =>
    by_cases heq : id = gone
    · rw [heq, Function.update_self] at hp
      cases hp
    · exact ⟨p, by rwa [Function.update_of_ne heq] at hp, hkeyword⟩
  | stored new payload dense content =>
    by_cases heq : id = new
    · rw [heq, Function.update_self] at hp
      obtain rfl := Option.some.inj hp
      cases hkeyword
    · exact ⟨p, by rwa [Function.update_of_ne heq] at hp, hkeyword⟩

section

variable [Fintype ι]

/-- The points without a keyword vector from an offset on. -/
def lackingFrom (c : Collection ι) (offset : Option ι) : Finset ι :=
  Finset.univ.filter fun id => c.Lacks id ∧ ∀ o ∈ offset, o ≤ id

theorem mem_lackingFrom {c : Collection ι} {offset : Option ι} {id : ι} :
    id ∈ lackingFrom c offset ↔ c.Lacks id ∧ ∀ o ∈ offset, o ≤ id := by
  simp [lackingFrom]

theorem lackingFrom_mono {c c' : Collection ι} (h : ∀ id, c'.Lacks id → c.Lacks id) (offset : Option ι) :
    (lackingFrom c' offset).card ≤ (lackingFrom c offset).card := by
  refine Finset.card_le_card fun id hid => ?_
  obtain ⟨hlacks, hfrom⟩ := mem_lackingFrom.mp hid
  exact mem_lackingFrom.mpr ⟨h id hlacks, hfrom⟩

/-- The exchanges for a page: the scroll, the write, and a write for each of its points. -/
def pageCost : ℕ := keywordFillBatch + 2

/-- The exchanges after a page. -/
def restCost (c : Collection ι) (next : Option ι) : ℕ :=
  next.elim 0 fun n => pageCost * (lackingFrom c (some n)).card + 1

/-- The exchanges a call still takes, at most. -/
def cost (w : FillWorld ι) : ℕ :=
  match w.phase with
  | .scrolling offset _ => pageCost * (lackingFrom w.collection offset).card + 1
  | .writing points next _ => 1 + points.length + restCost w.collection next
  | .retrying left next _ => left.length + restCost w.collection next
  | .returned _ => 0

theorem restCost_mono {c c' : Collection ι} (h : ∀ id, c'.Lacks id → c.Lacks id) (next : Option ι) :
    restCost c' next ≤ restCost c next := by
  cases next with
  | none => exact le_rfl
  | some n => exact Nat.succ_le_succ (Nat.mul_le_mul_left _ (lackingFrom_mono h _))

theorem cost_mono {c c' : Collection ι} (h : ∀ id, c'.Lacks id → c.Lacks id) (phase : FillPhase ι) :
    cost ⟨c', phase⟩ ≤ cost ⟨c, phase⟩ := by
  cases phase with
  | scrolling offset n => exact Nat.succ_le_succ (Nat.mul_le_mul_left _ (lackingFrom_mono h _))
  | writing points next n => exact Nat.add_le_add_left (restCost_mono h _) _
  | retrying left next n => exact Nat.add_le_add_left (restCost_mono h _) _
  | returned result => exact le_rfl

theorem cost_advance (limit n : ℕ) (c : Collection ι) (next : Option ι) :
    cost ⟨c, FillPhase.advance limit n next⟩ ≤ restCost c next := by
  unfold FillPhase.advance
  cases next with
  | none => exact le_rfl
  | some m =>
    dsimp only
    split
    · exact le_rfl
    · exact Nat.zero_le _

theorem cost_afterRetry (limit n : ℕ) (c : Collection ι) (left : List (ι × String)) (next : Option ι) :
    cost ⟨c, FillPhase.afterRetry limit n left next⟩ ≤ left.length + restCost c next := by
  unfold FillPhase.afterRetry
  split
  · exact (cost_advance limit n c next).trans (Nat.le_add_left _ _)
  · exact le_rfl

/-- What follows a page that is not the last, or has a point, is less than what followed its offset. -/
theorem restCost_page {c : Collection ι} {offset next : Option ι} {limit : ℕ} {page : List (ι × StoredPoint)}
    (h : LackingPage c offset limit page next) (hlimit : 0 < limit) (hpage : page ≠ [] ∨ next ≠ none) :
    keywordFillBatch + 2 + restCost c next ≤ pageCost * (lackingFrom c offset).card + 1 := by
  have hnonempty : page ≠ [] := by
    rcases hpage with hpage | hnext
    · exact hpage
    · obtain ⟨n, hn⟩ := Option.ne_none_iff_exists'.mp hnext
      exact List.ne_nil_of_length_pos ((h.more n hn).1 ▸ hlimit)
  obtain ⟨x, hx⟩ := List.exists_mem_of_ne_nil page hnonempty
  obtain ⟨hthere, hkeyword, hfrom⟩ := h.found x hx
  have hmem : x.1 ∈ lackingFrom c offset := mem_lackingFrom.mpr ⟨⟨x.2, hthere, hkeyword⟩, hfrom⟩
  have hpos : 0 < (lackingFrom c offset).card := Finset.card_pos.mpr ⟨x.1, hmem⟩
  cases next with
  | none =>
    show keywordFillBatch + 2 + 0 ≤ pageCost * (lackingFrom c offset).card + 1
    have hle := Nat.mul_le_mul_left pageCost hpos
    unfold pageCost keywordFillBatch at *
    omega
  | some n =>
    have hlt : (lackingFrom c (some n)).card < (lackingFrom c offset).card := by
      refine Finset.card_lt_card (Finset.ssubset_iff_of_subset (fun id hid => ?_) |>.mpr ⟨x.1, hmem, fun hn => ?_⟩)
      · obtain ⟨hlacks, hafter⟩ := mem_lackingFrom.mp hid
        refine mem_lackingFrom.mpr ⟨hlacks, fun o ho => ?_⟩
        exact (hfrom o ho).trans (((h.more n rfl).2 x hx).le.trans (hafter n rfl))
      · exact absurd ((mem_lackingFrom.mp hn).2 n rfl) (not_le.mpr ((h.more n rfl).2 x hx))
    have hle := Nat.mul_le_mul_left pageCost hlt
    show keywordFillBatch + 2 + (pageCost * (lackingFrom c (some n)).card + 1) ≤ _
    unfold pageCost keywordFillBatch at *
    omega

omit [Fintype ι] in
theorem lacks_step {limit : ℕ} {w w' : FillWorld ι} {e : FillEvent ι} (h : FillWorld.Step limit w e w') {id : ι}
    (hid : w'.collection.Lacks id) : w.collection.Lacks id := by
  cases h with
  | scrolled _ | scrollFails _ | skipped _ => exact hid
  | wrote _ | gone _ | writeFails _ _ | retried _ | retryFails _ _ => exact hid.of_setKeywords
  | other phase he => exact hid.of_other he

/-- **An exchange of the call lowers what it still takes, and nothing the others do raises it.** -/
theorem cost_step {limit : ℕ} {w w' : FillWorld ι} {e : FillEvent ι}
    (hlive : ∀ o n, w.phase = .scrolling o n → n < limit) (h : FillWorld.Step limit w e w') : cost w' + (if e.own then 1 else 0) ≤ cost w := by
  have hlacks : ∀ id, w'.collection.Lacks id → w.collection.Lacks id := fun id => lacks_step h
  cases h with
  | @scrolled c offset next n page hpage =>
    have hpositive : 0 < min keywordFillBatch (limit - n) :=
      Nat.lt_min.mpr ⟨by decide, Nat.sub_pos_of_lt (hlive offset n rfl)⟩
    have hlength := (length_documents_le page).trans (hpage.length_le.trans (Nat.min_le_left _ _))
    have hrest := restCost_page hpage hpositive
    show cost ⟨c, FillPhase.afterPage limit n (documents page) next⟩ + 1 ≤
      pageCost * (lackingFrom c offset).card + 1
    unfold FillPhase.afterPage
    by_cases hempty : documents page = []
    · rw [if_pos hempty]
      have hadvance := cost_advance limit n c next
      by_cases hnext : next = none
      · subst hnext
        exact Nat.succ_le_succ (hadvance.trans (Nat.zero_le _))
      · have hle := hrest (.inr hnext)
        omega
    · rw [if_neg hempty]
      have hpage' : page ≠ [] := by
        rintro rfl
        exact hempty rfl
      have hle := hrest (.inl hpage')
      show 1 + (documents page).length + restCost c next + 1 ≤ pageCost * (lackingFrom c offset).card + 1
      omega
  | scrollFails _ => exact Nat.succ_le_succ (Nat.zero_le _)
  | @wrote c points next n _ =>
    have hadvance := cost_advance limit (n + points.length) (setKeywords points c) next
    have hle : restCost (setKeywords points c) next ≤ restCost c next := restCost_mono hlacks next
    show _ + 1 ≤ 1 + points.length + restCost c next
    omega
  | @gone c points next n _ =>
    have hle : restCost (setKeywords points c) next ≤ restCost c next := restCost_mono hlacks next
    show points.length + restCost (setKeywords points c) next + 1 ≤ 1 + points.length + restCost c next
    omega
  | @writeFails c points some' next n err _ =>
    show 0 + 1 ≤ 1 + points.length + restCost c next
    omega
  | @retried c x left next n _ =>
    have hretry := cost_afterRetry limit (n + 1) (setKeywords [x] c) left next
    have hle : restCost (setKeywords [x] c) next ≤ restCost c next := restCost_mono hlacks next
    show _ + 1 ≤ (x :: left).length + restCost c next
    rw [List.length_cons]
    omega
  | @skipped c x left next n _ =>
    have hle := cost_afterRetry limit n c left next
    show _ + 1 ≤ (x :: left).length + restCost c next
    rw [List.length_cons]
    omega
  | @retryFails c x left some' next n err _ =>
    show 0 + 1 ≤ (x :: left).length + restCost c next
    rw [List.length_cons]
    omega
  | @other c c' e phase he =>
    have hnot : e.own = false := by cases he <;> rfl
    rw [hnot]
    exact cost_mono hlacks phase

/-- A call takes a bounded number of exchanges. -/
theorem cost_run {limit : ℕ} {c : Collection ι} {w : FillWorld ι} {tr : List (FillEvent ι)}
    (h : Run (FillWorld.Step limit) (FillWorld.start limit c) tr w) :
    tr.countP FillEvent.own + cost w ≤ pageCost * (lackingFrom c none).card + 1 := by
  refine h.invariant
    (fun tr w => tr.countP FillEvent.own + cost w ≤ pageCost * (lackingFrom c none).card + 1) ?_ ?_
  · rw [List.countP_nil, Nat.zero_add, FillWorld.start]
    split
    · exact le_rfl
    · exact Nat.zero_le _
  · intro tr s e s' hrun hle hstep
    have hlive : ∀ o n, s.phase = .scrolling o n → n < limit := by
      intro o n hphase
      have htracked := Tracked.run hrun
      unfold Tracked at htracked
      rw [hphase] at htracked
      exact htracked.1
    have hcost := cost_step hlive hstep
    rw [List.countP_append, List.countP_singleton]
    omega

/-- There is a page at every offset. -/
theorem exists_lackingPage (c : Collection ι) (offset : Option ι) (limit : ℕ) :
    ∃ page next, LackingPage c offset limit page next := by
  -- The ids of all later points, in order; a page takes the first of them.
  obtain ⟨ids, hids⟩ : ∃ ids, ids = (lackingFrom c offset).sort (· ≤ ·) := ⟨_, rfl⟩
  have hsorted : ids.Pairwise (· < ·) := hids ▸ (Finset.sortedLT_sort _).pairwise
  have hmem : ∀ id, id ∈ ids ↔ c.Lacks id ∧ ∀ o ∈ offset, o ≤ id := by
    intro id
    rw [hids, Finset.mem_sort, mem_lackingFrom]
  have hsplit : ids.take limit ++ ids.drop limit = ids := List.take_append_drop limit ids
  have hparts : (ids.take limit ++ ids.drop limit).Pairwise (· < ·) := by
    rw [hsplit]
    exact hsorted
  have hapart : ∀ a ∈ ids.take limit, ∀ b ∈ ids.drop limit, a < b := (List.pairwise_append.mp hparts).2.2
  have hfst : ((ids.take limit).map fun id => (id, (c id).getD ⟨[], [], none⟩)).map Prod.fst =
      ids.take limit := by
    rw [List.map_map]
    exact List.map_id _
  refine ⟨(ids.take limit).map fun id => (id, (c id).getD ⟨[], [], none⟩), ids[limit]?, ?_⟩
  exact {
    sorted := by
      rw [hfst]
      exact hsorted.sublist (List.take_sublist _ _)
    found := by
      intro x hx
      obtain ⟨id, hid, rfl⟩ := List.mem_map.mp hx
      obtain ⟨⟨p, hp, hkeyword⟩, hfrom⟩ := (hmem id).mp (List.mem_of_mem_take hid)
      rw [hp, Option.getD_some]
      exact ⟨rfl, hkeyword, hfrom⟩
    length_le := by
      rw [List.length_map, List.length_take]
      exact Nat.min_le_left _ _
    complete := by
      intro id p hp hkeyword hfrom hbelow
      have hid : id ∈ ids.take limit ++ ids.drop limit := by
        rw [hsplit]
        exact (hmem id).mpr ⟨⟨p, hp, hkeyword⟩, hfrom⟩
      rcases List.mem_append.mp hid with htake | hdrop
      · exact List.mem_map.mpr ⟨id, htake, by rw [hp]; rfl⟩
      · cases hrest : ids.drop limit with
        | nil => rw [hrest] at hdrop; cases hdrop
        | cons n rest =>
          have hnext : ids[limit]? = some n := by rw [← List.head?_drop, hrest]; rfl
          have hpairs : (n :: rest).Pairwise (· < ·) := hrest ▸ hsorted.sublist (List.drop_sublist _ _)
          rcases List.mem_cons.mp (hrest ▸ hdrop) with rfl | hlater
          · exact absurd (hbelow id hnext) (lt_irrefl id)
          · exact absurd (hbelow n hnext) (not_lt.mpr ((List.pairwise_cons.mp hpairs).1 id hlater).le)
    more := by
      intro n hn
      obtain ⟨hlt, -⟩ := List.getElem?_eq_some_iff.mp hn
      refine ⟨?_, fun x hx => ?_⟩
      · rw [List.length_map, List.length_take]
        exact Nat.min_eq_left hlt.le
      · obtain ⟨id, hid, rfl⟩ := List.mem_map.mp hx
        have hhead : n ∈ ids.drop limit := List.mem_of_mem_head? (by rw [List.head?_drop]; exact hn)
        exact hapart id hid n hhead }

/-- A call that has not returned has a request to make. -/
theorem exists_step {limit : ℕ} {c : Collection ι} {w : FillWorld ι} {tr : List (FillEvent ι)}
    (h : Run (FillWorld.Step limit) (FillWorld.start limit c) tr w)
    (hlive : ∀ result, w.phase ≠ .returned result) : ∃ e w', e.own = true ∧ FillWorld.Step limit w e w' := by
  have htracked := Tracked.run h
  obtain ⟨c, phase⟩ := w
  cases phase with
  | scrolling offset n =>
    obtain ⟨page, next, hpage⟩ := exists_lackingPage c offset (min keywordFillBatch (limit - n))
    exact ⟨.scrolled, _, rfl, .scrolled hpage⟩
  | writing points next n =>
    by_cases hpresent : ∀ x ∈ points, (c x.1).isSome
    · exact ⟨_, _, rfl, .wrote hpresent⟩
    · push Not at hpresent
      obtain ⟨x, hx, hgone⟩ := hpresent
      exact ⟨_, _, rfl, .gone ⟨x, hx, Option.not_isSome_iff_eq_none.mp hgone⟩⟩
  | retrying left next n =>
    obtain ⟨-, hleft, -⟩ := htracked
    obtain ⟨x, left, rfl⟩ := List.exists_cons_of_ne_nil hleft
    cases hx : c x.1 with
    | none => exact ⟨_, _, rfl, .skipped hx⟩
    | some p => exact ⟨_, _, rfl, .retried (Option.isSome_of_eq_some hx)⟩
  | returned result => exact absurd rfl (hlive result)

/-! ### One call after another -/

/-- The points still to be filled. -/
def toFill (c : Collection ι) : Finset ι := Finset.univ.filter fun id => Fillable c id

/-- How many points a count reports without a keyword vector. -/
def countMissingKeywordVectors (c : Collection ι) : ℕ := (Finset.univ.filter fun id => c.Lacks id).card

/-- Every memory with content has a keyword vector. -/
def Indexed (c : Collection ι) : Prop := ∀ id p, c id = some p → p.content ≠ none → p.keyword ≠ none

/-- Calls one after another, the others stepping between them too, and what those that did not fail returned. -/
inductive Calls (limit : ℕ) (c₀ : Collection ι) : List ℕ → Collection ι → Prop
  | none : Calls limit c₀ [] c₀
  | other {ns : List ℕ} {c c' : Collection ι} {e : FillEvent ι} :
      Calls limit c₀ ns c → OtherStep c e c' → Calls limit c₀ ns c'
  | call {ns : List ℕ} {c c' : Collection ι} {tr : List (FillEvent ι)} {n : ℕ} :
      Calls limit c₀ ns c →
      Run (FillWorld.Step limit) (FillWorld.start limit c) tr ⟨c', .returned (.ok n)⟩ →
      Calls limit c₀ (ns ++ [n]) c'
  | failed {ns : List ℕ} {c c' : Collection ι} {tr : List (FillEvent ι)} {e : AlayaError} :
      Calls limit c₀ ns c →
      Run (FillWorld.Step limit) (FillWorld.start limit c) tr ⟨c', .returned (.error e)⟩ →
      Calls limit c₀ ns c'

omit [LinearOrder ι] in
theorem mem_toFill {c : Collection ι} {id : ι} : id ∈ toFill c ↔ Fillable c id := by
  simp [toFill]

omit [LinearOrder ι] in
theorem indexed_iff {c : Collection ι} : Indexed c ↔ toFill c = ∅ := by
  constructor
  · intro h
    refine Finset.eq_empty_of_forall_notMem fun id hid => ?_
    obtain ⟨p, hp, hkeyword, hcontent⟩ := mem_toFill.mp hid
    exact h id p hp hcontent hkeyword
  · intro h id p hp hcontent hkeyword
    have hmem : id ∈ toFill c := mem_toFill.mpr ⟨p, hp, hkeyword, hcontent⟩
    rw [h] at hmem
    exact absurd hmem (Finset.notMem_empty id)

omit [LinearOrder ι] in
theorem indexed_of_missing {c : Collection ι} (h : countMissingKeywordVectors c = 0) : Indexed c := by
  intro id p hp _ hkeyword
  have hmem : id ∈ Finset.univ.filter fun id => c.Lacks id :=
    Finset.mem_filter.mpr ⟨Finset.mem_univ id, p, hp, hkeyword⟩
  rw [Finset.card_eq_zero.mp h] at hmem
  exact absurd hmem (Finset.notMem_empty id)

omit [LinearOrder ι] in
theorem toFill_subset {c c' : Collection ι} (h : ∀ id, Fillable c' id → Fillable c id) :
    toFill c' ⊆ toFill c := by
  intro id hid
  exact mem_toFill.mpr (h id (mem_toFill.mp hid))

/-- A call fills what it counts, and all there is when it counts less than its limit. -/
theorem toFill_call {limit n : ℕ} {c c' : Collection ι} {tr : List (FillEvent ι)}
    (h : Run (FillWorld.Step limit) (FillWorld.start limit c) tr ⟨c', .returned (.ok n)⟩) :
    n + (toFill c').card ≤ (toFill c).card ∧ (n < limit → toFill c' = ∅) := by
  obtain ⟨-, counted, passed, hcard, hkept, hall⟩ := Tracked.run h
  constructor
  · have hdisjoint : Disjoint counted (toFill c') := by
      refine Finset.disjoint_left.mpr fun id hid hfill => ?_
      exact (hkept.done id hid).2.1 (mem_toFill.mp hfill)
    rw [← hcard, ← Finset.card_union_of_disjoint hdisjoint]
    refine Finset.card_le_card (Finset.union_subset (fun id hid => ?_) (toFill_subset fun id hid => ?_))
    · exact mem_toFill.mpr (hkept.done id hid).1
    · exact (hkept.ahead id hid).1
  · intro hlt
    refine Finset.eq_empty_of_forall_notMem fun id hid => ?_
    obtain ⟨-, hmem | hahead⟩ := hkept.ahead id (mem_toFill.mp hid)
    · cases hmem
    · exact hahead (hall hlt id)

theorem toFill_failed {limit : ℕ} {c c' : Collection ι} {tr : List (FillEvent ι)} {e : AlayaError}
    (h : Run (FillWorld.Step limit) (FillWorld.start limit c) tr ⟨c', .returned (.error e)⟩) :
    toFill c' ⊆ toFill c := by
  obtain ⟨counted, batch, unwritten, passed, -, hkept⟩ := Tracked.run h
  exact toFill_subset fun id hid => (hkept.ahead id hid).1

/-- **Every call counts points that were to be filled, each once, and one that counts less than its limit
leaves none.** -/
theorem toFill_calls {limit : ℕ} {c₀ c : Collection ι} {ns : List ℕ} (h : Calls limit c₀ ns c) :
    ns.sum + (toFill c).card ≤ (toFill c₀).card ∧ ((∃ n ∈ ns, n < limit) → toFill c = ∅) := by
  induction h with
  | none =>
    refine ⟨by rw [List.sum_nil, Nat.zero_add], ?_⟩
    rintro ⟨n, hn, -⟩
    cases hn
  | @other ns c c' e _ he ih =>
    have hsub : toFill c' ⊆ toFill c := toFill_subset fun id hid => hid.of_other he
    refine ⟨(Nat.add_le_add_left (Finset.card_le_card hsub) _).trans ih.1, fun hn => ?_⟩
    exact Finset.subset_empty.mp (ih.2 hn ▸ hsub)
  | @call ns c c' tr n _ hrun ih =>
    obtain ⟨hcount, hlast⟩ := toFill_call hrun
    constructor
    · rw [List.sum_append, List.sum_singleton]
      omega
    · rintro ⟨m, hm, hlt⟩
      rcases List.mem_append.mp hm with hold | hnew
      · rw [ih.2 ⟨m, hold, hlt⟩, Finset.card_empty] at hcount
        exact Finset.card_eq_zero.mp (by omega)
      · obtain rfl := List.mem_singleton.mp hnew
        exact hlast hlt
  | @failed ns c c' tr e _ hrun ih =>
    have hsub := toFill_failed hrun
    refine ⟨(Nat.add_le_add_left (Finset.card_le_card hsub) _).trans ih.1, fun hn => ?_⟩
    exact Finset.subset_empty.mp (ih.2 hn ▸ hsub)

/-- More calls than there were points to be filled leave none. -/
theorem indexed_of_calls {limit : ℕ} {c₀ c : Collection ι} {ns : List ℕ} (h : Calls limit c₀ ns c)
    (hlimit : 0 < limit) (hcalls : (toFill c₀).card < ns.length) : Indexed c := by
  obtain ⟨hsum, hlast⟩ := toFill_calls h
  rw [indexed_iff]
  refine hlast ?_
  by_contra hnone
  push Not at hnone
  have hle : ns.length * limit ≤ ns.sum := List.card_nsmul_le_sum ns limit hnone
  have hone := Nat.le_mul_of_pos_right ns.length hlimit
  omega

/-- **The backfill is bounded, ends and touches nothing else.**  Whatever the others delete and store while it
runs, a call reports at most `limit` points and sets no more keyword vectors than that, those of points deleted
meanwhile not counted; every payload, every other vector and which points there are is the others' doing; it
takes a bounded number of exchanges, whatever points cannot be filled.  Repeated until a call counts less than
its limit, or a count finds nothing missing, the calls leave every memory with content a keyword vector, and
more calls than there were points to be filled always do. -/
theorem keyword_fill_bounded (limit : ℕ) (c₀ : Collection ι) :
    (∀ tr w, Run (FillWorld.Step limit) (FillWorld.start limit c₀) tr w →
      ((wroteIds tr).toFinset \ (deletedIds tr).toFinset).card ≤ limit ∧
      (∀ n, w.phase = .returned (.ok n) → n ≤ limit) ∧
      visible w.collection = tr.foldl replay (visible c₀) ∧
      tr.countP FillEvent.own ≤ pageCost * (lackingFrom c₀ none).card + 1 ∧
      ((∀ result, w.phase ≠ .returned result) → ∃ e w', e.own = true ∧ FillWorld.Step limit w e w')) ∧
    ∀ ns c, Calls limit c₀ ns c →
      ((∃ n ∈ ns, n < limit) ∨ countMissingKeywordVectors c = 0 → Indexed c) ∧
      (0 < limit → (toFill c₀).card < ns.length → Indexed c) := by
  constructor
  · intro tr w hrun
    have htracked := Tracked.run hrun
    refine ⟨htracked.card_le, fun n hn => ?_, visible_run hrun, ?_, exists_step hrun⟩
    · unfold Tracked at htracked
      rw [hn] at htracked
      exact htracked.1
    · have hcost := cost_run hrun
      omega
  · intro ns c hcalls
    refine ⟨?_, indexed_of_calls hcalls⟩
    rintro (hlast | hmissing)
    · exact indexed_iff.mpr ((toFill_calls hcalls).2 hlast)
    · exact indexed_of_missing hmissing

end

/-! ### A batch that loses two points -/

/-- The number of a UUID. -/
abbrev Uuid := Fin (2 ^ 128)

/-- A memory without a keyword vector. -/
def oldPoint : StoredPoint := ⟨[("content", .string "kept")], [], none⟩

/-- Four of them. -/
def fourOld : Collection Uuid := fun id => if id.val < 4 then some oldPoint else none

/-- Of the first page one memory is deleted before the write, the other before it is tried again. -/
def race : List (FillEvent Uuid) :=
  [.scrolled, .deleted 0, .wrote [1], .deleted 1, .wrote [], .wrote [], .scrolled, .wrote [2, 3]]

def firstTwo : List (Uuid × String) := [(0, "kept"), (1, "kept")]

/-- What is left when the first page is written. -/
def beforeWrite : Collection Uuid := Function.update fourOld 0 none

/-- What is left when its points are tried again. -/
def afterFirst : Collection Uuid := Function.update (setKeywords firstTwo beforeWrite) 1 none

theorem fourOld_of_lt {id : Uuid} (h : id.val < 4) : fourOld id = some oldPoint := if_pos h

theorem fourOld_eq_some {id : Uuid} {p : StoredPoint} (h : fourOld id = some p) : id.val < 4 ∧ p = oldPoint := by
  unfold fourOld at h
  by_cases hlt : id.val < 4
  · rw [if_pos hlt] at h
    exact ⟨hlt, (Option.some.inj h).symm⟩
  · rw [if_neg hlt] at h
    cases h

theorem firstPage : LackingPage fourOld none 2 [(0, oldPoint), (1, oldPoint)] (some 2) where
  sorted := by decide
  found := by
    intro x hx
    have hlt : x.1.val < 4 ∧ x.2 = oldPoint := by
      rcases List.mem_pair.mp hx with rfl | rfl <;> exact ⟨by decide, rfl⟩
    refine ⟨by rw [fourOld_of_lt hlt.1, hlt.2], by rw [hlt.2]; rfl, fun o ho => nomatch ho⟩
  length_le := le_rfl
  complete := by
    intro id p hp _ _ hbelow
    obtain ⟨-, rfl⟩ := fourOld_eq_some hp
    have hlt : id.val < 2 := hbelow 2 rfl
    have hcases : id = 0 ∨ id = 1 := by
      rcases Nat.lt_succ_iff_lt_or_eq.mp hlt with hzero | hone
      · exact .inl (Fin.ext (Nat.lt_one_iff.mp hzero))
      · exact .inr (Fin.ext hone)
    rcases hcases with rfl | rfl <;> simp
  more := by
    intro n hn
    obtain rfl := Option.some.inj hn
    exact ⟨rfl, by decide⟩

theorem afterFirst_of_le {id : Uuid} (h : 2 ≤ id) : afterFirst id = fourOld id := by
  have hne : id ≠ 0 ∧ id ≠ 1 := by
    constructor <;> rintro rfl <;> exact absurd h (by decide)
  unfold afterFirst
  rw [Function.update_of_ne hne.2, setKeywords, beforeWrite, Function.update_of_ne hne.1]
  have hfind : (firstTwo.find? fun x => x.1 = id) = none := by
    simp [firstTwo, Ne.symm hne.1, Ne.symm hne.2]
  rw [hfind]
  cases fourOld id <;> rfl

theorem secondPage : LackingPage afterFirst (some 2) 2 [(2, oldPoint), (3, oldPoint)] none where
  sorted := by decide
  found := by
    intro x hx
    have hlt : x.1.val < 4 ∧ 2 ≤ x.1 ∧ x.2 = oldPoint := by
      rcases List.mem_pair.mp hx with rfl | rfl <;> exact ⟨by decide, by decide, rfl⟩
    refine ⟨by rw [afterFirst_of_le hlt.2.1, fourOld_of_lt hlt.1, hlt.2.2], by rw [hlt.2.2]; rfl, fun o ho => ?_⟩
    exact Option.some.inj ho ▸ hlt.2.1
  length_le := le_rfl
  complete := by
    intro id p hp _ hfrom _
    have hle : 2 ≤ id := hfrom 2 rfl
    rw [afterFirst_of_le hle] at hp
    obtain ⟨hlt, rfl⟩ := fourOld_eq_some hp
    have hval : 2 ≤ id.val := hle
    have hcases : id = 2 ∨ id = 3 := by
      rcases Nat.lt_succ_iff_lt_or_eq.mp hlt with htwo | hthree
      · exact .inl (Fin.ext (Nat.le_antisymm (Nat.lt_succ_iff.mp htwo) hval))
      · exact .inr (Fin.ext hthree)
    rcases hcases with rfl | rfl <;> simp
  more := fun n hn => nomatch hn

theorem documents_pair (a b : Uuid) : documents [(a, oldPoint), (b, oldPoint)] = [(a, "kept"), (b, "kept")] := rfl

theorem race_run : Run (FillWorld.Step 2) (FillWorld.start 2 fourOld) race
    ⟨setKeywords [(2, "kept"), (3, "kept")] afterFirst, .returned (.ok 2)⟩ := by
  have e1 : FillWorld.Step 2 ⟨fourOld, .scrolling none 0⟩ .scrolled
      ⟨fourOld, .afterPage 2 0 (documents [(0, oldPoint), (1, oldPoint)]) (some 2)⟩ := .scrolled firstPage
  have e2 : FillWorld.Step 2 ⟨fourOld, .writing firstTwo (some 2) 0⟩ (.deleted 0)
      ⟨beforeWrite, .writing firstTwo (some 2) 0⟩ := .other _ (.deleted 0)
  have e3 : FillWorld.Step 2 ⟨beforeWrite, .writing firstTwo (some 2) 0⟩ (.wrote [1])
      ⟨setKeywords firstTwo beforeWrite, .retrying firstTwo (some 2) 0⟩ :=
    .gone ⟨(0, "kept"), List.mem_cons_self, rfl⟩
  have e4 : FillWorld.Step 2 ⟨setKeywords firstTwo beforeWrite, .retrying firstTwo (some 2) 0⟩ (.deleted 1)
      ⟨afterFirst, .retrying firstTwo (some 2) 0⟩ := .other _ (.deleted 1)
  have e5 : FillWorld.Step 2 ⟨afterFirst, .retrying firstTwo (some 2) 0⟩ (.wrote [])
      ⟨afterFirst, .retrying [(1, "kept")] (some 2) 0⟩ := .skipped rfl
  have e6 : FillWorld.Step 2 ⟨afterFirst, .retrying [(1, "kept")] (some 2) 0⟩ (.wrote [])
      ⟨afterFirst, .scrolling (some 2) 0⟩ := .skipped rfl
  have e7 : FillWorld.Step 2 ⟨afterFirst, .scrolling (some 2) 0⟩ .scrolled
      ⟨afterFirst, .afterPage 2 0 (documents [(2, oldPoint), (3, oldPoint)]) none⟩ := .scrolled secondPage
  have e8 : FillWorld.Step 2 ⟨afterFirst, .writing [(2, "kept"), (3, "kept")] none 0⟩ (.wrote [2, 3])
      ⟨setKeywords [(2, "kept"), (3, "kept")] afterFirst, .returned (.ok 2)⟩ := .wrote (by decide)
  rw [documents_pair] at e1 e7
  exact (((((((Run.start.step e1).step e2).step e3).step e4).step e5).step e6).step e7).step e8

/-- A call of limit two sets the vectors of three points: one of them in a batch that is rejected, and deleted
before it is tried again. -/
theorem keyword_fill_overshoots : ¬∀ (limit : ℕ) (c : Collection Uuid) (tr : List (FillEvent Uuid))
    (w : FillWorld Uuid), Run (FillWorld.Step limit) (FillWorld.start limit c) tr w →
      (wroteIds tr).toFinset.card ≤ limit := by
  intro h
  exact absurd (h 2 fourOld race _ race_run) (by decide)

theorem keyword_fill_bounded_race :
    ((wroteIds race).toFinset \ (deletedIds race).toFinset).card ≤ 2 ∧
      visible (setKeywords [(2, "kept"), (3, "kept")] afterFirst) = race.foldl replay (visible fourOld) := by
  obtain ⟨hcard, -, hvisible, -⟩ := (keyword_fill_bounded 2 fourOld).1 race _ race_run
  exact ⟨hcard, hvisible⟩

end Alaya
