import Mathlib.Algebra.BigOperators.Group.List.Lemmas
import Mathlib.Algebra.Order.BigOperators.Group.List
import Mathlib.Algebra.Order.Ring.Nat
import Mathlib.Data.Nat.Cast.Basic
import Mathlib.Data.List.Dedup

/-!
# Windows of time

A limiter counts what it lets through since the start of its window, and starts another window once the last is over.  A
log names for each thing let through the start of its window and its time, the newest first.  When windows start at
least `d` apart and none lets through more than `m`, a time of length `span` sees at most `m * (span / d + 2)`
(`count_le`), wherever the windows start in it.
-/

namespace Windows

/-- The first of times that lie apart is the latest. -/
theorem le_headD_of_apart {times : List ℕ} {d seed : ℕ} (h : times.Pairwise fun t t' => t' + d ≤ t) :
    ∀ t ∈ times, t ≤ times.headD seed := by
  cases times with
  | nil => exact fun _ h => absurd h List.not_mem_nil
  | cons t times =>
    intro t' ht'
    rcases List.mem_cons.mp ht' with rfl | ht'
    · exact le_rfl
    · exact (Nat.le_add_right _ _).trans (List.rel_of_pairwise_cons h ht')

/-- Times a distance apart between two ends are few. -/
theorem length_of_apart {times : List ℕ} {d lo hi : ℕ} (hapart : times.Pairwise fun t t' => t' + d ≤ t)
    (hwithin : ∀ t ∈ times, lo ≤ t ∧ t ≤ hi) (hne : times ≠ []) : (times.length - 1) * d ≤ hi - lo := by
  induction times generalizing hi with
  | nil => exact absurd rfl hne
  | cons t times ih =>
    cases times with
    | nil => simp
    | cons t' times =>
      obtain ⟨hfirst, hrest⟩ := List.pairwise_cons.mp hapart
      have hgap : t' + d ≤ t := hfirst t' List.mem_cons_self
      have hin := hwithin t List.mem_cons_self
      have hin' := hwithin t' (List.mem_cons_of_mem _ List.mem_cons_self)
      have hle : ∀ s ∈ t' :: times, lo ≤ s ∧ s ≤ t' := by
        intro s hs
        have hlast : s ≤ (t' :: times).headD 0 := le_headD_of_apart hrest s hs
        exact ⟨(hwithin s (List.mem_cons_of_mem _ hs)).1, hlast⟩
      have hrec := ih hrest hle (List.cons_ne_nil _ _)
      rw [List.length_cons, Nat.add_sub_cancel] at hrec ⊢
      rw [List.length_cons, Nat.succ_mul]
      omega

section

variable {log : List (ℕ × ℕ)} {d m : ℕ}

/-- A log of windows: a newer entry is of the same window, or of one that started `d` later and after the older entry. -/
structure Spaced (d : ℕ) (log : List (ℕ × ℕ)) : Prop where
  within : ∀ e ∈ log, e.1 ≤ e.2
  apart : log.Pairwise fun newer older => newer.1 = older.1 ∨ older.1 + d ≤ newer.1 ∧ older.2 ≤ newer.1

/-- The windows of a log, each once, the newest first. -/
def starts (log : List (ℕ × ℕ)) : List ℕ := (log.map Prod.fst).dedup

theorem starts_apart (h : Spaced d log) : (starts log).Pairwise fun t t' => t' + d ≤ t := by
  have hweak : (log.map Prod.fst).Pairwise fun t t' => t = t' ∨ t' + d ≤ t :=
    List.pairwise_map.mpr (h.apart.imp fun hab => hab.imp_right And.left)
  have hstarts := hweak.sublist (List.dedup_sublist _)
  exact (hstarts.and (List.nodup_dedup _)).imp fun ⟨hor, hne⟩ => hor.resolve_left hne

/-- As many entries as the windows hold. -/
theorem length_le_starts (hfew : ∀ s, (log.filter fun e => e.1 = s).length ≤ m) :
    log.length ≤ m * (starts log).length := by
  have hcount : ∀ s, (log.map Prod.fst).count s ≤ m := by
    intro s
    rw [List.count_eq_countP, List.countP_map, List.countP_eq_length_filter]
    exact le_of_eq_of_le (by congr 2) (hfew s)
  have hlength := List.sum_map_count_dedup_eq_length (log.map Prod.fst)
  rw [List.length_map] at hlength
  calc log.length = (((log.map Prod.fst).dedup.map fun s => (log.map Prod.fst).count s)).sum := hlength.symm
    _ ≤ ((log.map Prod.fst).dedup.map fun s => (log.map Prod.fst).count s).length • m :=
      List.sum_le_card_nsmul _ _ fun n hn => by
        obtain ⟨s, -, rfl⟩ := List.mem_map.mp hn
        exact hcount s
    _ = m * (starts log).length := by rw [List.length_map, nsmul_eq_mul, Nat.cast_id, Nat.mul_comm, starts]

/-- What an older window let through was before the start of a newer one. -/
theorem Spaced.before (h : Spaced d log) {e f : ℕ × ℕ} (he : e ∈ log) (hf : f ∈ log) (hlt : f.1 < e.1) : f.2 ≤ e.1 := by
  have hboth : log.Pairwise fun a b => (b.1 < a.1 → b.2 ≤ a.1) ∧ (a.1 < b.1 → a.2 ≤ b.1) := by
    refine h.apart.imp fun {a b} hab => ⟨fun hba => ?_, fun hba => ?_⟩
    · rcases hab with heq | ⟨-, hle⟩
      · omega
      · exact hle
    · rcases hab with heq | ⟨hle, -⟩ <;> omega
  have : Std.Symm fun a b : ℕ × ℕ => (b.1 < a.1 → b.2 ≤ a.1) ∧ (a.1 < b.1 → a.2 ≤ b.1) := ⟨fun _ _ => And.symm⟩
  have hself : ∀ a ∈ log, (a.1 < a.1 → a.2 ≤ a.1) ∧ (a.1 < a.1 → a.2 ≤ a.1) := fun a _ =>
    ⟨fun hlt => absurd hlt (lt_irrefl _), fun hlt => absurd hlt (lt_irrefl _)⟩
  exact (hboth.forall_of_forall hself he hf).1 hlt

theorem Spaced.filter (h : Spaced d log) (p : ℕ × ℕ → Bool) : Spaced d (log.filter p) :=
  ⟨fun e he => h.within e (List.mem_of_mem_filter he), h.apart.sublist List.filter_sublist⟩

/-- **What a limiter lets through in a time.** -/
theorem count_le (h : Spaced d log) (hd : 0 < d) (hfew : ∀ s, (log.filter fun e => e.1 = s).length ≤ m) (t span : ℕ) :
    (log.filter fun e => t ≤ e.2 ∧ e.2 ≤ t + span).length ≤ m * (span / d + 2) := by
  set log' := log.filter fun e => t ≤ e.2 ∧ e.2 ≤ t + span with hlog'
  have h' : Spaced d log' := h.filter _
  have hfew' : ∀ s, (log'.filter fun e => e.1 = s).length ≤ m := fun s =>
    ((List.filter_sublist (p := _) (l := log)).filter _).length_le.trans (hfew s)
  refine (length_le_starts hfew').trans (Nat.mul_le_mul_left m ?_)
  have hapart := starts_apart h'
  have hstart : ∀ s ∈ starts log', ∃ e ∈ log', e.1 = s := fun s hs => List.mem_map.mp (List.mem_dedup.mp hs)
  have htime : ∀ e ∈ log', t ≤ e.2 ∧ e.2 ≤ t + span := fun e he => of_decide_eq_true (List.mem_filter.mp he).2
  rcases List.eq_nil_or_concat (starts log') with hnil | ⟨newer, oldest, hlast⟩
  · rw [hnil]
    exact Nat.zero_le _
  rw [List.concat_eq_append] at hlast
  rw [hlast] at hapart hstart
  rw [hlast, List.length_append, List.length_singleton]
  -- All windows but the oldest start in the time: what the oldest let through in it came before them.
  have hwithin : ∀ s ∈ newer, t ≤ s ∧ s ≤ t + span := by
    intro s hs
    obtain ⟨e, he, rfl⟩ := hstart s (List.mem_append_left _ hs)
    obtain ⟨f, hf, rfl⟩ := hstart oldest (List.mem_append_right _ List.mem_cons_self)
    have hlater := (List.pairwise_append.mp hapart).2.2 e.1 hs f.1 List.mem_cons_self
    exact ⟨(htime f hf).1.trans (h'.before he hf (by omega)), (h'.within e he).trans (htime e he).2⟩
  by_cases hne : newer = []
  · rw [hne, List.length_nil]
    exact Nat.le_add_left 1 (span / d + 1)
  · have hmul := length_of_apart (List.pairwise_append.mp hapart).1 hwithin hne
    have hdiv := (Nat.le_div_iff_mul_le hd).mpr (hmul.trans (by omega : t + span - t ≤ span))
    omega

end

end Windows
