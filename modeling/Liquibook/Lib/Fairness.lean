import Mathlib.Data.List.Basic
import Mathlib.Order.WellFounded

/-!
# Termination under a fair scheduler

A concurrent program makes a step of the process that a scheduler names, over and over.  A
scheduler is fair when it names every process again and again.  A process may well make
steps that lead nowhere, such as another round of a loop that waits, so no measure of the
state drops at every step.  What drops it is the step of one process, the helpful one: as
long as others make the steps, the measure does not rise, and the helpful process stays
the same until the measure drops.  As the scheduler names it some day, the
program comes to its end.

## Main definitions

* `Fair schedule` — every process is named again and again.
* `choices schedule n` — the first `n` choices.
* `Helps step Inv Done rank helpful` — the helpful process brings the end nearer.

## Main results

* `Helps.drop` — the measure drops some day.
* `Helps.terminates` — **every fair scheduler leads to the end.**
-/

namespace Liquibook
namespace Lib

variable {σ ι α : Type*}

/-- Every process is named again and again. -/
def Fair (schedule : ℕ → ι) : Prop := ∀ i n, ∃ m, n ≤ m ∧ schedule m = i

/-- The first `n` choices of a scheduler. -/
def choices (schedule : ℕ → ι) (n : ℕ) : List ι := (List.range n).map schedule

theorem choices_succ (schedule : ℕ → ι) (n : ℕ) :
    choices schedule (n + 1) = schedule 0 :: choices (fun k => schedule (k + 1)) n := by
  rw [choices, List.range_succ_eq_map, List.map_cons, List.map_map]
  rfl

theorem choices_add (schedule : ℕ → ι) (n m : ℕ) :
    choices schedule (n + m) = choices schedule n ++ choices (fun k => schedule (n + k)) m := by
  rw [choices, List.range_add, List.map_append, List.map_map]
  rfl

theorem Fair.shift {schedule : ℕ → ι} (h : Fair schedule) (n : ℕ) :
    Fair fun k => schedule (n + k) := by
  intro i k
  obtain ⟨m, hm, hi⟩ := h i (n + k)
  refine ⟨m - n, by omega, ?_⟩
  dsimp only
  rw [Nat.add_sub_cancel' (by omega), hi]

/-- The helpful process brings the end nearer: its step lowers the rank, and a step of any
other leaves the rank and the helpful process as they are, if it does not lower the
rank as well. -/
structure Helps [LT α] (step : σ → ι → Option σ) (Inv Done : σ → Prop) (rank : σ → α)
    (helpful : σ → ι) : Prop where
  steps : ∀ s i, Inv s → ∃ s', step s i = some s' ∧ Inv s'
  waits : ∀ s i s', Inv s → ¬ Done s → step s i = some s' →
    rank s' < rank s ∨ rank s' = rank s ∧ helpful s' = helpful s
  drops : ∀ s s', Inv s → ¬ Done s → step s (helpful s) = some s' → rank s' < rank s

namespace Helps

variable [LT α] {step : σ → ι → Option σ} {Inv Done : σ → Prop} {rank : σ → α} {helpful : σ → ι}

/-- **The rank drops some day**: at the latest when the helpful process is named. -/
theorem drop (h : Helps step Inv Done rank helpful) :
    ∀ (m : ℕ) (schedule : ℕ → ι) (s : σ), Inv s → ¬ Done s → schedule m = helpful s →
      ∃ n s', (choices schedule n).foldlM step s = some s' ∧ Inv s' ∧
        (Done s' ∨ rank s' < rank s) := by
  -- on the number of steps that are left until then
  intro m
  induction m with
  | zero =>
    intro schedule s hs hnot hm
    obtain ⟨s', hstep, hs'⟩ := h.steps s (schedule 0) hs
    refine ⟨1, s', ?_, hs', Or.inr (h.drops s s' hs hnot (by rw [← hm]; exact hstep))⟩
    rw [choices_succ, List.foldlM_cons, hstep]
    rfl
  | succ m ih =>
    intro schedule s hs hnot hm
    obtain ⟨s', hstep, hs'⟩ := h.steps s (schedule 0) hs
    have hone : (choices schedule 1).foldlM step s = some s' := by
      rw [choices_succ, List.foldlM_cons, hstep]
      rfl
    rcases h.waits s _ s' hs hnot hstep with hlt | ⟨heq, hsame⟩
    · exact ⟨1, s', hone, hs', Or.inr hlt⟩
    by_cases hdone : Done s'
    · exact ⟨1, s', hone, hs', Or.inl hdone⟩
    obtain ⟨n, s'', hrun, hs'', hend⟩ :=
      ih (fun k => schedule (k + 1)) s' hs' hdone (hm.trans hsame.symm)
    refine ⟨n + 1, s'', ?_, hs'', heq ▸ hend⟩
    rw [choices_succ, List.foldlM_cons, hstep]
    exact hrun

/-- **Every fair scheduler leads to the end.** -/
theorem terminates [WellFoundedLT α] (h : Helps step Inv Done rank helpful) {schedule : ℕ → ι}
    (hfair : Fair schedule) {s : σ} (hs : Inv s) :
    ∃ n s', (choices schedule n).foldlM step s = some s' ∧ Inv s' ∧ Done s' := by
  induction hr : rank s using WellFoundedLT.induction generalizing s schedule with
  | ind r ih =>
    subst hr
    by_cases hdone : Done s
    · exact ⟨0, s, rfl, hs, hdone⟩
    obtain ⟨m, -, hm⟩ := hfair (helpful s) 0
    obtain ⟨n, s', hrun, hs', hend⟩ := h.drop m schedule s hs hdone hm
    rcases hend with hdone' | hlt
    · exact ⟨n, s', hrun, hs', hdone'⟩
    obtain ⟨n', s'', hrun', hs'', hdone''⟩ := ih _ hlt (hfair.shift n) hs' rfl
    refine ⟨n + n', s'', ?_, hs'', hdone''⟩
    rw [choices_add, List.foldlM_append, hrun]
    exact hrun'

end Helps

/-- A program that is at its end stays there. -/
theorem foldlM_of_fixed {step : σ → ι → Option σ} {s : σ} (h : ∀ i, step s i = some s) :
    ∀ is : List ι, is.foldlM step s = some s := by
  intro is
  induction is with
  | nil => rfl
  | cons i is ih =>
    rw [List.foldlM_cons, h i]
    exact ih

end Lib
end Liquibook
