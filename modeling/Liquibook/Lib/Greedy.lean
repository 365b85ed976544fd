import Mathlib.Algebra.BigOperators.Group.List.Basic
import Mathlib.Algebra.Order.Ring.Nat

/-!
# Greedy consumption

A quantity is taken from the elements of a list in order: all there is of each, until
the quantity is used up.

## Main definitions

* `greedy w q xs` — the elements of `xs` that are touched when `q` is taken from
  them, each with what is taken from it; `w x` is what there is of `x`.

## Main results

* `sum_greedy` — what is taken altogether.
* `map_fst_greedy_prefix` — the elements touched are the first ones.
* `mem_greedy` — what is taken from one of them.
* `greedy_before` — all of it, unless it is the last one.
* `greedy_of_sum_le` — a quantity that is not used up takes everything.
* `greedy_append` — the later elements get what the earlier ones leave.
* `greedy_mono` — **a larger quantity** takes no less, from the same elements first.
-/

namespace Liquibook
namespace Lib

variable {α : Type*} {w : α → ℕ} {q : ℕ} {xs : List α}

/-- Take `q` from the elements of a list in order, at most `w x` from `x`. -/
def greedy (w : α → ℕ) : ℕ → List α → List (α × ℕ)
  | _, [] => []
  | q, x :: xs => if q = 0 then [] else (x, min q (w x)) :: greedy w (q - w x) xs

@[simp] theorem greedy_nil (w : α → ℕ) (q : ℕ) : greedy w q [] = [] := rfl

@[simp] theorem greedy_zero (w : α → ℕ) (xs : List α) : greedy w 0 xs = [] := by
  cases xs with
  | nil => rfl
  | cons x xs => rw [greedy, if_pos rfl]

theorem greedy_cons (w : α → ℕ) (hq : q ≠ 0) (x : α) (xs : List α) :
    greedy w q (x :: xs) = (x, min q (w x)) :: greedy w (q - w x) xs := by
  rw [greedy, if_neg hq]

/-- Renaming the elements renames those that are touched. -/
theorem greedy_map {β : Type*} (w : β → ℕ) (f : α → β) : ∀ (xs : List α) (q : ℕ),
    greedy w q (xs.map f) = (greedy (fun x => w (f x)) q xs).map fun x => (f x.1, x.2) := by
  intro xs
  induction xs with
  | nil => intro q; rfl
  | cons x xs ih =>
    intro q
    by_cases hq : q = 0
    · simp [hq]
    · rw [List.map_cons, greedy_cons w hq, greedy_cons _ hq, List.map_cons, ih]

/-- **What is taken altogether** is the quantity, or all there is. -/
theorem sum_greedy (w : α → ℕ) : ∀ (xs : List α) (q : ℕ),
    ((greedy w q xs).map Prod.snd).sum = min q (xs.map w).sum := by
  intro xs
  induction xs with
  | nil => intro q; simp
  | cons x xs ih =>
    intro q
    by_cases hq : q = 0
    · rw [hq, greedy_zero, Nat.zero_min]
      rfl
    · rw [greedy_cons w hq, List.map_cons, List.sum_cons, ih, List.map_cons, List.sum_cons]
      omega

/-- **The elements touched** are the first ones. -/
theorem map_fst_greedy_prefix (w : α → ℕ) : ∀ (xs : List α) (q : ℕ),
    (greedy w q xs).map Prod.fst <+: xs := by
  intro xs
  induction xs with
  | nil => intro q; simp
  | cons x xs ih =>
    intro q
    by_cases hq : q = 0
    · rw [hq, greedy_zero]
      exact List.nil_prefix
    · rw [greedy_cons w hq, List.map_cons]
      exact List.cons_prefix_cons.mpr ⟨rfl, ih _⟩

/-- What is taken from an element: something, if there is anything, and no more than
there is. -/
theorem mem_greedy : ∀ {xs : List α} {q : ℕ} {f : α × ℕ}, f ∈ greedy w q xs →
    f.1 ∈ xs ∧ f.2 ≤ w f.1 ∧ f.2 ≤ q ∧ (0 < w f.1 → 0 < f.2) := by
  intro xs
  induction xs with
  | nil => intro q f hf; cases hf
  | cons x xs ih =>
    intro q f hf
    by_cases hq : q = 0
    · rw [hq, greedy_zero] at hf
      cases hf
    · rw [greedy_cons w hq] at hf
      rcases List.mem_cons.mp hf with rfl | hf
      · refine ⟨List.mem_cons_self, ?_, ?_, ?_⟩ <;> dsimp only <;> omega
      · obtain ⟨h1, h2, h3, h4⟩ := ih hf
        exact ⟨List.mem_cons_of_mem _ h1, h2, by omega, h4⟩

/-- All there is of an element is taken before the next one is touched. -/
theorem greedy_before : ∀ {xs : List α} {q : ℕ} {gs hs : List (α × ℕ)} {f : α × ℕ},
    greedy w q xs = gs ++ f :: hs → ∀ g ∈ gs, g.2 = w g.1 := by
  intro xs
  induction xs with
  | nil =>
    intro q gs hs f h
    rw [greedy_nil] at h
    exact absurd h.symm (List.append_ne_nil_of_right_ne_nil _ (List.cons_ne_nil _ _))
  | cons x xs ih =>
    intro q gs hs f h g hg
    by_cases hq : q = 0
    · rw [hq, greedy_zero] at h
      exact absurd h.symm (List.append_ne_nil_of_right_ne_nil _ (List.cons_ne_nil _ _))
    rw [greedy_cons w hq] at h
    cases gs with
    | nil => cases hg
    | cons g' gs =>
      obtain ⟨rfl, hrest⟩ := List.cons.inj h
      rcases List.mem_cons.mp hg with rfl | hg
      · -- something is taken from a later element, so the quantity is not used up
        have hlt : q - w x ≠ 0 := by
          intro e
          rw [e, greedy_zero] at hrest
          exact absurd hrest.symm (List.append_ne_nil_of_right_ne_nil _ (List.cons_ne_nil _ _))
        exact Nat.min_eq_right (by omega)
      · exact ih hrest g hg

/-- The later elements get what the earlier ones leave. -/
theorem greedy_append (w : α → ℕ) (ys : List α) : ∀ (xs : List α) (q : ℕ),
    greedy w q (xs ++ ys) = greedy w q xs ++ greedy w (q - (xs.map w).sum) ys := by
  intro xs
  induction xs with
  | nil => intro q; simp
  | cons x xs ih =>
    intro q
    by_cases hq : q = 0
    · simp [hq]
    · rw [List.cons_append, greedy_cons w hq, greedy_cons w hq, ih, List.map_cons, List.sum_cons,
        Nat.sub_sub, List.cons_append]

/-- **A larger quantity** from more elements takes no less, from the same elements first. -/
theorem greedy_mono (w : α → ℕ) : ∀ {xs ys : List α} {q q' : ℕ}, xs <+: ys → q ≤ q' →
    ∃ gs hs, greedy w q' ys = gs ++ hs ∧
      List.Forall₂ (fun f g => f.1 = g.1 ∧ f.2 ≤ g.2) (greedy w q xs) gs := by
  intro xs
  induction xs with
  | nil => exact fun _ _ => ⟨[], _, rfl, .nil⟩
  | cons x xs ih =>
    intro ys q q' hpre hle
    obtain ⟨zs, rfl⟩ := hpre
    by_cases hq : q = 0
    · rw [hq, greedy_zero]
      exact ⟨[], _, rfl, .nil⟩
    · obtain ⟨gs, hs, hsplit, hall⟩ := ih (List.prefix_append xs zs) (Nat.sub_le_sub_right hle (w x))
      rw [List.cons_append, greedy_cons w hq, greedy_cons w (by omega), hsplit]
      exact ⟨_ :: gs, hs, rfl, .cons ⟨rfl, by dsimp only; omega⟩ hall⟩

/-- **A quantity that is not used up** takes everything. -/
theorem greedy_of_sum_le (hw : ∀ x ∈ xs, 0 < w x) (h : (xs.map w).sum ≤ q) :
    greedy w q xs = xs.map fun x => (x, w x) := by
  induction xs generalizing q with
  | nil => rfl
  | cons x xs ih =>
    rw [List.map_cons, List.sum_cons] at h
    have hx := hw x List.mem_cons_self
    rw [greedy_cons w (by omega), List.map_cons, Nat.min_eq_right (by omega),
      ih (fun y hy => hw y (List.mem_cons_of_mem _ hy)) (by omega)]

end Lib
end Liquibook
