import Mathlib.Data.List.Forall2
import Mathlib.Data.List.Nodup
import Mathlib.Algebra.BigOperators.Group.List.Basic
import Mathlib.Algebra.Order.Ring.Nat

/-!
# Positions in a queue

The entries of a queue have keys.  A queue moves on when some of its entries leave, the
others change in a way that a relation `R` allows and keep their order, and new entries
come in behind them.  What stands in front of an entry that stays is then what is left of
what stood in front of it before.

## Main definitions

* `MovesOn` — a queue moves on.
* `ahead` — what stands in front of a key.

## Main results

* `MovesOn.ahead` — **what is ahead of an entry that stays was ahead of it before.**
-/

namespace Liquibook
namespace Lib

open List

variable {α κ : Type*} {R : α → α → Prop} {xs ys : List α}

/-! ### Lists with entries left out -/

/-- An entry that is left stands for one that was there. -/
theorem exists_of_mem_sublist {x : α} (h : SublistForall₂ R xs ys) (hx : x ∈ xs) :
    ∃ y ∈ ys, R x y := by
  induction h with
  | nil => cases hx
  | cons hR _ ih =>
    rcases List.mem_cons.mp hx with rfl | hx
    · exact ⟨_, List.mem_cons_self, hR⟩
    · obtain ⟨y, hy, hxy⟩ := ih hx
      exact ⟨y, List.mem_cons_of_mem _ hy, hxy⟩
  | cons_right _ ih =>
    obtain ⟨y, hy, hxy⟩ := ih hx
    exact ⟨y, List.mem_cons_of_mem _ hy, hxy⟩

/-- A selection that `R` respects. -/
theorem sublist_filter {p : α → Bool} (hp : ∀ x y, R x y → p x = p y)
    (h : SublistForall₂ R xs ys) : SublistForall₂ R (xs.filter p) (ys.filter p) := by
  induction h with
  | nil => exact .nil
  | @cons x y _ _ hR _ ih =>
    rw [List.filter_cons, List.filter_cons, hp x y hR]
    split
    · exact .cons hR ih
    · exact ih
  | cons_right _ ih =>
    rw [List.filter_cons]
    split
    · exact .cons_right ih
    · exact ih

/-- Entries that are changed or dropped one by one. -/
theorem sublist_filterMap {f : α → Option α} (hf : ∀ x ∈ xs, ∀ y, f x = some y → R y x) :
    SublistForall₂ R (xs.filterMap f) xs := by
  induction xs with
  | nil => exact .nil
  | cons x xs ih =>
    have htail := ih fun z hz => hf z (List.mem_cons_of_mem _ hz)
    cases hx : f x with
    | none =>
      rw [List.filterMap_cons_none hx]
      exact .cons_right htail
    | some y =>
      rw [List.filterMap_cons_some hx]
      exact .cons (hf x List.mem_cons_self y hx) htail

/-- A number that `R` does not raise. -/
theorem sum_le_of_sublist {f : α → ℕ} (hf : ∀ x y, R x y → f x ≤ f y)
    (h : SublistForall₂ R xs ys) : (xs.map f).sum ≤ (ys.map f).sum := by
  induction h with
  | nil => exact Nat.zero_le _
  | @cons x y _ _ hR _ ih =>
    rw [List.map_cons, List.map_cons, List.sum_cons, List.sum_cons]
    exact Nat.add_le_add (hf x y hR) ih
  | cons_right _ ih =>
    rw [List.map_cons, List.sum_cons]
    exact Nat.le_trans ih (Nat.le_add_left _ _)

/-! ### Queues that move on -/

variable {key : α → κ} {k : κ} {new : κ → Prop}

/-- The queue `ys` moves on to `xs`: the entries that are kept stand in front of those that
come in, whose keys satisfy `new`. -/
def MovesOn (R : α → α → Prop) (key : α → κ) (new : κ → Prop) (xs ys : List α) : Prop :=
  ∃ kept come, xs = kept ++ come ∧ SublistForall₂ R kept ys ∧ ∀ x ∈ come, new (key x)

theorem MovesOn.filter {p : α → Bool} (hp : ∀ x y, R x y → p x = p y)
    (h : MovesOn R key new xs ys) : MovesOn R key new (xs.filter p) (ys.filter p) := by
  obtain ⟨kept, come, rfl, hkept, hcome⟩ := h
  refine ⟨_, _, List.filter_append .., sublist_filter hp hkept, fun x hx => ?_⟩
  exact hcome x (List.mem_of_mem_filter hx)

/-- An entry with a key that does not come in was there before. -/
theorem MovesOn.mem_kept {x : α} (h : MovesOn R key new xs ys) (hx : x ∈ xs)
    (hnew : ¬ new (key x)) : ∃ y ∈ ys, R x y := by
  obtain ⟨kept, come, rfl, hkept, hcome⟩ := h
  rcases List.mem_append.mp hx with hx | hx
  · exact exists_of_mem_sublist hkept hx
  · exact absurd (hcome x hx) hnew

/-! ### What is ahead -/

variable [DecidableEq κ]

/-- What stands in front of the first entry with a key. -/
def ahead (key : α → κ) (k : κ) (xs : List α) : List α := xs.takeWhile fun x => decide (key x ≠ k)

theorem ahead_cons_self {x : α} (h : key x = k) (xs : List α) : ahead key k (x :: xs) = [] := by
  rw [ahead, List.takeWhile_cons_of_neg]
  simpa using h

theorem ahead_cons_of_ne {x : α} (h : key x ≠ k) (xs : List α) :
    ahead key k (x :: xs) = x :: ahead key k xs := by
  rw [ahead, List.takeWhile_cons_of_pos]
  · rfl
  · simpa using h

/-- The entries in front of another one are ahead of it. -/
theorem mem_ahead {x y : α} (hnd : (xs.map key).Nodup) (h : [x, y].Sublist xs) :
    x ∈ ahead key (key y) xs := by
  induction xs with
  | nil => cases h
  | cons z xs ih =>
    rw [List.map_cons, List.nodup_cons] at hnd
    cases h with
    | cons _ h =>
      have hy : y ∈ xs := h.subset (List.mem_cons_of_mem _ List.mem_cons_self)
      have hz : key z ≠ key y := fun e => hnd.1 (e ▸ List.mem_map_of_mem hy)
      rw [ahead_cons_of_ne hz]
      exact List.mem_cons_of_mem _ (ih hnd.2 h)
    | cons_cons _ h =>
      have hy : y ∈ xs := h.subset List.mem_cons_self
      have hx : key x ≠ key y := fun e => hnd.1 (e ▸ List.mem_map_of_mem hy)
      rw [ahead_cons_of_ne hx]
      exact List.mem_cons_self

/-- What is ahead of an entry that is kept, when the entries are changed or dropped. -/
theorem ahead_filterMap {f : α → Option α} (hkey : ∀ x y, f x = some y → key y = key x)
    (hkept : ∀ x ∈ xs, key x = k → f x ≠ none) :
    ahead key k (xs.filterMap f) = (ahead key k xs).filterMap f := by
  induction xs with
  | nil => rfl
  | cons x xs ih =>
    have ih' := ih fun y hy => hkept y (List.mem_cons_of_mem _ hy)
    by_cases hx : key x = k
    · cases hfx : f x with
      | none => exact absurd hfx (hkept x List.mem_cons_self hx)
      | some y =>
        rw [List.filterMap_cons_some hfx, ahead_cons_self ((hkey x y hfx).trans hx),
          ahead_cons_self hx, List.filterMap_nil]
    · rw [ahead_cons_of_ne hx]
      cases hfx : f x with
      | none => rw [List.filterMap_cons_none hfx, List.filterMap_cons_none hfx, ih']
      | some y =>
        rw [List.filterMap_cons_some hfx, List.filterMap_cons_some hfx,
          ahead_cons_of_ne (hkey x y hfx ▸ hx), ih']

/-- What comes in behind an entry is not ahead of it. -/
theorem ahead_append (h : k ∈ xs.map key) (new : List α) :
    ahead key k (xs ++ new) = ahead key k xs := by
  induction xs with
  | nil => cases h
  | cons x xs ih =>
    rw [List.cons_append]
    by_cases hx : key x = k
    · rw [ahead_cons_self hx, ahead_cons_self hx]
    · rw [ahead_cons_of_ne hx, ahead_cons_of_ne hx, ih]
      rw [List.map_cons, List.mem_cons] at h
      exact h.resolve_left (Ne.symm hx)

/-- What is left ahead of an entry was ahead of it. -/
theorem ahead_sublist (hkey : ∀ x y, R x y → key x = key y) (h : SublistForall₂ R xs ys)
    (hnd : (ys.map key).Nodup) (hk : k ∈ xs.map key) :
    SublistForall₂ R (ahead key k xs) (ahead key k ys) := by
  induction h with
  | nil => cases hk
  | @cons x y _ _ hR _ ih =>
    rw [List.map_cons, List.nodup_cons] at hnd
    by_cases hx : key x = k
    · rw [ahead_cons_self hx]
      exact .nil
    · rw [ahead_cons_of_ne hx, ahead_cons_of_ne (hkey x y hR ▸ hx)]
      rw [List.map_cons, List.mem_cons] at hk
      exact .cons hR (ih hnd.2 (hk.resolve_left (Ne.symm hx)))
  | @cons_right y xs ys hsub ih =>
    rw [List.map_cons, List.nodup_cons] at hnd
    -- the entry that is left out is another one
    have hy : key y ≠ k := by
      rintro rfl
      obtain ⟨x, hx, hxy⟩ := List.mem_map.mp hk
      obtain ⟨z, hz, hxz⟩ := exists_of_mem_sublist hsub hx
      exact hnd.1 (List.mem_map.mpr ⟨z, hz, (hkey x z hxz).symm.trans hxy⟩)
    rw [ahead_cons_of_ne hy]
    exact .cons_right (ih hnd.2 hk)

/-- **What is ahead of an entry that stays was ahead of it before.** -/
theorem MovesOn.ahead (hkey : ∀ x y, R x y → key x = key y) (h : MovesOn R key new xs ys)
    (hnd : (ys.map key).Nodup) (hk : k ∈ xs.map key) (hnew : ¬ new k) :
    SublistForall₂ R (Lib.ahead key k xs) (Lib.ahead key k ys) := by
  obtain ⟨kept, come, rfl, hkept, hcome⟩ := h
  have hstays : k ∈ kept.map key := by
    rw [List.map_append, List.mem_append] at hk
    refine hk.resolve_right fun hin => ?_
    obtain ⟨x, hx, rfl⟩ := List.mem_map.mp hin
    exact hnew (hcome x hx)
  rw [ahead_append hstays]
  exact ahead_sublist hkey hkept hnd hstays

end Lib
end Liquibook
