import Mathlib.Data.Finite.Prod
import Mathlib.Data.Fintype.Card
import Mathlib.Order.Fin.Basic
import Mathlib.Order.OrderIsoNat

/-!
# Stores become visible

A load may return an old store, but not for ever: the stores that have been made are seen by
every thread some day.  How long that takes is not known, so as long as new stores are
made no load need ever return the newest one.  A program that makes a bounded number of stores
comes to a moment from which on its memory is up to date.

## Main definitions

* `Visible last loaded` — every store is seen some day.

## Main results

* `Visible.upToDate` — **when the stores run out, the loads catch up.**
-/

namespace Liquibook
namespace Lib

variable {κ : Type*} {last : ℕ → κ → ℕ} {loaded : ℕ → κ → ℕ → Prop} {N : ℕ}

/-- Every store is seen some day.  At the moment `n` the newest store to `k` is the one with the
number `last n k`, and `loaded n k i` says that a load of `k` returns the `i`th. -/
def Visible (last : ℕ → κ → ℕ) (loaded : ℕ → κ → ℕ → Prop) : Prop :=
  ∀ n, ∃ m, ∀ j, m ≤ j → ∀ k i, loaded j k i → last n k ≤ i

/-- Some day the last store has been made. -/
theorem exists_last_store [Finite κ] (hmono : ∀ k, Monotone fun n => last n k)
    (hbound : ∀ n k, last n k ≤ N) : ∃ n, ∀ j, n ≤ j → ∀ k, last j k = last n k := by
  have hlt : ∀ n k, last n k < N + 1 := fun n k => Nat.lt_succ_of_le (hbound n k)
  let counts : ℕ →o (κ → Fin (N + 1)) :=
    { toFun := fun n k => ⟨last n k, hlt n k⟩
      monotone' := fun _ _ hle k => hmono k hle }
  obtain ⟨n, hn⟩ := WellFoundedGT.monotone_chain_condition counts
  exact ⟨n, fun j hj k => congrArg Fin.val (congrFun (hn j hj) k).symm⟩

/-- **When the stores run out, the loads catch up**: some day every load returns the newest
store. -/
theorem Visible.upToDate [Finite κ] (h : Visible last loaded)
    (hmono : ∀ k, Monotone fun n => last n k) (hbound : ∀ n k, last n k ≤ N) :
    ∃ n, ∀ j, n ≤ j → ∀ k i, loaded j k i → last j k ≤ i := by
  obtain ⟨n, hn⟩ := exists_last_store hmono hbound
  obtain ⟨m, hm⟩ := h n
  refine ⟨max n m, fun j hj k i hload => ?_⟩
  rw [hn j ((le_max_left n m).trans hj) k]
  exact hm j ((le_max_right n m).trans hj) k i hload

end Lib
end Liquibook
