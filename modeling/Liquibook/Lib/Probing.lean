import Mathlib.Data.Finset.Card
import Mathlib.Data.Finset.Range
import Mathlib.Data.Nat.ModEq

/-!
# Linear probing on a cyclic table

The slots of a table of `cap` slots are visited from a start slot onwards,
wrapping at the end, until a slot says stop.  What matters about a slot is
whether every slot before it on the way lets the probe pass: `PathTo`.

## Main definitions

* `probe cap start j` — the slot visited after `j` steps.
* `PathTo cap start P i` — slot `i` is reached, all slots before it satisfying `P`.

## Main results

* `exists_probe_eq`, `probe_injOn` — one round of the probe visits every slot once.
* `card_filter_eq_add_one` — the count of marked slots after marking one more.
-/

namespace Liquibook
namespace Lib

/-- The slot visited after `j` steps of a probe that starts at `start`. -/
def probe (cap start j : ℕ) : ℕ := (start + j) % cap

theorem probe_lt {cap : ℕ} (hcap : 0 < cap) (start j : ℕ) : probe cap start j < cap :=
  Nat.mod_lt _ hcap

theorem probe_zero {cap start : ℕ} (h : start < cap) : probe cap start 0 = start := by
  rw [probe, Nat.add_zero, Nat.mod_eq_of_lt h]

theorem probe_succ (cap start j : ℕ) : (probe cap start j + 1) % cap = probe cap start (j + 1) := by
  rw [probe, probe, Nat.mod_add_mod, Nat.add_assoc]

/-- One round of the probe visits no slot twice. -/
theorem probe_injOn {cap start j j' : ℕ} (hj : j < cap) (hj' : j' < cap)
    (h : probe cap start j = probe cap start j') : j = j' := by
  have hmod : j % cap = j' % cap := Nat.ModEq.add_left_cancel' start h
  rwa [Nat.mod_eq_of_lt hj, Nat.mod_eq_of_lt hj'] at hmod

/-- One round of the probe visits every slot. -/
theorem exists_probe_eq {cap i : ℕ} (start : ℕ) (hi : i < cap) :
    ∃ j, j < cap ∧ probe cap start j = i := by
  have hcap : 0 < cap := by omega
  refine ⟨(i + (cap - start % cap)) % cap, Nat.mod_lt _ hcap, ?_⟩
  have hs : start % cap < cap := Nat.mod_lt _ hcap
  rw [probe, Nat.add_mod_mod, ← Nat.mod_add_mod,
    show start % cap + (i + (cap - start % cap)) = i + cap by omega, Nat.add_mod_right,
    Nat.mod_eq_of_lt hi]

/-- The probe from `start` reaches slot `i` in its first round, and every slot
before it on the way satisfies `P`. -/
def PathTo (cap start : ℕ) (P : ℕ → Prop) (i : ℕ) : Prop :=
  ∃ j, j < cap ∧ probe cap start j = i ∧ ∀ k, k < j → P (probe cap start k)

namespace PathTo

variable {cap start i t : ℕ} {P Q : ℕ → Prop}

theorem lt_cap (h : PathTo cap start P i) : i < cap := by
  obtain ⟨j, hj, rfl, -⟩ := h
  exact probe_lt (by omega) _ _

/-- A path stays a path when every slot that let the probe pass still does. -/
theorem mono (h : PathTo cap start P i) (hPQ : ∀ k, k < cap → k ≠ i → P k → Q k) :
    PathTo cap start Q i := by
  obtain ⟨j, hj, rfl, hP⟩ := h
  refine ⟨j, hj, rfl, fun k hk => hPQ _ (probe_lt (by omega) _ _) ?_ (hP k hk)⟩
  intro e
  have := probe_injOn (by omega) hj e
  omega

end PathTo

/-- Marking one slot that was not marked adds one to the number of marked slots. -/
theorem card_filter_eq_add_one {p q : ℕ → Prop} [DecidablePred p] [DecidablePred q] {n t : ℕ}
    (ht : t < n) (hq : q t) (hp : ¬ p t) (hpq : ∀ i, i ≠ t → (q i ↔ p i)) :
    ((Finset.range n).filter q).card = ((Finset.range n).filter p).card + 1 := by
  have hins : (Finset.range n).filter q = insert t ((Finset.range n).filter p) := by
    ext i
    simp only [Finset.mem_insert, Finset.mem_filter, Finset.mem_range]
    by_cases hi : i = t
    · simp [hi, ht, hq]
    · simp [hi, hpq i hi]
  rw [hins, Finset.card_insert_of_notMem]
  simp [hp]

end Lib
end Liquibook
