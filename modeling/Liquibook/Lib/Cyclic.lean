import Mathlib.Data.List.Basic
import Mathlib.Order.Interval.Finset.Nat

/-!
# Cyclic arrays

A sequence that only grows at its end is kept in an array of `n` cells, entry `k` in the
cell `k % n`.  The array *holds* the sequence from `lo` on when the entries from `lo` on
are in their cells.  As long as at most `n` entries are held no two of them share a
cell, so the next entry can be written without touching any of them.

The positions of a machine that keeps them in a word of `w` bits are the true ones
modulo `2 ^ w`: the difference of two of them is the true difference, and masking
one finds its cell, also after the words have wrapped.

## Main definitions

* `Holds cells n lo xs` — the entries of `xs` from `lo` on are in their cells.

## Main results

* `Holds.set` — writing the next cell keeps what is held.
* `Holds.append_singleton` — the entry just written can be counted in.
* `toNat_and_mask`, `toNat_ofNat_sub` — positions that wrap.
-/

namespace Liquibook
namespace Lib

variable {α : Type*} {cells xs : List α} {n lo : ℕ} {v : α}

/-- The entries of `xs` from `lo` on are in their cells. -/
def Holds (cells : List α) (n lo : ℕ) (xs : List α) : Prop :=
  ∀ k v, lo ≤ k → xs[k]? = some v → cells[k % n]? = some v

/-- Two held positions do not share a cell. -/
theorem mod_ne_mod_of_lt {i j : ℕ} (hlo : lo ≤ i) (hij : i < j) (hj : j < lo + n) :
    i % n ≠ j % n := by
  intro h
  have hi : i ∈ Set.Ico lo (lo + n) := ⟨hlo, by omega⟩
  have hj' : j ∈ Set.Ico lo (lo + n) := ⟨by omega, hj⟩
  have hinj : Set.InjOn (· % n) (Finset.Ico lo (lo + n)) := Nat.mod_injOn_Ico lo n
  rw [Finset.coe_Ico] at hinj
  exact absurd (hinj hi hj' h) (by omega)

namespace Holds

theorem set (h : Holds cells n lo xs) (hroom : xs.length < lo + n) :
    Holds (cells.set (xs.length % n) v) n lo xs := by
  intro k w hlo hk
  have hlt : k < xs.length := by
    by_contra hge
    rw [List.getElem?_eq_none (by omega)] at hk
    cases hk
  rw [List.getElem?_set_ne (mod_ne_mod_of_lt hlo hlt hroom).symm]
  exact h k w hlo hk

theorem append_singleton (h : Holds cells n lo xs) (hv : cells[xs.length % n]? = some v) :
    Holds cells n lo (xs ++ [v]) := by
  intro k w hlo hk
  obtain hlt | heq | hgt := lt_trichotomy k xs.length
  · rw [List.getElem?_append_left hlt] at hk
    exact h k w hlo hk
  · subst heq
    rw [List.getElem?_concat_length] at hk
    rw [hv, hk]
  · rw [List.getElem?_eq_none (by simp; omega)] at hk
    cases hk

theorem mono {lo' : ℕ} (h : Holds cells n lo xs) (hle : lo ≤ lo') : Holds cells n lo' xs :=
  fun k v hlo hk => h k v (hle.trans hlo) hk

end Holds

/-! ### Positions that wrap -/

/-- Masking a word finds the cell, also when the position has wrapped. -/
theorem toNat_and_mask {mask : UInt64} {j : ℕ} (hj : j ≤ 64) (hmask : mask.toNat = 2 ^ j - 1)
    (k : ℕ) : (UInt64.ofNat k &&& mask).toNat = k % 2 ^ j := by
  rw [UInt64.toNat_and, hmask, Nat.and_two_pow_sub_one_eq_mod, UInt64.toNat_ofNat',
    Nat.mod_mod_of_dvd _ (Nat.pow_dvd_pow 2 hj)]

/-- The difference of two words is the true difference, if that fits in a word. -/
theorem toNat_ofNat_sub {a b : ℕ} (hle : b ≤ a) (hlt : a - b < 2 ^ 64) :
    (UInt64.ofNat a - UInt64.ofNat b).toNat = a - b := by
  have e : UInt64.ofNat a - UInt64.ofNat b = UInt64.ofNat (a - b) := by
    rw [UInt64.ofNat_sub hle]
  rw [e, UInt64.toNat_ofNat_of_lt' hlt]

/-- Two words are equal exactly if the positions are, if these are less than a word apart. -/
theorem ofNat_eq_ofNat_iff {a b : ℕ} (hle : b ≤ a) (hlt : a - b < 2 ^ 64) :
    UInt64.ofNat b = UInt64.ofNat a ↔ b = a := by
  refine ⟨fun h => ?_, fun h => by rw [h]⟩
  have hd := toNat_ofNat_sub hle hlt
  rw [h, UInt64.sub_self, UInt64.toNat_zero] at hd
  omega

end Lib
end Liquibook
