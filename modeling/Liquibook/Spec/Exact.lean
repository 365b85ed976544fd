import Liquibook.Spec.Ledger
import Mathlib.Algebra.Order.BigOperators.Group.List
import Mathlib.Algebra.Order.Ring.Nat

/-!
# Ledgers whose totals do not wrap

As long as the shares at every price and side fit in a share count, a total is zero
exactly when its queue is empty, and then the cached best price of a side is the
best price at which the side has an order, in every ledger a run reaches.

## Main definitions

* `Ledger.Bounded` — the shares at every price and side are below `2 ^ 32`.
* `Ledger.Exact` — the cached best prices are the best prices with an order.

## Main results

* `WF.total_ne_zero_iff` — without wrapping, totals tell empty queues.
* `Exact.change` — **the cached best prices stay exact.**
-/

namespace Liquibook

open Lib OrderBook

/-! ### Sums of shares -/

/-- A sum of share counts wraps at `2 ^ 32`. -/
theorem toNat_sum_shares (rs : List Resting) :
    (rs.map Resting.shares).sum.toNat = sharesOf rs % 2 ^ 32 := by
  unfold sharesOf
  induction rs with
  | nil => rfl
  | cons r rs ih =>
    rw [List.map_cons, List.sum_cons, UInt32.toNat_add, ih, List.map_cons, List.sum_cons,
      Nat.add_mod_mod]

theorem sharesOf_cons (r : Resting) (rs : List Resting) :
    sharesOf (r :: rs) = r.shares.toNat + sharesOf rs := by
  rw [sharesOf, List.map_cons, List.sum_cons]
  rfl

theorem sharesOf_append (rs rs' : List Resting) :
    sharesOf (rs ++ rs') = sharesOf rs + sharesOf rs' := by
  rw [sharesOf, List.map_append, List.sum_append]
  rfl

theorem sharesOf_sublist {rs rs' : List Resting} (h : rs.Sublist rs') :
    sharesOf rs ≤ sharesOf rs' :=
  (h.map _).sum_le_sum fun _ _ => Nat.zero_le _

theorem sharesOf_eq_zero_iff {rs : List Resting} (hpos : ∀ r ∈ rs, r.shares ≠ 0) :
    sharesOf rs = 0 ↔ rs = [] := by
  cases rs with
  | nil => exact ⟨fun _ => rfl, fun _ => rfl⟩
  | cons r rs =>
    have hr : r.shares.toNat ≠ 0 := fun e => hpos r List.mem_cons_self (UInt32.toNat_inj.mp e)
    rw [sharesOf_cons]
    constructor
    · intro h
      omega
    · intro h
      cases h

namespace Ledger

/-- The shares at every price and side are below `2 ^ 32`. -/
def Bounded (l : Ledger) : Prop := ∀ p side, sharesOf (l.queue p side) < 2 ^ 32

/-- The cached price of either side is the best price with an order. -/
def Exact (l : Ledger) : Prop :=
  ∀ side, IsBest (fun p q => better side p q = true) (fun p => l.queue p side ≠ []) (l.best side)

variable {l l' : Ledger} {r : Resting} {p : Price4} {side : Bool}

theorem Bounded.toNat_total (hb : Bounded l) (p : Price4) (side : Bool) :
    (l.total p side).toNat = sharesOf (l.queue p side) := by
  rw [total, toNat_sum_shares, Nat.mod_eq_of_lt (hb p side)]

/-- Without wrapping, a total is zero exactly when its queue is empty. -/
theorem WF.total_ne_zero_iff (h : WF l) (hb : Bounded l) :
    l.total p side ≠ 0 ↔ l.queue p side ≠ [] := by
  rw [not_iff_not, ← UInt32.toNat_inj, hb.toNat_total]
  exact sharesOf_eq_zero_iff fun r hr => h.positive r (mem_queue.mp hr).1

theorem Bounded.remove (hb : Bounded l) (r : Resting) : Bounded (l.remove r) := by
  intro p side
  rw [queue_remove]
  exact (sharesOf_sublist List.filter_sublist).trans_lt (hb p side)

theorem Bounded.setShares (hb : Bounded l) (h : WF l) (hr : r ∈ l.orders) {n : Shares}
    (hn : n ≤ r.shares) : Bounded (l.setShares r.orderRef n) := by
  intro p side
  refine lt_of_le_of_lt ?_ (hb p side)
  rw [queue_setShares, sharesOf, List.map_map]
  refine List.sum_le_sum fun x hx => ?_
  rw [Function.comp_apply]
  split
  · next e =>
    rw [h.eq_of_ref (mem_queue.mp hx).1 hr e]
    exact UInt32.le_iff_toNat_le.mp hn
  · exact le_rfl

theorem Bounded.reduce (hb : Bounded l) (h : WF l) (ref : OrderRef) (delta : Shares) :
    Bounded (l.reduce ref delta).2 := by
  unfold Ledger.reduce
  cases hf : l.find ref with
  | none => exact hb
  | some r =>
    obtain ⟨hr, rfl⟩ := mem_of_find hf
    dsimp only
    split
    · exact hb
    · next hc =>
      rw [not_or, gt_iff_lt, UInt32.not_lt] at hc
      split
      · exact hb.remove r
      · refine hb.setShares h hr ?_
        rw [UInt32.le_iff_toNat_le, UInt32.toNat_sub_of_le _ _ hc.2]
        omega

theorem exact_new (capacity : ℕ) : Exact (new capacity) := by
  intro side p hp
  exact hp rfl

theorem bounded_new (capacity : ℕ) : Bounded (new capacity) := by
  intro p side
  exact Nat.two_pow_pos 32

/-- Without wrapping, the price looked for is the best one with an order. -/
theorem WF.isBest_levels (h : WF l) (hb : Bounded l) (side : Bool) :
    IsBest (fun p q => better side p q = true) (fun p => l.queue p side ≠ [])
      (l.depth side).levels.head? :=
  (l.isBest_levels side).congr fun _ => h.total_ne_zero_iff hb

namespace Exact

theorem append (he : Exact l) (r : Resting) : Exact (l.append r) := by
  intro side
  rw [append_best]
  by_cases hs : side = r.isBuy
  · subst hs
    rw [if_pos rfl]
    refine (isBest_improve (ranking_better _) (he r.isBuy) r.price).congr fun p => ?_
    rw [queue_append]
    by_cases hp : p = r.price
    · simp [hp]
    · simp [hp, Ne.symm hp]
  · rw [if_neg hs]
    refine (he side).congr fun p => ?_
    rw [queue_append, if_neg fun e => hs e.2.symm, List.append_nil]

theorem setShares (he : Exact l) (ref : OrderRef) (n : Shares) : Exact (l.setShares ref n) := by
  intro side
  refine (he side).congr fun p => ?_
  rw [queue_setShares, ne_eq, ne_eq, List.map_eq_nil_iff]

/-- When the queue at the cached price empties the price is looked for anew; as long
as it does not, the price stays the best. -/
theorem remove (he : Exact l) (hw : WF l) (hb : Bounded l) (hr : r ∈ l.orders) :
    Exact (l.remove r) := by
  have hw' := hw.remove hr
  intro side
  have hsub : ∀ q, (l.remove r).queue q side ≠ [] → l.queue q side ≠ [] := by
    intro q hq e
    rw [queue_remove, e] at hq
    exact hq rfl
  have hbest := remove_best l r side
  by_cases hc : side = r.isBuy ∧ (l.remove r).queue r.price r.isBuy = [] ∧
      l.best r.isBuy = some r.price
  · rw [if_pos hc] at hbest
    rw [hbest]
    exact hw'.isBest_levels (hb.remove r) side
  · rw [if_neg hc] at hbest
    have hold := he side
    cases hs : l.best side with
    | none =>
      rw [hs] at hbest hold
      rw [hbest]
      exact fun q hq => hold q (hsub q hq)
    | some p =>
      rw [hs] at hbest hold
      rw [hbest]
      exact ⟨hw'.best_live side p hbest, fun q hq => hold.2 q (hsub q hq)⟩

/-- **The cached best prices stay exact**, as long as no total wraps. -/
theorem change (he : Exact l) (hw : WF l) (hb : Bounded l) (hc : Change l l') : Exact l' := by
  cases hc with
  | stay => exact he
  | append r hpos href hlen => exact he.append r
  | setShares r n hr hn hlt => exact he.setShares _ _
  | remove r hr => exact he.remove hw hb hr
  | replace r r' hr hside htrader hpos href => exact (he.remove hw hb hr).append r'

end Exact
end Ledger
end Liquibook
