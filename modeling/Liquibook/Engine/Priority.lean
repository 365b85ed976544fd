import Liquibook.Engine.Reached
import Mathlib.Data.List.Flatten
import Mathlib.Data.List.TakeWhile

/-!
# Price-time priority

The orders of a side in order of priority: best price first, and in order of arrival
within a price.  When the cached best price is exact and no total wraps, matching and
the dry run visit the prices in this order, and what matching reaches is the first
part of the orders that cross and are eligible: up to the first price at which an
order is blocked.  Without self-trade prevention it is all of them.

## Main definitions

* `Ledger.priority`, `OrderBook.priority` — a side in order of priority.
* `OrderBook.crossing` — the orders of the opposite side that cross.
* `StpOff` — self-trade prevention does not apply to the order.

## Main results

* `reach_prefix_crossing` — **what matching reaches comes first in priority.**
* `StpOff.reach_eq_crossing` — **without self-trade prevention it is all that crosses.**
* `StpOff.le_sharesOf_reach` — the dry run then counts no more than matching reaches.
* `covers_iff_crossing` — the dry run covers the quantity when what crosses does.
-/

namespace Liquibook

open Lib OrderBook MatchingEngine

/-- Self-trade prevention does not apply to the order. -/
def StpOff (preventSelfTrade : Bool) (order : IncomingOrder) : Prop :=
  preventSelfTrade = false ∨ order.traderId = 0

/-- A side in order of priority: the queues of the prices, best price first. -/
def priorityOf (side : Bool) (prices : List Price4) (queue : Price4 → List Resting) :
    List Resting :=
  (rank (fun p q => better side p q = true) prices).flatMap queue

/-- A side of the book in order of priority. -/
def OrderBook.priority (b : OrderBook) (side : Bool) : List Resting :=
  priorityOf side ((b.liveOrders.filter fun r => r.isBuy == side).map Resting.price)
    fun p => b.queueAt p side

/-- The orders that an incoming order crosses, in order of priority. -/
def OrderBook.crossing (b : OrderBook) (order : IncomingOrder) : List Resting :=
  (b.priority !order.isBuy).filter fun r => crosses order r.price

/-- A side of the ledger in order of priority. -/
def Ledger.priority (l : Ledger) (side : Bool) : List Resting :=
  priorityOf side (l.prices side) fun p => l.queue p side

/-- The orders that an incoming order crosses, in order of priority. -/
def Ledger.crossing (l : Ledger) (order : IncomingOrder) : List Resting :=
  (l.priority !order.isBuy).filter fun r => crosses order r.price

theorem OrderBook.Refines.priority_eq {b : OrderBook} {l : Ledger} (h : Refines b l)
    (side : Bool) : b.priority side = l.priority side := by
  unfold OrderBook.priority Ledger.priority priorityOf
  rw [funext fun p => h.queueAt_eq p side]
  congr 1
  refine rank_congr (ranking_better side) fun p => ?_
  exact ((h.liveOrders_perm.filter _).map _).mem_iff

theorem OrderBook.Refines.crossing_eq {b : OrderBook} {l : Ledger} (h : Refines b l)
    (order : IncomingOrder) : b.crossing order = l.crossing order := by
  rw [OrderBook.crossing, h.priority_eq]
  rfl

/-! ### Crossing prices -/

/-- What is better than a price that crosses crosses too. -/
theorem crosses_of_better {order : IncomingOrder} {p q : Price4} (hp : crosses order p = true)
    (hqp : better (!order.isBuy) q p = true) : crosses order q = true := by
  unfold crosses at hp ⊢
  cases hb : order.isBuy with
  | true =>
    rw [hb] at hp hqp
    have hlt := better_false_iff.mp hqp
    simp only [if_true, UInt32.lt_iff_toNat_lt, UInt32.le_iff_toNat_le, ge_iff_le] at *
    split at hp <;> simp_all
    omega
  | false =>
    rw [hb] at hp hqp
    have hlt := better_true_iff.mp hqp
    simp only [Bool.false_eq_true, if_false, UInt32.lt_iff_toNat_lt, UInt32.le_iff_toNat_le,
      ge_iff_le] at *
    split at hp <;> simp_all
    omega

theorem StpOff.eligibleFor {preventSelfTrade : Bool} {order : IncomingOrder}
    (h : StpOff preventSelfTrade order) (r : Resting) :
    Depth.eligibleFor preventSelfTrade order r = true := by
  have hoff : (!preventSelfTrade || order.traderId == 0) = true := by
    rcases h with h | h <;> simp [h]
  rw [Depth.eligibleFor, eligible, if_pos hoff]

namespace Ledger

variable {l : Ledger} {preventSelfTrade : Bool} {order : IncomingOrder} {r : Resting} {side : Bool}

theorem mem_priority : r ∈ l.priority side ↔ r ∈ l.orders ∧ r.isBuy = side := by
  unfold priority priorityOf
  rw [List.mem_flatMap]
  constructor
  · rintro ⟨p, -, hr⟩
    exact ⟨(mem_queue.mp hr).1, (mem_queue.mp hr).2.2⟩
  · rintro ⟨hr, rfl⟩
    refine ⟨r.price, mem_rank.mpr (mem_prices.mpr ?_), mem_queue_self hr⟩
    exact List.ne_nil_of_mem (mem_queue_self hr)

/-- A side in order of priority is the side, reordered. -/
theorem WF.priority_perm (h : WF l) (side : Bool) :
    (l.priority side).Perm (l.orders.filter fun r => r.isBuy == side) := by
  -- an order is in the queue of its own price only
  have hnd : (l.priority side).Nodup := by
    unfold priority priorityOf
    rw [List.nodup_flatMap]
    refine ⟨fun p _ => h.orders_nodup.filter _, (nodup_rank _ _).pairwise_of_forall_ne ?_⟩
    intro p _ q _ hpq r hrp hrq
    exact hpq ((mem_queue.mp hrp).2.1.symm.trans (mem_queue.mp hrq).2.1)
  refine (List.perm_ext_iff_of_nodup hnd (h.orders_nodup.filter _)).mpr fun r => ?_
  rw [mem_priority, List.mem_filter, beq_iff_eq]

theorem mem_crossing : r ∈ l.crossing order ↔
    r ∈ l.orders ∧ r.isBuy = !order.isBuy ∧ crosses order r.price = true := by
  rw [crossing, List.mem_filter, mem_priority, and_assoc]

/-! ### The reach along prices in order of priority -/

/-- The orders at a price, filtered by price. -/
theorem filter_queue_price (l : Ledger) (f : Price4 → Bool) (p : Price4) (side : Bool) :
    (l.queue p side).filter (fun r => f r.price) = if f p then l.queue p side else [] := by
  split
  · next hf =>
    refine List.filter_eq_self.mpr fun r hr => ?_
    rw [(mem_queue.mp hr).2.1]
    exact hf
  · next hf =>
    refine List.filter_eq_nil_iff.mpr fun r hr => ?_
    rw [(mem_queue.mp hr).2.1]
    exact hf

theorem filter_queue_crosses (l : Ledger) (order : IncomingOrder) (p : Price4) (side : Bool) :
    (l.queue p side).filter (fun r => crosses order r.price) =
      if crosses order p then l.queue p side else [] := filter_queue_price l (crosses order) p side

/-- The queues of some prices, filtered by price, are the queues of fewer prices. -/
theorem filter_flatMap_queue (l : Ledger) (f : Price4 → Bool) (side : Bool) (ps : List Price4) :
    (ps.flatMap fun p => l.queue p side).filter (fun r => f r.price) =
      (ps.filter f).flatMap fun p => l.queue p side := by
  induction ps with
  | nil => rfl
  | cons p ps ih =>
    rw [List.flatMap_cons, List.filter_append, filter_queue_price, ih, List.filter_cons]
    split
    · rw [List.flatMap_cons]
    · rw [List.nil_append]

/-- What is reached along a list of prices is the first part of what crosses and is
eligible there. -/
theorem reachAlong_prefix : ∀ ps : List Price4,
    (l.depth !order.isBuy).reachAlong preventSelfTrade order ps <+:
      ((ps.flatMap fun p => l.queue p !order.isBuy).filter
        fun r => crosses order r.price).filter (Depth.eligibleFor preventSelfTrade order) := by
  intro ps
  induction ps with
  | nil => exact List.nil_prefix
  | cons p ps ih =>
    rw [Depth.reachAlong, List.flatMap_cons, List.filter_append, filter_queue_crosses,
      List.filter_append]
    change (if crosses order p = true then
      (l.queue p !order.isBuy).filter _ ++ (if (l.queue p !order.isBuy).all _ = true then _ else _)
      else []) <+: _
    split
    · refine List.prefix_append_right_inj _ |>.mpr ?_
      split
      · exact ih
      · exact List.nil_prefix
    · exact List.nil_prefix

/-- Along prices in order of priority everything that crosses is reached, if nothing
is blocked. -/
theorem reachAlong_eq (helig : ∀ r, Depth.eligibleFor preventSelfTrade order r = true) :
    ∀ {ps : List Price4}, ps.Pairwise (fun p q => better (!order.isBuy) p q = true) →
      (l.depth !order.isBuy).reachAlong preventSelfTrade order ps =
        (ps.flatMap fun p => l.queue p !order.isBuy).filter fun r => crosses order r.price := by
  intro ps
  induction ps with
  | nil => exact fun _ => rfl
  | cons p ps ih =>
    intro hpw
    rw [List.pairwise_cons] at hpw
    rw [Depth.reachAlong, List.flatMap_cons, List.filter_append, filter_queue_crosses]
    change (if crosses order p = true then
      (l.queue p !order.isBuy).filter _ ++ (if (l.queue p !order.isBuy).all _ = true then _ else _)
      else []) = _
    by_cases hc : crosses order p = true
    · rw [if_pos hc, if_pos hc, List.filter_eq_self.mpr fun r _ => helig r,
        if_pos (List.all_eq_true.mpr fun r _ => helig r), ih hpw.2]
    · -- the prices behind one that does not cross do not cross either
      rw [if_neg hc, if_neg hc, List.nil_append]
      refine (List.filter_eq_nil_iff.mpr fun r hr hcr => hc ?_).symm
      obtain ⟨q, hq, hrq⟩ := List.mem_flatMap.mp hr
      rw [(mem_queue.mp hrq).2.1] at hcr
      exact crosses_of_better hcr (hpw.1 q hq)

/-! ### Exact ledgers -/

/-- Without wrapping, the levels are the prices with orders. -/
theorem WF.levels_eq (h : WF l) (hb : Bounded l) (side : Bool) :
    (l.depth side).levels = rank (fun p q => better side p q = true) (l.prices side) := by
  refine eq_of_pairwise_better (ranking_better side) (pairwise_levels l side)
    (pairwise_rank (ranking_better side) _) fun p => ?_
  rw [mem_levels, mem_rank, mem_prices]
  exact h.total_ne_zero_iff hb

/-- An exact cached price is the first of the levels. -/
theorem Exact.best_eq (he : Exact l) (h : WF l) (hb : Bounded l) (side : Bool) :
    l.best side = (l.depth side).levels.head? :=
  (he side).unique (ranking_better side) (h.isBest_levels hb side)

/-- With an exact cached price, matching visits the levels in order. -/
theorem Exact.route_eq (he : Exact l) (h : WF l) (hb : Bounded l) (side : Bool) :
    (l.depth side).route = (l.depth side).levels := by
  rw [route_depth, he.best_eq h hb]
  have hnd := nodup_levels l side
  cases hl : (l.depth side).levels with
  | nil => rfl
  | cons p ps =>
    rw [hl, List.nodup_cons] at hnd
    dsimp only [List.head?_cons]
    rw [List.filter_cons, if_neg (by simp),
      List.filter_eq_self.mpr fun q hq => decide_eq_true (ne_of_mem_of_not_mem hq hnd.1)]

/-- With an exact cached price, so does the dry run. -/
theorem Exact.dryRoute_eq (he : Exact l) (h : WF l) (hb : Bounded l) (side : Bool) :
    (l.depth side).dryRoute = (l.depth side).levels := by
  rw [dryRoute_depth, he.best_eq h hb]
  have hpw := pairwise_levels l side
  cases hl : (l.depth side).levels with
  | nil => rfl
  | cons p ps =>
    rw [hl, List.pairwise_cons] at hpw
    dsimp only [List.head?_cons]
    rw [List.filter_cons, if_neg ((ranking_better side).irrefl p),
      List.filter_eq_self.mpr fun q hq => hpw.1 q hq]

/-- **What matching reaches comes first in priority** among what crosses and is
eligible. -/
theorem Exact.reach_prefix_crossing (he : Exact l) (h : WF l) (hb : Bounded l)
    (preventSelfTrade : Bool) (order : IncomingOrder) :
    l.reach preventSelfTrade order <+:
      (l.crossing order).filter (Depth.eligibleFor preventSelfTrade order) := by
  rw [reach, Depth.reach, he.route_eq h hb, h.levels_eq hb]
  exact reachAlong_prefix _

/-- **Without self-trade prevention** matching reaches all that crosses. -/
theorem Exact.reach_eq_crossing (he : Exact l) (h : WF l) (hb : Bounded l)
    (hoff : StpOff preventSelfTrade order) :
    l.reach preventSelfTrade order = l.crossing order := by
  rw [reach, Depth.reach, he.route_eq h hb, h.levels_eq hb]
  exact reachAlong_eq hoff.eligibleFor (pairwise_rank (ranking_better _) _)

/-! ### The dry run without self-trade prevention -/

/-- The counter of the dry run never shows more than there is. -/
theorem toNat_sum_le (rs : List Resting) : (rs.map Resting.shares).sum.toNat ≤ sharesOf rs := by
  rw [toNat_sum_shares]
  exact Nat.mod_le _ _

/-- **Without self-trade prevention the dry run counts no more than matching
reaches**, in any state. -/
theorem le_sharesOf_reach (hoff : StpOff preventSelfTrade order)
    (hc : (l.depth !order.isBuy).Covers preventSelfTrade order) :
    order.quantity.toNat ≤ sharesOf (l.reach preventSelfTrade order) := by
  obtain ⟨ps, hps, hcr, hle⟩ := hc
  refine (UInt32.le_iff_toNat_le.mp hle).trans ((toNat_sum_le _).trans (sharesOf_sublist ?_))
  have helig : ∀ p, (l.depth !order.isBuy).eligibleAt preventSelfTrade order p =
      l.queue p !order.isBuy := fun p => List.filter_eq_self.mpr fun r _ => hoff.eligibleFor r
  rw [funext helig, reach_eq]
  rw [dryRoute_depth] at hps
  cases hb : l.best !order.isBuy with
  | none =>
    rw [hb] at hps
    rw [List.prefix_nil.mp hps]
    exact List.nil_sublist _
  | some p =>
    rw [hb] at hps
    cases ps with
    | nil => exact List.nil_sublist _
    | cons q ps =>
      obtain ⟨rfl, hps⟩ := List.cons_prefix_cons.mp hps
      dsimp only
      rw [if_pos (hcr q List.mem_cons_self), List.filter_eq_self.mpr fun r _ => hoff.eligibleFor r,
        if_pos (List.all_eq_true.mpr fun r _ => hoff.eligibleFor r), List.flatMap_cons]
      refine List.Sublist.append_left ?_ _
      rw [reachAlong_eq hoff.eligibleFor ((pairwise_levels l _).sublist List.filter_sublist)]
      -- the levels worse than the cached price are among those different from it
      have hsub : ps.Sublist ((l.depth !order.isBuy).levels.filter fun x => decide (x ≠ q)) := by
        refine hps.sublist.trans (List.monotone_filter_right _ fun x hx => decide_eq_true ?_)
        rintro rfl
        exact (ranking_better _).irrefl x hx
      have hself : (ps.flatMap fun p => l.queue p !order.isBuy) =
          (ps.flatMap fun p => l.queue p !order.isBuy).filter fun r => crosses order r.price := by
        refine (List.filter_eq_self.mpr fun r hr => ?_).symm
        obtain ⟨x, hx, hrx⟩ := List.mem_flatMap.mp hr
        rw [(mem_queue.mp hrx).2.1]
        exact hcr x (List.mem_cons_of_mem _ hx)
      rw [hself]
      exact (hsub.flatMap _).filter _

/-- **The dry run covers the quantity when what crosses does**, as long as what
crosses fits in a share count. -/
theorem Exact.covers_iff_crossing (he : Exact l) (h : WF l) (hb : Bounded l)
    (hoff : StpOff preventSelfTrade order) (hsum : sharesOf (l.crossing order) < 2 ^ 32) :
    (l.depth !order.isBuy).Covers preventSelfTrade order ↔
      order.quantity.toNat ≤ sharesOf (l.crossing order) := by
  constructor
  · intro hc
    rw [← he.reach_eq_crossing h hb hoff]
    exact le_sharesOf_reach hoff hc
  · intro hle
    -- nothing is blocked, so matching and the dry run both stop at the first price that
    -- does not cross
    have hfirst : ∀ ps : List Price4,
        (l.depth !order.isBuy).reachAlong preventSelfTrade order ps =
          (ps.takeWhile (crosses order)).flatMap fun p =>
            (l.depth !order.isBuy).eligibleAt preventSelfTrade order p := by
      intro ps
      induction ps with
      | nil => rfl
      | cons p ps ih =>
        rw [Depth.reachAlong, List.takeWhile_cons]
        by_cases hc : crosses order p = true
        · rw [hc, if_pos rfl, if_pos (List.all_eq_true.mpr fun r _ => hoff.eligibleFor r), ih]
          rfl
        · rw [if_neg hc, if_neg hc]
          rfl
    -- all levels that cross cover the quantity, and they are the first ones
    refine ⟨(l.depth !order.isBuy).levels.takeWhile (crosses order), ?_, ?_, ?_⟩
    · rw [he.dryRoute_eq h hb]
      exact List.takeWhile_prefix _
    · exact fun p hp => List.mem_takeWhile_imp hp
    · rw [← hfirst, ← he.route_eq h hb]
      change order.quantity ≤ ((l.reach preventSelfTrade order).map Resting.shares).sum
      rw [he.reach_eq_crossing h hb hoff, UInt32.le_iff_toNat_le, toNat_sum_shares,
        Nat.mod_eq_of_lt hsum]
      exact hle

end Ledger
end Liquibook
