import Liquibook.Engine.Outcome

/-!
# Skipping without disturbing

With self-trade prevention the orders of the trader of an incoming order are passed
over: they keep their shares and their places in the queues, and no fill names them.
The other orders are filled in order of priority.  A blocked order also keeps the loop
from leaving its price, so no order is filled while one is left at a better price,
blocked or not.

## Main definitions

* `FilledInPriority` — fills in order of priority, each behind all better prices.

## Main results

* `pairwise_priority` — what order of priority means for two orders.
* `mem_reachAlong_of_better` — matching gets to a price when all is eligible before it.
* `submit_skips_blocked` — **blocked orders stay, the others are filled in priority.**
-/

namespace Liquibook

open Lib OrderBook MatchingEngine

/-- The fills of an incoming order go through the orders of other traders in order of
priority. -/
structure FilledInPriority (b : OrderBook) (order : IncomingOrder) (fs : List (Resting × ℕ)) :
    Prop where
  /-- A fill is against a live order of another trader. -/
  hit : ∀ f ∈ fs, f.1 ∈ b.liveOrders ∧ f.1.isBuy = (!order.isBuy) ∧
    f.1.traderId ≠ order.traderId ∧ crosses order f.1.price = true ∧ 0 < f.2 ∧
    f.2 ≤ f.1.shares.toNat
  /-- No such order is passed over. -/
  first : fs.map Prod.fst <+:
    (b.crossing order).filter fun r => decide (r.traderId ≠ order.traderId)
  /-- The price worsens from level to level, and a level is filled in order of arrival. -/
  ordered : fs.Pairwise fun f g => better (!order.isBuy) f.1.price g.1.price = true ∨
    f.1.price = g.1.price ∧ [f.1, g.1].Sublist (b.queueAt f.1.price !order.isBuy)
  /-- All orders but the last are used up. -/
  whole : ∀ f ∈ fs.dropLast, f.2 = f.1.shares.toNat
  /-- What was at a better price is used up before. -/
  cleared : ∀ gs f hs, fs = gs ++ f :: hs → ∀ r ∈ b.liveOrders, r.isBuy = (!order.isBuy) →
    better (!order.isBuy) r.price f.1.price = true → (r, r.shares.toNat) ∈ gs

variable {order : IncomingOrder}

/-- With self-trade prevention the orders of other traders are eligible. -/
theorem eligibleFor_iff_ne (htrader : order.traderId ≠ 0) (r : Resting) :
    Depth.eligibleFor true order r = true ↔ r.traderId ≠ order.traderId := by
  rw [Depth.eligibleFor, eligible, if_neg (by simpa using htrader), bne_iff_ne]

namespace Ledger

variable {l : Ledger} {preventSelfTrade : Bool} {side : Bool}

/-- **In order of priority**: the first of two orders is at a better price, or it stands
before the other in one queue. -/
theorem pairwise_priority (l : Ledger) (side : Bool) :
    (l.priority side).Pairwise fun r s => better side r.price s.price = true ∨
      r.price = s.price ∧ [r, s].Sublist (l.queue r.price side) := by
  unfold priority priorityOf
  rw [List.pairwise_flatMap]
  constructor
  · intro p _
    refine List.pairwise_iff_forall_sublist.mpr fun {r s} hrs => Or.inr ?_
    have hr := (mem_queue.mp (hrs.subset List.mem_cons_self)).2.1
    have hs := (mem_queue.mp (hrs.subset (List.mem_cons_of_mem _ List.mem_cons_self))).2.1
    rw [hr, hs]
    exact ⟨rfl, hrs⟩
  · refine (pairwise_rank (ranking_better side) _).imp fun {p q} hpq r hr s hs => Or.inl ?_
    rw [(mem_queue.mp hr).2.1, (mem_queue.mp hs).2.1]
    exact hpq

/-- **Matching gets to a price** when everything at the better prices is eligible, and
then it reaches all of it. -/
theorem mem_reachAlong_of_better {r x : Resting} {p : Price4} (hr : r ∈ l.queue p !order.isBuy) :
    ∀ {ps : List Price4}, ps.Pairwise (fun p q => better (!order.isBuy) p q = true) → p ∈ ps →
      x ∈ (l.depth !order.isBuy).reachAlong preventSelfTrade order ps →
      better (!order.isBuy) p x.price = true →
      r ∈ (l.depth !order.isBuy).reachAlong preventSelfTrade order ps := by
  have hrank := ranking_better !order.isBuy
  intro ps
  induction ps with
  | nil => intro _ hp; cases hp
  | cons q qs ih =>
    intro hpw hp hx hbetter
    rw [List.pairwise_cons] at hpw
    rw [Depth.reachAlong] at hx ⊢
    split at hx
    · next hc =>
      rw [if_pos hc]
      rcases List.mem_append.mp hx with hx | hx
      · -- `x` rests at the best price of all, so there is none better
        have hxq : x.price = q := (mem_queue.mp (List.mem_filter.mp hx).1).2.1
        rw [hxq] at hbetter
        rcases List.mem_cons.mp hp with rfl | hp
        · exact absurd hbetter (hrank.irrefl p)
        · exact absurd hbetter (hrank.asymm (hpw.1 p hp))
      · split at hx
        · next hall =>
          rcases List.mem_cons.mp hp with rfl | hp
          · exact List.mem_append_left _
              (List.mem_filter.mpr ⟨hr, List.all_eq_true.mp hall r hr⟩)
          · exact List.mem_append_right _ (by rw [if_pos hall]; exact ih hpw.2 hp hx hbetter)
        · cases hx
    · cases hx

/-- An order at a better price than one that is reached is reached. -/
theorem Exact.mem_reach_of_better (he : Exact l) (h : WF l) (hb : Bounded l) {r x : Resting}
    (hr : r ∈ l.orders) (hside : r.isBuy = !order.isBuy)
    (hx : x ∈ l.reach preventSelfTrade order)
    (hbetter : better (!order.isBuy) r.price x.price = true) :
    r ∈ l.reach preventSelfTrade order := by
  have hqueue : r ∈ l.queue r.price !order.isBuy := mem_queue.mpr ⟨hr, rfl, hside⟩
  rw [reach, Depth.reach, he.route_eq h hb] at hx ⊢
  refine mem_reachAlong_of_better hqueue (pairwise_levels l _) ?_ hx hbetter
  rw [mem_levels, h.total_ne_zero_iff hb]
  exact List.ne_nil_of_mem hqueue

/-- What matching reaches is in order of priority. -/
theorem Exact.pairwise_reach (he : Exact l) (h : WF l) (hb : Bounded l) (preventSelfTrade : Bool)
    (order : IncomingOrder) : (l.reach preventSelfTrade order).Pairwise fun r s =>
      better (!order.isBuy) r.price s.price = true ∨
        r.price = s.price ∧ [r, s].Sublist (l.queue r.price !order.isBuy) :=
  (l.pairwise_priority !order.isBuy).sublist
    ((he.reach_prefix_crossing h hb preventSelfTrade order).sublist.trans
      (List.filter_sublist.trans List.filter_sublist))

/-- **Before an order is filled** the orders at better prices are used up. -/
theorem Exact.cleared_fills (he : Exact l) (h : WF l) (hb : Bounded l) {q : ℕ}
    {gs hs : List (Resting × ℕ)} {f : Resting × ℕ}
    (hsplit : l.fills preventSelfTrade order q = gs ++ f :: hs) {r : Resting} (hr : r ∈ l.orders)
    (hside : r.isBuy = !order.isBuy)
    (hbetter : better (!order.isBuy) r.price f.1.price = true) : (r, r.shares.toNat) ∈ gs := by
  have hrank := ranking_better !order.isBuy
  obtain ⟨rest, hrest⟩ : (l.fills preventSelfTrade order q).map Prod.fst <+:
      l.reach preventSelfTrade order := map_fst_greedy_prefix Resting.weight _ _
  rw [hsplit, List.map_append, List.map_cons, List.append_assoc, List.cons_append] at hrest
  have hf : f.1 ∈ l.reach preventSelfTrade order := by
    rw [← hrest]
    exact List.mem_append_right _ List.mem_cons_self
  have hreached := he.mem_reach_of_better h hb hr hside hf hbetter
  have hord := he.pairwise_reach h hb preventSelfTrade order
  rw [← hrest, List.pairwise_append, List.pairwise_cons] at hord
  rw [← hrest] at hreached
  -- `r` is reached, and what follows `f` in the reach is at no better price
  rcases List.mem_append.mp hreached with hin | hin
  · obtain ⟨g, hg, rfl⟩ := List.mem_map.mp hin
    have hall : g.2 = g.1.shares.toNat := greedy_before hsplit g hg
    rw [← hall]
    exact hg
  · rcases List.mem_cons.mp hin with rfl | hin
    · exact absurd hbetter (hrank.irrefl _)
    · rcases hord.2.1.1 r hin with hworse | ⟨heq, -⟩
      · exact absurd hbetter (hrank.asymm hworse)
      · rw [heq] at hbetter
        exact absurd hbetter (hrank.irrefl _)

end Ledger

/-! ### The fills -/

variable {b : OrderBook} {l : Ledger}

/-- What is taken from the reach is taken in order of priority. -/
theorem filledInPriority_fills (h : Refines b l) (hbound : l.Bounded) (hexact : l.Exact)
    (htrader : order.traderId ≠ 0) (q : ℕ) : FilledInPriority b order (l.fills true order q) := by
  have hpre : (l.fills true order q).map Prod.fst <+: l.reach true order :=
    map_fst_greedy_prefix Resting.weight _ _
  have hcross := hexact.reach_prefix_crossing h.wf hbound true order
  refine ⟨?_, ?_, ?_, ?_, ?_⟩
  · intro f hf
    obtain ⟨hmem, hside, hc, helig⟩ := Ledger.mem_reach (mem_greedy hf).1
    have ht := h.wf.takes_fills true order q
    exact ⟨h.mem_liveOrders.mpr hmem, hside, (eligibleFor_iff_ne htrader _).mp helig, hc,
      ht.pos f hf, ht.le f hf⟩
  · have hsame : (l.crossing order).filter (Depth.eligibleFor true order) =
        (l.crossing order).filter fun r => decide (r.traderId ≠ order.traderId) := by
      refine List.filter_congr fun r _ => ?_
      rw [Bool.eq_iff_iff, eligibleFor_iff_ne htrader, decide_eq_true_eq]
    rw [h.crossing_eq, ← hsame]
    exact hpre.trans hcross
  · simp only [h.queueAt_eq]
    exact List.pairwise_map.mp
      ((hexact.pairwise_reach h.wf hbound true order).sublist hpre.sublist)
  · intro f hf
    have hne : l.fills true order q ≠ [] := by
      rintro e
      rw [e] at hf
      cases hf
    exact greedy_before (List.dropLast_append_getLast hne).symm f hf
  · intro gs f hs hsplit r hr hside hbetter
    exact hexact.cleared_fills h.wf hbound hsplit (h.mem_liveOrders.mp hr) hside hbetter

theorem filledInPriority_taking (h : Refines b l) (hbound : l.Bounded) (hexact : l.Exact)
    (htrader : order.traderId ≠ 0) : FilledInPriority b order (l.taking true order) := by
  unfold Ledger.taking
  split
  · refine ⟨by simp, List.nil_prefix, List.Pairwise.nil, by simp, ?_⟩
    intro gs f hs e
    exact absurd e.symm (List.append_ne_nil_of_right_ne_nil _ (List.cons_ne_nil _ _))
  · exact filledInPriority_fills h hbound hexact htrader _

/-- **Skipping without disturbing.**  With self-trade prevention the resting orders of the
trader keep their shares and stand in every queue in the order they did, no fill names
them, and the fills go through the other orders in order of priority. -/
theorem submit_skips_blocked (hb : Reached (fun _ => True) LevelSumsBounded b)
    (htrader : order.traderId ≠ 0) :
    ∃ events b' fs, submit true b order = some (events, b') ∧
      fillsOf events = fs.map (fillEvent order) ∧ FilledInPriority b order fs ∧
      (∀ r ∈ b.liveOrders, r.isBuy = (!order.isBuy) → r.traderId = order.traderId →
        r ∈ b'.liveOrders ∧ ∀ e ∈ fillsOf events, e.restingRef ≠ r.orderRef) ∧
      ∀ p, (b'.queueAt p !order.isBuy).filter (fun r => r.traderId == order.traderId) =
        (b.queueAt p !order.isBuy).filter fun r => r.traderId == order.traderId := by
  obtain ⟨l, h, hbound, hexact⟩ := hb.exact fun _ => id
  obtain ⟨b₁, b', hsub, -, -, -, hperm, hqueue⟩ := h.submit_seen true order rfl
  have hprio := filledInPriority_taking h hbound hexact htrader
  obtain ⟨fs, hfs⟩ : ∃ fs, fs = l.taking true order := ⟨_, rfl⟩
  rw [← hfs] at hsub hperm hqueue hprio
  -- no fill names an order of the trader, so nothing is taken from it
  have hother : ∀ r ∈ l.orders, r.traderId = order.traderId →
      ∀ f ∈ fs, f.1.orderRef ≠ r.orderRef := by
    intro r hr hown f hf href
    obtain ⟨hlive, -, hne, -⟩ := hprio.hit f hf
    rw [h.wf.eq_of_ref (h.mem_liveOrders.mp hlive) hr href] at hne
    exact hne hown
  have hsettle : ∀ r ∈ l.orders, r.traderId = order.traderId → settle (taken fs) r = some r := by
    intro r hr hown
    refine Ledger.settle_of_zero (h.wf.positive r hr) (Ledger.taken_eq_zero fun hmem => ?_)
    obtain ⟨f, hf, href⟩ := List.mem_map.mp hmem
    exact hother r hr hown f hf href
  refine ⟨_, b', fs, hsub, fillsOf_events _ _ _, hprio, ?_, ?_⟩
  · intro r hr hside hown
    have hr' := h.mem_liveOrders.mp hr
    constructor
    · exact hperm.mem_iff.mpr (List.mem_append_left _
        (List.mem_filterMap.mpr ⟨r, hr, hsettle r hr' hown⟩))
    · rw [fillsOf_events]
      intro e he
      obtain ⟨f, hf, rfl⟩ := List.mem_map.mp he
      exact hother r hr' hown f hf
  · intro p
    rw [hqueue, filter_restedOf_opposite, List.append_nil, filter_filterMap_settle, h.queueAt_eq]
    · refine (List.filterMap_congr fun r hr => ?_).trans List.filterMap_some
      obtain ⟨hr, hown⟩ := List.mem_filter.mp hr
      exact hsettle r (Ledger.mem_queue.mp hr).1 (beq_iff_eq.mp hown)
    · intro r r' hs
      rw [(settle_eq_some hs).2.2.2]

/-- Asks of traders 0, 9 and 0 at 1000, and of trader 0 at 1001. -/
def skippedBook : OrderBook :=
  (OrderBook.new 1000 3 8).run [.add 1 1000 30 false 0, .add 2 1000 40 false 9,
    .add 3 1000 50 false 0, .add 4 1001 60 false 0]

theorem reached_skippedBook : Reached (fun _ => True) LevelSumsBounded skippedBook :=
  reached_run_bounded (by decide +kernel)

/-- Trader 9 buys 200 shares, and its own order of 40 stays where it is. -/
theorem submit_skips_blocked_middle :
    ∃ events b', submit true skippedBook ⟨5, 1001, 200, true, .limit, 9⟩ = some (events, b') ∧
      ⟨2, 1000, 40, false, 9⟩ ∈ b'.liveOrders ∧
      (b'.queueAt 1000 false).filter (fun r => r.traderId == 9) = [⟨2, 1000, 40, false, 9⟩] := by
  obtain ⟨events, b', fs, hsub, -, -, hkept, hqueue⟩ :=
    @submit_skips_blocked ⟨5, 1001, 200, true, .limit, 9⟩ _ reached_skippedBook (by decide)
  refine ⟨events, b', hsub, ?_, (hqueue 1000).trans ?_⟩
  · exact (hkept _ (by decide +kernel) rfl rfl).1
  · decide +kernel

end Liquibook
