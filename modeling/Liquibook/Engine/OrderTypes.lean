import Liquibook.Engine.Commuting

/-!
# What the order types have in common

The four order types are matched by one loop.  Which orders it meets depends on the prices
that cross and on who is eligible, and on nothing else of the incoming order.  So the types
differ only in what becomes of the remainder: an immediate-or-cancel order is a limit order
whose remainder is taken off again, a market order is an immediate-or-cancel one at the most
generous price, and a fill-or-kill order is an immediate-or-cancel one that is let through.
In the same way self-trade prevention does not show unless the trader has orders that cross.

## Main definitions

* `MatchAlike` — two incoming orders that matching cannot tell apart.

## Main results

* `Refines.submit_congr` — what matching cannot tell apart has the same outcome.
* `WF.alike_append_remove` — an order that comes and goes leaves no trace.
* `order_types_differ_in_remainder` — **the types differ only in the remainder.**
* `prevention_invisible` — **self-trade prevention shows only to traders with orders that
  cross.**
-/

namespace Liquibook

open Lib OrderBook MatchingEngine

/-! ### Orders that matching cannot tell apart -/

/-- Matching cannot tell the two orders apart: they take the same from the same orders. -/
structure MatchAlike (l : Ledger) (preventSelfTrade preventSelfTrade' : Bool)
    (order order' : IncomingOrder) : Prop where
  orderRef : order.orderRef = order'.orderRef
  isBuy : order.isBuy = order'.isBuy
  quantity : order.quantity = order'.quantity
  crosses : ∀ p, crosses order p = crosses order' p
  /-- Who is eligible is the same among the orders that cross. -/
  eligible : ∀ p, MatchingEngine.crosses order p = true → ∀ r ∈ l.queue p !order.isBuy,
    Depth.eligibleFor preventSelfTrade order r = Depth.eligibleFor preventSelfTrade' order' r

namespace MatchAlike

variable {l : Ledger} {preventSelfTrade preventSelfTrade' : Bool} {order order' : IncomingOrder}

/-- They reach the same orders. -/
theorem reach_eq (h : MatchAlike l preventSelfTrade preventSelfTrade' order order') :
    l.reach preventSelfTrade order = l.reach preventSelfTrade' order' := by
  have halong : ∀ ps : List Price4,
      (l.depth !order.isBuy).reachAlong preventSelfTrade order ps =
        (l.depth !order.isBuy).reachAlong preventSelfTrade' order' ps := by
    intro ps
    induction ps with
    | nil => rfl
    | cons p ps ih =>
      rw [Depth.reachAlong, Depth.reachAlong, ← h.crosses p, ih]
      by_cases hc : MatchingEngine.crosses order p = true
      · have hfilter : ((l.depth !order.isBuy).queue p).filter
            (Depth.eligibleFor preventSelfTrade order) =
              ((l.depth !order.isBuy).queue p).filter
                (Depth.eligibleFor preventSelfTrade' order') :=
          List.filter_congr (h.eligible p hc)
        have hall : ((l.depth !order.isBuy).queue p).all
            (Depth.eligibleFor preventSelfTrade order) =
              ((l.depth !order.isBuy).queue p).all
                (Depth.eligibleFor preventSelfTrade' order') := by
          rw [Bool.eq_iff_iff, List.all_eq_true, List.all_eq_true]
          exact forall₂_congr fun r hr => by rw [h.eligible p hc r hr]
        rw [if_pos hc, if_pos hc, hfilter, hall]
      · rw [if_neg hc, if_neg hc]
  rw [Ledger.reach, Ledger.reach, Depth.reach, Depth.reach, ← h.isBuy]
  exact halong _

/-- The dry run counts the same. -/
theorem available_eq (h : MatchAlike l preventSelfTrade preventSelfTrade' order order') :
    l.available preventSelfTrade order = l.available preventSelfTrade' order' := by
  have halong : ∀ (ps : List Price4) (total : Shares),
      (l.depth !order.isBuy).dryRun preventSelfTrade order ps total =
        (l.depth !order.isBuy).dryRun preventSelfTrade' order' ps total := by
    intro ps
    induction ps with
    | nil => exact fun _ => rfl
    | cons p ps ih =>
      intro total
      rw [Depth.dryRun, Depth.dryRun, ← h.crosses p, ← h.quantity]
      by_cases hc : MatchingEngine.crosses order p = true
      · have heligible : (l.depth !order.isBuy).eligibleAt preventSelfTrade order p =
            (l.depth !order.isBuy).eligibleAt preventSelfTrade' order' p :=
          List.filter_congr (h.eligible p hc)
        rw [if_pos hc, if_pos hc, heligible, ih]
      · rw [if_neg hc, if_neg hc]
  rw [Ledger.available, Ledger.available, ← h.isBuy]
  exact halong _ _

/-- They take the same, if both are fill-or-kill or none is. -/
theorem taking_eq (h : MatchAlike l preventSelfTrade preventSelfTrade' order order')
    (htype : order.type = .fok ↔ order'.type = .fok) :
    l.taking preventSelfTrade order = l.taking preventSelfTrade' order' := by
  unfold Ledger.taking Ledger.fills
  rw [h.available_eq, h.reach_eq, h.quantity]
  exact if_congr (and_congr_left fun _ => htype) rfl rfl

theorem fillEvent_eq (h : MatchAlike l preventSelfTrade preventSelfTrade' order order') :
    fillEvent order = fillEvent order' := by
  funext f
  rw [fillEvent, fillEvent, h.orderRef]

end MatchAlike

/-- Replaying fills leads to one book. -/
theorem Replays.unique {b b' b'' : OrderBook} {es : List FillEvent} (h : Replays b es b')
    (h' : Replays b es b'') : b' = b'' := by
  induction h with
  | nil b =>
    cases h' with
    | nil => rfl
  | cons r _ _ _ _ _ hexec _ ih =>
    cases h' with
    | cons r' _ _ _ _ _ hexec' hrest' =>
      rw [hexec, Prod.mk.injEq] at hexec'
      obtain ⟨-, rfl⟩ := hexec'
      exact ih hrest'

namespace OrderBook.Refines

variable {b : OrderBook} {l : Ledger} {preventSelfTrade preventSelfTrade' : Bool}
  {order order' : IncomingOrder}

/-- **What matching cannot tell apart has the same outcome**, if the remainder is settled in
the same way. -/
theorem submit_congr (h : Refines b l)
    (halike : MatchAlike l preventSelfTrade preventSelfTrade' order order')
    (htaking : l.taking preventSelfTrade order = l.taking preventSelfTrade' order')
    (hevents : ∀ n, remainderEvents order n = remainderEvents order' n)
    (hsettled : ∀ b₁ fs, settled b₁ order fs = settled b₁ order' fs) :
    MatchingEngine.submit preventSelfTrade b order =
      MatchingEngine.submit preventSelfTrade' b order' := by
  obtain ⟨b₁, b', hsubmit, hreplay, hb', -⟩ := h.submit preventSelfTrade order
  obtain ⟨b₁', b'', hsubmit', hreplay', hb'', -⟩ := h.submit preventSelfTrade' order'
  rw [halike.fillEvent_eq, htaking] at hreplay
  obtain rfl := hreplay.unique hreplay'
  rw [hsubmit, hsubmit', hb', hb'', l.submit_events, l.submit_events, halike.fillEvent_eq,
    htaking, hevents, halike.quantity, hsettled]

end OrderBook.Refines

/-! ### An order that comes and goes -/

/-- **An order that comes and goes leaves no trace**, if no total had wrapped before. -/
theorem Ledger.WF.alike_append_remove {l : Ledger} (hw : l.WF) (hb : l.Bounded) (he : l.Exact)
    {r : Resting} (hfree : l.find r.orderRef = none) : Ledger.Alike ((l.append r).remove r) l := by
  have hdrop : ((l.append r).drop r).orders = l.orders := by
    rw [Ledger.drop, Ledger.append, List.filter_append, List.filter_eq_self.mpr fun x hx =>
      decide_eq_true (Ledger.find_eq_none_iff.mp hfree x hx), List.filter_cons_of_neg (by simp),
      List.filter_nil, List.append_nil]
  have hqueue : ∀ p side, ((l.append r).remove r).queue p side = l.queue p side := by
    intro p side
    rw [Ledger.queue, Ledger.remove_orders, hdrop]
    rfl
  refine fun side => ⟨fun p => hqueue p side, ?_⟩
  rw [Ledger.remove_best, hqueue]
  by_cases hs : side = r.isBuy
  · subst hs
    split
    · -- the price is looked for anew among the levels there were before
      refine (((l.append r).remove r).isBest_levels r.isBuy).unique (ranking_better r.isBuy)
        ((he r.isBuy).congr fun p => ?_)
      rw [Ledger.total, hqueue]
      exact (hw.total_ne_zero_iff hb).symm
    · next hkeep =>
      by_cases hq : l.queue r.price r.isBuy = []
      · -- the order was not at the best price
        have hbest : (l.append r).best r.isBuy ≠ some r.price := fun e => hkeep ⟨rfl, hq, e⟩
        rw [Ledger.append_best, if_pos rfl] at hbest ⊢
        unfold improve at hbest ⊢
        split at hbest
        · exact absurd rfl hbest
        · next q hsome =>
          split at hbest
          · exact absurd rfl hbest
          · next hnot => rw [if_neg hnot, hsome]
      · -- others rest at its price
        refine (he.append r r.isBuy).unique (ranking_better r.isBuy)
          ((he r.isBuy).congr fun p => ?_)
        rw [Ledger.queue_append]
        split
        · next hp =>
          rw [← hp.1]
          simp [hq]
        · rw [List.append_nil]
  · rw [if_neg fun e => hs e.1, Ledger.append_best, if_neg hs]

/-! ### The order types -/

/-- The most generous price of a side. -/
def generousPrice (isBuy : Bool) : Price4 := if isBuy then 0xFFFFFFFF else 0

theorem crosses_ioc_fok (order : IncomingOrder) (p : Price4) :
    crosses { order with type := .fok } p = crosses { order with type := .ioc } p := rfl

theorem crosses_ioc_limit (order : IncomingOrder) (p : Price4) :
    crosses { order with type := .limit } p = crosses { order with type := .ioc } p := rfl

/-- Every price crosses the most generous one. -/
theorem crosses_market (order : IncomingOrder) (p : Price4) :
    crosses { order with type := .market } p =
      crosses { order with type := .ioc, price := generousPrice order.isBuy } p := by
  have hle : p ≤ 0xFFFFFFFF := by
    rw [UInt32.le_iff_toNat_le]
    exact Nat.le_of_lt_succ p.toNat_lt
  have hge : (0 : UInt32) ≤ p := by
    rw [UInt32.le_iff_toNat_le]
    exact Nat.zero_le _
  unfold crosses generousPrice
  cases order.isBuy
  · simp [hge]
  · simp [hle]

namespace OrderBook.Refines

variable {b : OrderBook} {l : Ledger} (preventSelfTrade : Bool) (order : IncomingOrder)

/-- A fill-or-kill order is killed, or let through as an immediate-or-cancel one. -/
theorem submit_fok (h : Refines b l) : ∃ available,
    MatchingEngine.availableLiquidity preventSelfTrade b { order with type := .fok } =
        some available ∧
      MatchingEngine.submit preventSelfTrade b { order with type := .fok } =
        if order.quantity ≠ 0 ∧ available < order.quantity then
          some ([.kill { orderRef := order.orderRef, unfilledQuantity := order.quantity }], b)
        else MatchingEngine.submit preventSelfTrade b { order with type := .ioc } := by
  have havailable := h.availableLiquidity preventSelfTrade { order with type := .fok }
  refine ⟨_, havailable, ?_⟩
  split
  · next hkill =>
    rw [MatchingEngine.submit, if_neg hkill.1, if_pos rfl, havailable, Option.bind_some,
      if_pos hkill.2]
  · next hpass =>
    have halike : MatchAlike l preventSelfTrade preventSelfTrade { order with type := .fok }
        { order with type := .ioc } :=
      ⟨rfl, rfl, rfl, crosses_ioc_fok order, fun _ _ _ _ => rfl⟩
    have hnot : ¬ l.available preventSelfTrade { order with type := .fok } < order.quantity := by
      intro e
      refine hpass ⟨fun hz => ?_, e⟩
      rw [hz] at e
      exact absurd e (UInt32.not_lt.mpr (UInt32.le_iff_toNat_le.mpr (Nat.zero_le _)))
    refine h.submit_congr halike ?_ (fun _ => rfl) fun _ _ => ?_
    · rw [Ledger.taking, if_neg fun e => hnot e.2, l.taking_of_ne_fok _ (by simp), Ledger.fills,
        Ledger.fills, halike.reach_eq]
    · rw [settled, settled, if_neg (by simp), if_neg (by simp)]

/-- A market order is an immediate-or-cancel one at the most generous price. -/
theorem submit_market (h : Refines b l) :
    MatchingEngine.submit preventSelfTrade b { order with type := .market } =
      MatchingEngine.submit preventSelfTrade b
        { order with type := .ioc, price := generousPrice order.isBuy } := by
  have halike : MatchAlike l preventSelfTrade preventSelfTrade { order with type := .market }
      { order with type := .ioc, price := generousPrice order.isBuy } :=
    ⟨rfl, rfl, rfl, crosses_market order, fun _ _ _ _ => rfl⟩
  refine h.submit_congr halike (halike.taking_eq (by simp)) (fun _ => rfl) fun _ _ => ?_
  rw [settled, settled, if_neg (by simp), if_neg (by simp)]

/-- A limit order takes what an immediate-or-cancel one does. -/
theorem taking_limit (l : Ledger) : l.taking preventSelfTrade { order with type := .limit } =
    l.taking preventSelfTrade { order with type := .ioc } := by
  have halike : MatchAlike l preventSelfTrade preventSelfTrade { order with type := .limit }
      { order with type := .ioc } :=
    ⟨rfl, rfl, rfl, crosses_ioc_limit order, fun _ _ _ _ => rfl⟩
  exact halike.taking_eq (by simp)

/-- The remainder of a limit order comes in, and can be taken off again. -/
theorem delete_remainder {l₁ l₂ : Ledger} {b₂ : OrderBook} (h₁ : Refines b l₁)
    (h₂ : Refines b₂ l₂) (hb : l₁.Bounded) (he : l₁.Exact) {r : Resting}
    (hfree : l₁.find r.orderRef = none) (hl₂ : l₂ = l₁ ∨ l₂ = l₁.append r) :
    (b₂.deleteOrder r.orderRef).2.Indistinguishable b := by
  have hdelete := (h₂.step (.delete r.orderRef)).refines
  rw [Ledger.step, Ledger.delete] at hdelete
  rcases hl₂ with rfl | rfl
  · -- nothing has come in, and the call fails
    rw [hfree] at hdelete
    exact hdelete.indistinguishable h₁ (fun side => ⟨fun _ => rfl, rfl⟩) rfl
  · have hfind : (l₁.append r).find r.orderRef = some r :=
      Ledger.find_of_mem h₂.wf.nodup (List.mem_append_right _ (List.mem_singleton_self r))
    rw [hfind] at hdelete
    exact hdelete.indistinguishable h₁ (h₁.wf.alike_append_remove hb he hfree)
      (Ledger.remove_capacity _ _)

end OrderBook.Refines

variable {b : OrderBook}

/-- **The order types differ only in the remainder.**  A fill-or-kill order is killed if the
dry run finds too little, and else treated as an immediate-or-cancel one; a market order is an
immediate-or-cancel one at the most generous price; a limit order is filled like an
immediate-or-cancel one, adds the remainder, and when this is deleted no trace of it is left,
if no total has wrapped and its reference was free. -/
theorem order_types_differ_in_remainder (hb : Reachable b) (preventSelfTrade : Bool)
    (order : IncomingOrder) :
    (∃ available, availableLiquidity preventSelfTrade b { order with type := .fok } =
        some available ∧
      submit preventSelfTrade b { order with type := .fok } =
        if order.quantity ≠ 0 ∧ available < order.quantity then
          some ([.kill { orderRef := order.orderRef, unfilledQuantity := order.quantity }], b)
        else submit preventSelfTrade b { order with type := .ioc }) ∧
    submit preventSelfTrade b { order with type := .market } =
      submit preventSelfTrade b
        { order with type := .ioc, price := generousPrice order.isBuy } ∧
    ∃ events events' b₁ b₂,
      submit preventSelfTrade b { order with type := .ioc } = some (events, b₁) ∧
      submit preventSelfTrade b { order with type := .limit } = some (events', b₂) ∧
      fillsOf events' = fillsOf events ∧
      b₂ = (if ((fillsOf events).map fun e => e.quantity.toNat).sum < order.quantity.toNat then
        (b₁.addOrder order.orderRef order.price (UInt32.ofNat (order.quantity.toNat -
          ((fillsOf events).map fun e => e.quantity.toNat).sum)) order.isBuy order.traderId).2
        else b₁) ∧
      (Reached (fun _ => True) LevelSumsBounded b → ¬ b.IsLive order.orderRef →
        (b₂.deleteOrder order.orderRef).2.Indistinguishable b₁) := by
  obtain ⟨l, h, hunwrapped⟩ : ∃ l, Refines b l ∧
      (Reached (fun _ => True) LevelSumsBounded b → l.Bounded ∧ l.Exact) := by
    by_cases hb' : Reached (fun _ => True) LevelSumsBounded b
    · obtain ⟨l, h, hbound, hexact⟩ := hb'.exact fun _ hP => hP
      exact ⟨l, h, fun _ => ⟨hbound, hexact⟩⟩
    · obtain ⟨l, h⟩ := hb.refines
      exact ⟨l, h, fun e => absurd e hb'⟩
  refine ⟨h.submit_fok preventSelfTrade order, h.submit_market preventSelfTrade order, ?_⟩
  obtain ⟨b₁, b₁', hsubmit, hreplay, hb₁, h₁⟩ :=
    h.submit preventSelfTrade { order with type := .ioc }
  obtain ⟨b₂, b₂', hsubmit', hreplay', hb₂, h₂⟩ :=
    h.submit preventSelfTrade { order with type := .limit }
  have htaking := OrderBook.Refines.taking_limit preventSelfTrade order l
  have ht := h.wf.takes_taking preventSelfTrade { order with type := .ioc }
  rw [l.submit_immediate preventSelfTrade (by simp)] at h₁
  rw [h.wf.submit_snd, Ledger.rested, htaking] at h₂
  rw [l.submit_events] at hsubmit hsubmit'
  rw [htaking] at hreplay' hb₂ hsubmit'
  set fs := l.taking preventSelfTrade { order with type := .ioc } with hfs
  obtain rfl : b₁ = b₂ := hreplay.unique hreplay'
  rw [settled, if_neg (by simp)] at hb₁
  subst hb₁
  refine ⟨_, _, b₁', b₂', hsubmit, hsubmit', ?_, ?_, fun hb' hlive => ?_⟩
  · rw [fillsOf_events, fillsOf_events]
    rfl
  · rw [ht.sum_fillsOf, hb₂, settled]
    exact if_congr (by simp) rfl rfl
  · obtain ⟨hbound, hexact⟩ := hunwrapped hb'
    obtain ⟨hexact₁, hwf₁, hbound₁⟩ := @Ledger.Exact.consume fs l hexact h.wf hbound
    have hfree : (l.consume fs).find order.orderRef = none := by
      rw [Ledger.find_eq_none_iff, (h.wf.consume_orders ht).2.2]
      intro x hx href
      obtain ⟨r, hr, hsettle⟩ := List.mem_filterMap.mp hx
      exact hlive ⟨r, h.mem_liveOrders.mpr hr, (settle_eq_some hsettle).1.symm.trans href⟩
    have hremainder : (l.consume fs).find
        (order.remainder (order.quantity.toNat - amount fs)).orderRef = none := hfree
    refine OrderBook.Refines.delete_remainder h₁ h₂ hbound₁ hexact₁ hremainder ?_
    rcases restedOf_cases { order with type := .limit } fs l.orders l.capacity with e | e
    · rw [e]
      exact Or.inl rfl
    · rw [e]
      exact Or.inr rfl

/-- A market order to buy 50 shares, against asks of 30 at two prices. -/
theorem order_types_differ_in_remainder_market :
    submit false ((OrderBook.new 1000 3 8).run [.add 1 1001 30 false 0, .add 2 5000 30 false 0])
        ⟨3, 1001, 50, true, .market, 0⟩ =
      submit false ((OrderBook.new 1000 3 8).run [.add 1 1001 30 false 0, .add 2 5000 30 false 0])
        ⟨3, 0xFFFFFFFF, 50, true, .ioc, 0⟩ :=
  (order_types_differ_in_remainder (reachable_run 1000 3 8 _) false
    ⟨3, 1001, 50, true, .limit, 0⟩).2.1

/-- **Self-trade prevention shows only to traders with orders that cross.** -/
theorem prevention_invisible (hb : Reachable b) (order : IncomingOrder)
    (hfree : ∀ r ∈ b.liveOrders, r.isBuy = !order.isBuy → crosses order r.price = true →
      r.traderId = order.traderId → order.traderId = 0) :
    submit true b order = submit false b order := by
  obtain ⟨l, h⟩ := hb.refines
  have halike : MatchAlike l true false order order := by
    refine ⟨rfl, rfl, rfl, fun p => rfl, fun p hc r hr => ?_⟩
    obtain ⟨hlive, rfl, hside⟩ := Ledger.mem_queue.mp hr
    have hfree' := hfree r (h.mem_liveOrders.mpr hlive) hside hc
    unfold Depth.eligibleFor eligible
    by_cases hzero : order.traderId = 0
    · simp [hzero]
    · simp [hzero]
      exact fun e => hzero (hfree' e)
  exact h.submit_congr halike (halike.taking_eq Iff.rfl) (fun _ => rfl) fun _ _ => rfl

/-- The trader's own ask is out of reach. -/
theorem prevention_invisible_above :
    submit true ((OrderBook.new 1000 3 8).run [.add 1 1001 30 false 7, .add 2 1002 30 false 9])
        ⟨3, 1001, 50, true, .limit, 9⟩ =
      submit false ((OrderBook.new 1000 3 8).run [.add 1 1001 30 false 7, .add 2 1002 30 false 9])
        ⟨3, 1001, 50, true, .limit, 9⟩ :=
  prevention_invisible (reachable_run 1000 3 8 _) ⟨3, 1001, 50, true, .limit, 9⟩
    (by decide +kernel)

end Liquibook
