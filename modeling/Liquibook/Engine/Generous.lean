import Liquibook.Engine.Outcome

/-!
# A more generous order

A trader who asks for more, or offers a better price, is served no worse: the orders that
are filled for the less generous order are filled first for the other one, in the same
order, and for no fewer shares.  It does not matter whether totals wrap, whom self-trade
prevention passes over, or of what type the orders are, as long as a fill-or-kill order is
compared with one for the same quantity.

## Main definitions

* `Generous` — one order asks for no less than another, at no worse a price.

## Main results

* `Generous.reach_first` — what the one reaches comes first in what the other reaches.
* `Generous.covers` — the dry run covers the quantity of the other, too.
* `generous_order_fills_more` — **the fills of the one come first in those of the other.**
-/

namespace Liquibook

open Lib OrderBook MatchingEngine

/-- `order'` is the same order as `order` at a price that is no worse for the market, for no
fewer shares.  It may be of another type, but it is fill-or-kill only if `order` is, and then
for the same quantity. -/
structure Generous (order order' : IncomingOrder) : Prop where
  orderRef : order'.orderRef = order.orderRef
  isBuy : order'.isBuy = order.isBuy
  traderId : order'.traderId = order.traderId
  quantity : order.quantity ≤ order'.quantity
  price : order'.type = .market ∨ order.type ≠ .market ∧
    if order.isBuy then order.price ≤ order'.price else order'.price ≤ order.price
  fok : order'.type = .fok → order.type = .fok ∧ order'.quantity = order.quantity

namespace Generous

variable {preventSelfTrade : Bool} {order order' : IncomingOrder} {l : Ledger}

theorem crosses (h : Generous order order') {p : Price4}
    (hp : MatchingEngine.crosses order p = true) : MatchingEngine.crosses order' p = true := by
  unfold MatchingEngine.crosses at hp ⊢
  rcases h.price with hmarket | ⟨hmarket, hprice⟩
  · rw [if_pos hmarket]
  · rw [if_neg hmarket] at hp
    rw [h.isBuy]
    split
    · rfl
    · cases hb : order.isBuy with
      | true =>
        simp only [hb, if_true, decide_eq_true_eq] at hp hprice ⊢
        exact UInt32.le_trans hp hprice
      | false =>
        simp only [hb, Bool.false_eq_true, if_false, decide_eq_true_eq, ge_iff_le] at hp hprice ⊢
        exact UInt32.le_trans hprice hp

/-- Who is eligible does not depend on the price. -/
theorem eligibleFor_eq (h : Generous order order') :
    Depth.eligibleFor preventSelfTrade order' = Depth.eligibleFor preventSelfTrade order := by
  funext r
  rw [Depth.eligibleFor, Depth.eligibleFor, eligible, eligible, h.traderId]

/-- **What the one reaches** comes first in what the other reaches. -/
theorem reach_first (h : Generous order order') (preventSelfTrade : Bool) (l : Ledger) :
    l.reach preventSelfTrade order <+: l.reach preventSelfTrade order' := by
  have halong : ∀ ps : List Price4,
      (l.depth !order.isBuy).reachAlong preventSelfTrade order ps <+:
        (l.depth !order.isBuy).reachAlong preventSelfTrade order' ps := by
    intro ps
    induction ps with
    | nil => exact List.prefix_refl _
    | cons p ps ih =>
      rw [Depth.reachAlong, Depth.reachAlong, h.eligibleFor_eq]
      by_cases hc : MatchingEngine.crosses order p = true
      · rw [if_pos hc, if_pos (h.crosses hc), List.prefix_append_right_inj]
        split
        · exact ih
        · exact List.prefix_refl _
      · rw [if_neg hc]
        exact List.nil_prefix
  rw [Ledger.reach, Ledger.reach, h.isBuy]
  exact halong _

/-- The dry run of the one covers its quantity only if that of the other does. -/
theorem covers (h : Generous order order') (hquantity : order'.quantity = order.quantity)
    (hc : (l.depth !order.isBuy).Covers preventSelfTrade order) :
    (l.depth !order'.isBuy).Covers preventSelfTrade order' := by
  obtain ⟨ps, hps, hcross, hle⟩ := hc
  rw [h.isBuy]
  refine ⟨ps, hps, fun p hp => h.crosses (hcross p hp), ?_⟩
  rw [hquantity]
  unfold Depth.eligibleAt at hle ⊢
  rwa [h.eligibleFor_eq]

/-- **What the one takes** is taken first by the other, which takes no less of it. -/
theorem taking (h : Generous order order') (preventSelfTrade : Bool) (l : Ledger) :
    ∃ first more, l.taking preventSelfTrade order' = first ++ more ∧
      List.Forall₂ (fun f g => f.1 = g.1 ∧ f.2 ≤ g.2) (l.taking preventSelfTrade order) first ∧
      (order'.quantity = order.quantity → l.taking preventSelfTrade order = first) := by
  by_cases hkill : order.type = .fok ∧ l.available preventSelfTrade order < order.quantity
  · rw [show l.taking preventSelfTrade order = [] from if_pos hkill]
    exact ⟨[], _, rfl, .nil, fun _ => rfl⟩
  · -- neither of the two is killed
    have hone : l.taking preventSelfTrade order =
        l.fills preventSelfTrade order order.quantity.toNat := if_neg hkill
    have hother : l.taking preventSelfTrade order' =
        l.fills preventSelfTrade order' order'.quantity.toNat := by
      by_cases htype : order'.type = .fok
      · obtain ⟨hfok, hquantity⟩ := h.fok htype
        have hle := UInt32.not_lt.mp fun e => hkill ⟨hfok, e⟩
        exact Ledger.taking_of_covers (h.covers hquantity (Ledger.covers_iff.mp hle))
      · exact l.taking_of_ne_fok preventSelfTrade htype
    obtain ⟨rest, hreach⟩ := h.reach_first preventSelfTrade l
    rw [hone, hother]
    by_cases hquantity : order'.quantity = order.quantity
    · have hsame : ∀ fs : List (Resting × ℕ),
          List.Forall₂ (fun f g => f.1 = g.1 ∧ f.2 ≤ g.2) fs fs := fun fs =>
        List.forall₂_same.mpr fun _ _ => ⟨rfl, le_rfl⟩
      refine ⟨_, greedy Resting.weight (order.quantity.toNat -
        ((l.reach preventSelfTrade order).map Resting.weight).sum) rest, ?_, hsame _, fun _ => rfl⟩
      rw [Ledger.fills, ← hreach, hquantity, greedy_append, Ledger.fills]
    · have hle := UInt32.le_iff_toNat_le.mp h.quantity
      obtain ⟨first, more, hsplit, hall⟩ :=
        greedy_mono Resting.weight (h.reach_first preventSelfTrade l) hle
      exact ⟨first, more, hsplit, hall, fun e => absurd e hquantity⟩

end Generous

/-- The fill `e'` is of the same order as `e`, at the same price and for no fewer shares. -/
structure FillEvent.Extends (e e' : FillEvent) : Prop where
  aggressorRef : e'.aggressorRef = e.aggressorRef
  restingRef : e'.restingRef = e.restingRef
  price : e'.price = e.price
  quantity : e.quantity ≤ e'.quantity

/-- **A more generous order is served no worse.**  Its first fills are those of the less
generous one, each for no fewer shares, and just these if both ask for the same quantity. -/
theorem generous_order_fills_more {b : OrderBook} {order order' : IncomingOrder}
    (hb : Reachable b) (h : Generous order order') (preventSelfTrade : Bool) :
    ∃ events b₁ events' b₂, submit preventSelfTrade b order = some (events, b₁) ∧
      submit preventSelfTrade b order' = some (events', b₂) ∧
      ∃ first more, fillsOf events' = first ++ more ∧
        List.Forall₂ FillEvent.Extends (fillsOf events) first ∧
        (order'.quantity = order.quantity → fillsOf events = first) := by
  obtain ⟨l, hl⟩ := hb.refines
  obtain ⟨-, b₁, hsubmit, -⟩ := hl.submit_seen preventSelfTrade order rfl
  obtain ⟨-, b₂, hsubmit', -⟩ := hl.submit_seen preventSelfTrade order' rfl
  obtain ⟨first, more, htaking, hall, hsame⟩ := h.taking preventSelfTrade l
  have hevent : fillEvent order' = fillEvent order := by
    funext f
    rw [fillEvent, fillEvent, h.orderRef]
  refine ⟨_, b₁, _, b₂, hsubmit, hsubmit', first.map (fillEvent order),
    more.map (fillEvent order), ?_, ?_, fun hquantity => ?_⟩
  · rw [fillsOf_events, htaking, List.map_append, hevent]
  · rw [fillsOf_events, List.forall₂_map_left_iff, List.forall₂_map_right_iff]
    obtain ⟨hlength, hzip⟩ := List.forall₂_iff_zip.mp hall
    refine List.forall₂_iff_zip.mpr ⟨hlength, fun {f g} hfg => ?_⟩
    obtain ⟨hsame, hle⟩ := hzip hfg
    have hg : g ∈ l.taking preventSelfTrade order' := by
      rw [htaking]
      exact List.mem_append_left _ (List.of_mem_zip hfg).2
    -- what is taken from an order fits in a share count
    have hg' : g.2 ≤ g.1.shares.toNat := (hl.wf.takes_taking preventSelfTrade order').le g hg
    have hlt := g.1.shares.toNat_lt
    refine ⟨rfl, congrArg Resting.orderRef hsame.symm, congrArg Resting.price hsame.symm, ?_⟩
    rw [UInt32.le_iff_toNat_le, fillEvent, fillEvent,
      UInt32.toNat_ofNat_of_lt' (show _ < 2 ^ 32 by omega),
      UInt32.toNat_ofNat_of_lt' (show _ < 2 ^ 32 by omega)]
    exact hle
  · rw [fillsOf_events, hsame hquantity]

/-- A limit order of 40 shares at 1001, and a market order of 60. -/
theorem generous_order_fills_more_market :
    ∃ events b₁ events' b₂, submit true ((OrderBook.new 1000 3 8).run
        [.add 1 1001 30 false 0, .add 2 1002 50 false 0]) ⟨3, 1001, 40, true, .limit, 0⟩ =
        some (events, b₁) ∧
      submit true ((OrderBook.new 1000 3 8).run
        [.add 1 1001 30 false 0, .add 2 1002 50 false 0]) ⟨3, 0, 60, true, .market, 0⟩ =
        some (events', b₂) ∧
      ∃ first more, fillsOf events' = first ++ more ∧
        List.Forall₂ FillEvent.Extends (fillsOf events) first := by
  have hgenerous : Generous ⟨3, 1001, 40, true, .limit, 0⟩ ⟨3, 0, 60, true, .market, 0⟩ :=
    ⟨rfl, rfl, rfl, by decide, Or.inl rfl, fun e => (by cases e)⟩
  obtain ⟨events, b₁, events', b₂, hsubmit, hsubmit', first, more, hfirst, hall, -⟩ :=
    generous_order_fills_more (reachable_run 1000 3 8 _) hgenerous true
  exact ⟨events, b₁, events', b₂, hsubmit, hsubmit', first, more, hfirst, hall⟩

end Liquibook
