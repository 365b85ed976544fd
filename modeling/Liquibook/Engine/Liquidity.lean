import Liquibook.Engine.Remainder

/-!
# Liquidity left behind

An order with a remainder is to have used up everything it could trade with.  With
self-trade prevention it does not always: matching ends at the first price at which
an order is blocked, and what is eligible at the prices behind is shielded by it.
This is the only way to leave something behind, as long as no total wraps.

## Main definitions

* `Shielded` — an order is blocked, the eligible shares up to its price are not
  enough, and there is an eligible order behind it.
* `NoneLeft` — nothing is left that crosses and is eligible.

## Main results

* `reach_cases` — matching reaches everything, or what is up to a blocked price.
* `submit_noneLeft_iff` — **nothing is left behind exactly when nothing is shielded.**
* `submit_leaves_liquidity` — a book and an order that leaves something.
-/

namespace Liquibook

open Lib OrderBook MatchingEngine

/-- Of the orders that cross, one is blocked, there is an eligible one at a worse
price, and what is eligible at prices that are not worse falls short of the
quantity. -/
def Shielded (preventSelfTrade : Bool) (order : IncomingOrder) (crossing : List Resting) : Prop :=
  ∃ r ∈ crossing, eligible preventSelfTrade order r.traderId = false ∧
    (∃ x ∈ crossing, eligible preventSelfTrade order x.traderId = true ∧
      better (!order.isBuy) r.price x.price = true) ∧
    sharesOf (crossing.filter fun x => eligible preventSelfTrade order x.traderId &&
      !better (!order.isBuy) r.price x.price) < order.quantity.toNat

/-- No order of the opposite side that crosses and is eligible is left. -/
def NoneLeft (preventSelfTrade : Bool) (order : IncomingOrder) (b : OrderBook) : Prop :=
  ∀ r ∈ b.liveOrders, r.isBuy = (!order.isBuy) → crosses order r.price = true →
    eligible preventSelfTrade order r.traderId = false

/-! ### Where the reach ends -/

namespace Ledger

variable {l : Ledger} {preventSelfTrade : Bool} {order : IncomingOrder} {p : Price4}

/-- The orders at a list of prices that cross and are eligible. -/
def candidatesAlong (l : Ledger) (preventSelfTrade : Bool) (order : IncomingOrder)
    (ps : List Price4) : List Resting :=
  ((ps.flatMap fun p => l.queue p !order.isBuy).filter fun r => crosses order r.price).filter
    (Depth.eligibleFor preventSelfTrade order)

theorem mem_candidatesAlong {ps : List Price4} {r : Resting}
    (hr : r ∈ l.candidatesAlong preventSelfTrade order ps) :
    r.price ∈ ps ∧ crosses order r.price = true := by
  obtain ⟨hr, -⟩ := List.mem_filter.mp hr
  obtain ⟨hr, hc⟩ := List.mem_filter.mp hr
  obtain ⟨p, hp, hq⟩ := List.mem_flatMap.mp hr
  rw [(mem_queue.mp hq).2.1]
  exact ⟨hp, (mem_queue.mp hq).2.1 ▸ hc⟩

theorem candidatesAlong_cons (hc : crosses order p = true) (ps : List Price4) :
    l.candidatesAlong preventSelfTrade order (p :: ps) =
      (l.queue p !order.isBuy).filter (Depth.eligibleFor preventSelfTrade order) ++
        l.candidatesAlong preventSelfTrade order ps := by
  unfold candidatesAlong
  rw [List.flatMap_cons, List.filter_append, filter_queue_crosses, if_pos hc, List.filter_append]

/-- Behind a price that does not cross there is nothing. -/
theorem candidatesAlong_eq_nil {ps : List Price4} (hc : ¬ crosses order p = true)
    (hpw : ∀ q ∈ ps, better (!order.isBuy) p q = true) :
    l.candidatesAlong preventSelfTrade order (p :: ps) = [] := by
  refine List.eq_nil_iff_forall_not_mem.mpr fun r hr => hc ?_
  obtain ⟨hmem, hcr⟩ := mem_candidatesAlong hr
  rcases List.mem_cons.mp hmem with hp | hp
  · exact hp ▸ hcr
  · exact crosses_of_better hcr (hpw _ hp)

theorem reachAlong_cons (hc : crosses order p = true) (ps : List Price4) :
    (l.depth !order.isBuy).reachAlong preventSelfTrade order (p :: ps) =
      (l.queue p !order.isBuy).filter (Depth.eligibleFor preventSelfTrade order) ++
        if (l.queue p !order.isBuy).all (Depth.eligibleFor preventSelfTrade order) then
          (l.depth !order.isBuy).reachAlong preventSelfTrade order ps
        else [] := by
  rw [Depth.reachAlong, if_pos hc]
  rfl

/-- **The reach ends at a blocked price**, if not before. -/
theorem not_better_of_blocked {r : Resting} (hr : r ∈ l.queue p !order.isBuy)
    (hblocked : Depth.eligibleFor preventSelfTrade order r = false) :
    ∀ {ps : List Price4}, ps.Pairwise (fun p q => better (!order.isBuy) p q = true) → p ∈ ps →
      ∀ x ∈ (l.depth !order.isBuy).reachAlong preventSelfTrade order ps,
        better (!order.isBuy) p x.price = false := by
  have hrank := ranking_better !order.isBuy
  intro ps
  induction ps with
  | nil => intro _ hp; cases hp
  | cons q qs ih =>
    intro hpw hp x hx
    rw [List.pairwise_cons] at hpw
    have hirrefl : ∀ q, better (!order.isBuy) q q = false := fun q =>
      Bool.eq_false_iff.mpr (hrank.irrefl q)
    by_cases hc : crosses order q = true
    · rw [reachAlong_cons hc] at hx
      rcases List.mem_append.mp hx with hx | hx
      · rw [(mem_queue.mp (List.mem_filter.mp hx).1).2.1]
        rcases List.mem_cons.mp hp with rfl | hp
        · exact hirrefl p
        · refine Bool.eq_false_iff.mpr fun hpq => ?_
          exact hrank.irrefl q (hrank.trans q p q (hpw.1 p hp) hpq)
      · split at hx
        · next hall =>
          rcases List.mem_cons.mp hp with rfl | hp
          · rw [List.all_eq_true.mp hall r hr] at hblocked
            cases hblocked
          · exact ih hpw.2 hp x hx
        · cases hx
    · rw [Depth.reachAlong, if_neg hc] at hx
      cases hx

/-- Along prices in order of priority, everything that crosses and is eligible is
reached, or what is up to a price at which an order is blocked and no more. -/
theorem reachAlong_cases (l : Ledger) (preventSelfTrade : Bool) : ∀ {ps : List Price4},
    ps.Pairwise (fun p q => better (!order.isBuy) p q = true) →
      (l.depth !order.isBuy).reachAlong preventSelfTrade order ps =
          l.candidatesAlong preventSelfTrade order ps ∨
        ∃ p ∈ ps, crosses order p = true ∧
          (∃ r ∈ l.queue p !order.isBuy, Depth.eligibleFor preventSelfTrade order r = false) ∧
          (∃ x ∈ l.candidatesAlong preventSelfTrade order ps,
            better (!order.isBuy) p x.price = true) ∧
          (l.depth !order.isBuy).reachAlong preventSelfTrade order ps =
            (l.candidatesAlong preventSelfTrade order ps).filter
              fun x => !better (!order.isBuy) p x.price := by
  have hrank := ranking_better !order.isBuy
  intro ps
  induction ps with
  | nil => exact fun _ => Or.inl rfl
  | cons p ps ih =>
    intro hpw
    rw [List.pairwise_cons] at hpw
    by_cases hc : crosses order p = true
    · rw [candidatesAlong_cons hc, reachAlong_cons hc]
      -- what the filter leaves of the orders at `p`
      have hkeep : ∀ q, better (!order.isBuy) q p = false →
          ((l.queue p !order.isBuy).filter (Depth.eligibleFor preventSelfTrade order)).filter
            (fun x => !better (!order.isBuy) q x.price) =
          (l.queue p !order.isBuy).filter (Depth.eligibleFor preventSelfTrade order) := by
        intro q hq
        refine List.filter_eq_self.mpr fun x hx => ?_
        rw [(mem_queue.mp (List.mem_filter.mp hx).1).2.1, hq]
        rfl
      by_cases hall : (l.queue p !order.isBuy).all (Depth.eligibleFor preventSelfTrade order) = true
      · rw [if_pos hall]
        rcases ih hpw.2 with heq | ⟨q, hq, hcq, hblocked, ⟨x, hx, hqx⟩, heq⟩
        · exact Or.inl (by rw [heq])
        · refine Or.inr ⟨q, List.mem_cons_of_mem _ hq, hcq, hblocked,
            ⟨x, List.mem_append_right _ hx, hqx⟩, ?_⟩
          have hqp : better (!order.isBuy) q p = false := Bool.eq_false_iff.mpr fun hqp =>
            hrank.irrefl p (hrank.trans p q p (hpw.1 q hq) hqp)
          rw [List.filter_append, hkeep q hqp, heq]
      · rw [if_neg hall, List.append_nil]
        cases hcand : l.candidatesAlong preventSelfTrade order ps with
        | nil => exact Or.inl (List.append_nil _).symm
        | cons x xs =>
          have hworse : ∀ y ∈ x :: xs, better (!order.isBuy) p y.price = true := by
            intro y hy
            exact hpw.1 _ (mem_candidatesAlong (hcand ▸ hy)).1
          refine Or.inr ⟨p, List.mem_cons_self, hc, ?_,
            ⟨x, List.mem_append_right _ List.mem_cons_self, hworse x List.mem_cons_self⟩, ?_⟩
          · rw [List.all_eq_true] at hall
            push Not at hall
            obtain ⟨r, hr, hblocked⟩ := hall
            exact ⟨r, hr, Bool.eq_false_iff.mpr hblocked⟩
          · have hdrop : (x :: xs).filter (fun y => !better (!order.isBuy) p y.price) = [] :=
              List.filter_eq_nil_iff.mpr fun y hy => by rw [hworse y hy]; simp
            rw [List.filter_append, hkeep p (Bool.eq_false_iff.mpr (hrank.irrefl p)), hdrop,
              List.append_nil]
    · rw [candidatesAlong_eq_nil hc hpw.1, Depth.reachAlong, if_neg hc]
      exact Or.inl rfl

theorem WF.nodup_crossing (h : WF l) (order : IncomingOrder) : (l.crossing order).Nodup :=
  ((h.priority_perm _).nodup_iff.mpr (h.orders_nodup.filter _)).filter _

/-- **Something is shielded** exactly when what matching reaches falls short, and is
not everything. -/
theorem Exact.shielded_iff (he : Exact l) (h : WF l) (hb : Bounded l) (preventSelfTrade : Bool)
    (order : IncomingOrder) :
    Shielded preventSelfTrade order (l.crossing order) ↔
      sharesOf (l.reach preventSelfTrade order) < order.quantity.toNat ∧
        l.reach preventSelfTrade order ≠
          (l.crossing order).filter (Depth.eligibleFor preventSelfTrade order) := by
  have hpw := pairwise_rank (ranking_better !order.isBuy) (l.prices !order.isBuy)
  have hreach : l.reach preventSelfTrade order =
      (l.depth !order.isBuy).reachAlong preventSelfTrade order
        (rank (fun p q => better (!order.isBuy) p q = true) (l.prices !order.isBuy)) := by
    rw [reach, Depth.reach, he.route_eq h hb, h.levels_eq hb]
  have hcand : l.candidatesAlong preventSelfTrade order
      (rank (fun p q => better (!order.isBuy) p q = true) (l.prices !order.isBuy)) =
      (l.crossing order).filter (Depth.eligibleFor preventSelfTrade order) := rfl
  have hfilter : ∀ p : Price4, (l.crossing order).filter (fun x =>
      eligible preventSelfTrade order x.traderId && !better (!order.isBuy) p x.price) =
      ((l.crossing order).filter (Depth.eligibleFor preventSelfTrade order)).filter
        fun x => !better (!order.isBuy) p x.price := by
    intro p
    rw [List.filter_filter]
    exact List.filter_congr fun x _ => Bool.and_comm _ _
  constructor
  · rintro ⟨r, hr, hblocked, ⟨x, hx, helig, hworse⟩, hshort⟩
    obtain ⟨hmem, hside, hcr⟩ := mem_crossing.mp hr
    have hqueue : r ∈ l.queue r.price !order.isBuy := hside ▸ mem_queue_self hmem
    have hp : r.price ∈ rank (fun p q => better (!order.isBuy) p q = true)
        (l.prices !order.isBuy) := mem_rank.mpr (mem_prices.mpr (List.ne_nil_of_mem hqueue))
    -- the reach ends at the price of `r`, so it is part of what is short of the quantity
    have hblocked' : Depth.eligibleFor preventSelfTrade order r = false := hblocked
    have hends := not_better_of_blocked hqueue hblocked' hpw hp
    rw [← hreach] at hends
    constructor
    · rw [hfilter] at hshort
      refine (sharesOf_sublist ?_).trans_lt hshort
      have hself : (l.reach preventSelfTrade order).filter
          (fun x => !better (!order.isBuy) r.price x.price) = l.reach preventSelfTrade order :=
        List.filter_eq_self.mpr fun x hx => by rw [hends x hx]; rfl
      rw [← hself]
      exact (he.reach_prefix_crossing h hb preventSelfTrade order).sublist.filter _
    · intro hall
      have hxr : x ∈ l.reach preventSelfTrade order := hall ▸ List.mem_filter.mpr ⟨hx, helig⟩
      rw [hends x hxr] at hworse
      cases hworse
  · rintro ⟨hshort, hnot⟩
    rw [hreach] at hshort hnot
    rcases reachAlong_cases l preventSelfTrade hpw with
      hall | ⟨p, -, hc, ⟨r, hr, hblocked⟩, ⟨x, hx, hworse⟩, heq⟩
    · exact absurd (hall.trans hcand) hnot
    · obtain ⟨hmem, rfl, hside⟩ := mem_queue.mp hr
      obtain ⟨hxc, helig⟩ := List.mem_filter.mp (hcand ▸ hx)
      refine ⟨r, mem_crossing.mpr ⟨hmem, hside, hc⟩, hblocked, ⟨x, hxc, helig, hworse⟩, ?_⟩
      rw [hfilter, ← hcand, ← heq]
      exact hshort

/-- What matching reaches is everything exactly when it reaches every candidate, and
exactly when it has the shares of all. -/
theorem Exact.reach_eq_iff (he : Exact l) (h : WF l) (hb : Bounded l) (preventSelfTrade : Bool)
    (order : IncomingOrder) {cand : List Resting}
    (hcand : cand = (l.crossing order).filter (Depth.eligibleFor preventSelfTrade order)) :
    sharesOf (l.reach preventSelfTrade order) ≤ sharesOf cand ∧
      (l.reach preventSelfTrade order = cand ↔ ∀ r ∈ cand, r ∈ l.reach preventSelfTrade order) ∧
      (l.reach preventSelfTrade order = cand ↔
        sharesOf (l.reach preventSelfTrade order) = sharesOf cand) := by
  have hpre := he.reach_prefix_crossing h hb preventSelfTrade order
  have hnd : cand.Nodup := hcand ▸ (h.nodup_crossing order).filter _
  have hpos : ∀ x ∈ cand, x.shares ≠ 0 := fun x hx =>
    h.positive x (mem_crossing.mp (List.mem_filter.mp (hcand ▸ hx)).1).1
  rw [← hcand] at hpre
  refine ⟨sharesOf_sublist hpre.sublist, ⟨fun e r hr => e ▸ hr, fun hall => ?_⟩,
    ⟨fun e => e ▸ rfl, fun hsum => ?_⟩⟩
  · exact hpre.eq_of_length_le (hnd.subperm hall).length_le
  · obtain ⟨rest, hrest⟩ := hpre
    rw [← hrest, sharesOf_append] at hsum
    have hzero : sharesOf rest = 0 := by omega
    rw [sharesOf_eq_zero_iff fun x hx => hpos x (hrest ▸ List.mem_append_right _ hx)] at hzero
    rw [← hrest, hzero, List.append_nil]

end Ledger

/-! ### What is left on the book -/

variable {b b' : OrderBook} {l : Ledger} {preventSelfTrade : Bool} {order : IncomingOrder}

/-- If all that is reached is gone, nothing is left exactly when everything is
reached. -/
theorem noneLeft_iff (h : Refines b l) {fs : List (Resting × ℕ)}
    (hperm : b'.liveOrders.Perm
      (b.liveOrders.filter (fun r => decide (r ∉ l.reach preventSelfTrade order)) ++
        restedOf order fs b.liveOrders b.orderPool.capacity)) :
    NoneLeft preventSelfTrade order b' ↔
      ∀ r ∈ (l.crossing order).filter (Depth.eligibleFor preventSelfTrade order),
        r ∈ l.reach preventSelfTrade order := by
  constructor
  · intro hnone r hr
    obtain ⟨hcross, (helig : eligible preventSelfTrade order r.traderId = true)⟩ :=
      List.mem_filter.mp hr
    obtain ⟨hmem, hside, hcr⟩ := Ledger.mem_crossing.mp hcross
    by_contra hnot
    have hleft : r ∈ b'.liveOrders := hperm.mem_iff.mpr (List.mem_append_left _
      (List.mem_filter.mpr ⟨h.mem_liveOrders.mpr hmem, decide_eq_true hnot⟩))
    rw [hnone r hleft hside hcr] at helig
    cases helig
  · intro hall r hr hside hcr
    refine Bool.eq_false_iff.mpr fun helig => ?_
    rcases List.mem_append.mp (hperm.mem_iff.mp hr) with hkept | hrest
    · obtain ⟨hmem, hnot⟩ := List.mem_filter.mp hkept
      refine of_decide_eq_true hnot (hall r (List.mem_filter.mpr ⟨?_, helig⟩))
      exact Ledger.mem_crossing.mpr ⟨h.mem_liveOrders.mp hmem, hside, hcr⟩
    · rw [isBuy_of_mem_restedOf hrest] at hside
      exact absurd hside (by cases order.isBuy <;> simp)

/-- **Nothing that crosses and is eligible is left behind exactly when nothing is
shielded**, and then the order is filled as far as there are shares. -/
theorem submit_noneLeft_iff (hb : Reached (fun _ => True) LevelSumsBounded b)
    (htype : order.type ≠ .fok) :
    ∃ events b', submit preventSelfTrade b order = some (events, b') ∧
      ((((fillsOf events).map fun e => e.quantity.toNat).sum < order.quantity.toNat →
          NoneLeft preventSelfTrade order b') ↔
        ¬ Shielded preventSelfTrade order (b.crossing order)) ∧
      (((fillsOf events).map fun e => e.quantity.toNat).sum =
          min order.quantity.toNat (sharesOf ((b.crossing order).filter fun r =>
            eligible preventSelfTrade order r.traderId)) ↔
        ¬ Shielded preventSelfTrade order (b.crossing order)) := by
  obtain ⟨l, h, hbound, hexact⟩ := hb.exact fun _ => id
  obtain ⟨cand, hcand⟩ : ∃ cand, cand =
      (l.crossing order).filter (Depth.eligibleFor preventSelfTrade order) := ⟨_, rfl⟩
  have hcand' : (l.crossing order).filter (fun r => eligible preventSelfTrade order r.traderId) =
      cand := hcand.symm
  obtain ⟨hle, hevery, hequal⟩ := hexact.reach_eq_iff h.wf hbound preventSelfTrade order hcand
  have ht := h.wf.takes_taking preventSelfTrade order
  by_cases hshort : sharesOf (l.reach preventSelfTrade order) < order.quantity.toNat
  · obtain ⟨b', hsub, -, hperm⟩ := h.submit_short htype hshort
    rw [h.wf.taking_short htype hshort] at ht
    refine ⟨_, b', hsub, ?_⟩
    rw [ht.sum_fillsOf, amount_whole, h.crossing_eq, hexact.shielded_iff h.wf hbound, hcand',
      noneLeft_iff h hperm, ← hcand, ← hevery, not_and, not_not]
    refine ⟨Iff.rfl, ⟨fun e _ => hequal.mpr ?_, fun e => ?_⟩⟩
    · omega
    · have := hequal.mp (e hshort)
      omega
  · have hfs := l.taking_of_ne_fok preventSelfTrade htype
    obtain ⟨b₁, b', hsub, -⟩ := h.submit_seen preventSelfTrade order hfs.symm
    rw [hfs] at ht
    refine ⟨_, b', hsub, ?_⟩
    rw [ht.sum_fillsOf, amount_fills, h.crossing_eq, hexact.shielded_iff h.wf hbound, hcand',
      not_and_or]
    exact ⟨⟨fun _ => Or.inl hshort, fun _ e => by omega⟩,
      ⟨fun _ => Or.inl hshort, fun _ => by omega⟩⟩

/-- Asks of 50 shares at two prices, the better one of trader 9. -/
def shieldedBook : OrderBook :=
  (OrderBook.new 1000 3 8).run [.add 1 1000 50 false 9, .add 2 1001 50 false 0]

theorem reached_shieldedBook : Reached (fun _ => True) LevelSumsBounded shieldedBook :=
  reached_run_bounded (by decide +kernel)

/-- **An order that leaves liquidity behind**: trader 9 buys 50 shares at any price.
Its own order is in the way, so nothing is filled and all 50 shares are killed, with
the 50 shares at 1001 still there. -/
theorem submit_leaves_liquidity :
    Reached (fun _ => True) LevelSumsBounded shieldedBook ∧
      ∃ events b', submit true shieldedBook ⟨3, 0, 50, true, .market, 9⟩ = some (events, b') ∧
        ((fillsOf events).map fun e => e.quantity.toNat).sum < 50 ∧
        ¬ NoneLeft true ⟨3, 0, 50, true, .market, 9⟩ b' ∧
        min 50 (sharesOf ((shieldedBook.crossing ⟨3, 0, 50, true, .market, 9⟩).filter fun r =>
          eligible true ⟨3, 0, 50, true, .market, 9⟩ r.traderId)) = 50 := by
  refine ⟨reached_shieldedBook, _, _, rfl, by decide +kernel, ?_, by decide +kernel⟩
  intro hnone
  exact absurd (hnone ⟨2, 1001, 50, false, 0⟩ (by decide +kernel) rfl rfl) (by decide)

/-- An order of another trader takes what it can. -/
theorem submit_noneLeft_other :
    ∃ events b', submit true shieldedBook ⟨3, 0, 150, true, .market, 8⟩ = some (events, b') ∧
      ((fillsOf events).map fun e => e.quantity.toNat).sum = 100 := by
  obtain ⟨events, b', hsub, -, hiff⟩ :=
    @submit_noneLeft_iff _ true ⟨3, 0, 150, true, .market, 8⟩ reached_shieldedBook (by decide)
  refine ⟨events, b', hsub, (hiff.mpr ?_).trans (by decide +kernel)⟩
  rintro ⟨r, hr, hblocked, -⟩
  have hnone : ∀ r ∈ shieldedBook.crossing ⟨3, 0, 150, true, .market, 8⟩,
      eligible true ⟨3, 0, 150, true, .market, 8⟩ r.traderId = true := by decide +kernel
  rw [hnone r hr] at hblocked
  cases hblocked

end Liquibook
