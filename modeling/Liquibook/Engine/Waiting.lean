import Liquibook.Engine.QueuePosition
import Liquibook.Engine.Conservation
import Liquibook.Engine.Skipping

/-!
# No order waits forever

An order that rests is filled once enough has come in against it.  What has to be taken
before it is used up are the shares at better prices, those ahead of it in its queue, and
its own.  A call raises this number by no more than what it puts in at a better price, and
an order of the other side that crosses, and passes over nobody, lowers it by all that it
wants.  So what comes in against an order while it waits is less than what stands before it
at the start, itself included, and what is put in at better prices on the way.

## Main definitions

* `OrderBook.sharesUpTo` — what has to be taken before an order is used up.
* `Call.demand`, `Call.supply` — what a call takes from there, and what it puts in.
* `Pressed` — an order waits, while calls demand and supply shares.

## Main results

* `WF.sharesUpTo_call` — a call raises the number by what it supplies at most.
* `WF.sharesUpTo_demand` — an order that crosses lowers it by its quantity.
* `waiting_bounded` — **what comes in against an order that waits is bounded.**
-/

namespace Liquibook

open Lib OrderBook MatchingEngine

instance (preventSelfTrade : Bool) (order : IncomingOrder) :
    Decidable (StpOff preventSelfTrade order) := inferInstanceAs (Decidable (_ ∨ _))

/-- The order `x` rests on the side of `r`, at a better price. -/
def Resting.outbids (x r : Resting) : Bool := x.isBuy == r.isBuy && better r.isBuy x.price r.price

theorem Resting.outbids_congr {x y r r' : Resting} (hprice : x.price = y.price)
    (hside : x.isBuy = y.isBuy) (hprice' : r.price = r'.price) (hside' : r.isBuy = r'.isBuy) :
    x.outbids r = y.outbids r' := by
  rw [outbids, outbids, hprice, hside, hprice', hside']

theorem Resting.SameOrder.outbids_eq {r r' : Resting} (h : r.SameOrder r') :
    (fun x : Resting => x.outbids r') = fun x => x.outbids r :=
  funext fun _ => outbids_congr rfl rfl h.price h.isBuy

/-- The orders that are used up before `r` or with it: those at better prices, those in front
of it in its queue, and `r`. -/
def usedUpTo (orders queue : List Resting) (r : Resting) : List Resting :=
  (orders.filter fun x => x.outbids r) ++ Lib.ahead Resting.orderRef r.orderRef queue ++ [r]

/-- The shares that have to be taken before the order `r` is used up. -/
def OrderBook.sharesUpTo (b : OrderBook) (r : Resting) : ℕ :=
  sharesOf (usedUpTo b.liveOrders (b.queueAt r.price r.isBuy) r)

/-- The orders of a ledger that are used up before `r` or with it. -/
def Ledger.usedUpTo (l : Ledger) (r : Resting) : List Resting :=
  Liquibook.usedUpTo l.orders (l.queue r.price r.isBuy) r

theorem OrderBook.Refines.sharesUpTo_eq {b : OrderBook} {l : Ledger} (h : Refines b l)
    (r : Resting) : b.sharesUpTo r = sharesOf (l.usedUpTo r) := by
  unfold OrderBook.sharesUpTo Ledger.usedUpTo Liquibook.usedUpTo
  rw [h.queueAt_eq]
  exact sharesOf_perm (((h.liveOrders_perm.filter _).append_right _).append_right _)

/-- What the call is sure to take from the orders up to `r` if it leaves `r` there: all that
an order wants that crosses the price of `r`, passes over nobody and is not fill-or-kill. -/
def Call.demand (r : Resting) : Call → ℕ
  | .book _ => 0
  | .submit preventSelfTrade order =>
      if order.isBuy = (!r.isBuy) ∧ crosses order r.price = true ∧ order.type ≠ .fok ∧
          StpOff preventSelfTrade order then order.quantity.toNat
      else 0

/-- What the call may put in at a better price than that of `r`, on a book with these
orders. -/
def Call.supply (orders : List Resting) (r : Resting) : Call → ℕ
  | .book (.add _ price shares isBuy _) =>
      if isBuy = r.isBuy ∧ better r.isBuy price r.price = true then shares.toNat else 0
  | .book (.replace oldRef _ newShares newPrice) =>
      if holds orders oldRef r.isBuy = true ∧ better r.isBuy newPrice r.price = true then
        newShares.toNat
      else 0
  | .book _ => 0
  | .submit _ order =>
      if order.isBuy = r.isBuy ∧ order.type = .limit ∧
          better r.isBuy order.price r.price = true then order.quantity.toNat
      else 0

/-! ### What a call does -/

/-- What is taken from some orders is no more than what is taken from each. -/
theorem amount_le_taken {rs : List Resting} {fs : List (Resting × ℕ)}
    (h : ∀ f ∈ fs, f.1 ∈ rs) : amount fs ≤ (rs.map fun r => taken fs r.orderRef).sum := by
  induction fs with
  | nil => exact Nat.zero_le _
  | cons f fs ih =>
    have hf : f.2 ≤ (rs.map fun r => if f.1.orderRef = r.orderRef then f.2 else 0).sum := by
      refine List.le_sum_of_mem (List.mem_map.mpr ⟨f.1, h f List.mem_cons_self, ?_⟩)
      exact if_pos rfl
    have hsplit : (rs.map fun r => taken (f :: fs) r.orderRef).sum =
        (rs.map fun r => if f.1.orderRef = r.orderRef then f.2 else 0).sum +
          (rs.map fun r => taken fs r.orderRef).sum := by
      rw [← List.sum_map_add]
      exact congrArg List.sum (List.map_congr_left fun r _ => Ledger.taken_cons f fs r.orderRef)
    rw [hsplit, amount, List.map_cons, List.sum_cons]
    exact Nat.add_le_add hf (ih fun g hg => h g (List.mem_cons_of_mem _ hg))

namespace Ledger

variable {l : Ledger} {r r' x : Resting} {c : Call} {preventSelfTrade : Bool}
  {order : IncomingOrder}

/-- What comes in at a better price is supplied. -/
theorem WF.brings_supply (h : WF l) (hx : c.Brings l x) (hbetter : x.outbids r = true) :
    x.shares.toNat ≤ c.supply l.orders r := by
  rw [Resting.outbids, Bool.and_eq_true, beq_iff_eq] at hbetter
  cases c with
  | book op =>
    cases op with
    | add ref price shares isBuy traderId =>
      obtain ⟨rfl, -⟩ := hx
      rw [Call.supply, if_pos hbetter]
    | replace oldRef newRef newShares newPrice =>
      obtain ⟨r₀, hr₀, rfl, -⟩ := hx
      obtain ⟨hmem, rfl⟩ := mem_of_find hr₀
      have hholds : holds l.orders r₀.orderRef r.isBuy = true := by
        rw [h.holds_eq hmem]
        exact beq_iff_eq.mpr hbetter.1
      rw [Call.supply, if_pos ⟨hholds, hbetter.2⟩]
    | execute | cancel | delete => exact hx.elim
  | submit preventSelfTrade order =>
    obtain ⟨htype, n, hn, rfl⟩ := hx
    have hlt := order.quantity.toNat_lt
    have hnat : (order.remainder n).shares.toNat = n :=
      UInt32.toNat_ofNat_of_lt' (show _ < 2 ^ 32 by omega)
    rw [Call.supply, if_pos ⟨hbetter.1, htype, hbetter.2⟩, hnat]
    exact hn

/-- **A call raises what has to be taken** by what it supplies at most. -/
theorem WF.sharesUpTo_call (h : WF l) (hr : r ∈ l.orders) (hr' : r' ∈ (l.perform c).orders)
    (href : r'.orderRef = r.orderRef) (hc : c.Spares r.orderRef) :
    sharesOf ((l.perform c).usedUpTo r') ≤ sharesOf (l.usedUpTo r) + c.supply l.orders r := by
  obtain ⟨hworn, hahead⟩ := h.ahead_call hr hr' href hc
  have hle : ∀ x y : Resting, x.Worn y → x.shares.toNat ≤ y.shares.toNat := fun x y hxy =>
    UInt32.le_iff_toNat_le.mp hxy.shares_le
  have hfront : sharesOf (Lib.ahead Resting.orderRef r'.orderRef
        ((l.perform c).queue r'.price r'.isBuy)) ≤
      sharesOf (Lib.ahead Resting.orderRef r.orderRef (l.queue r.price r.isBuy)) :=
    sum_le_of_sublist hle hahead
  have hown : sharesOf [r'] ≤ sharesOf [r] := hle r' r hworn
  -- the orders at better prices are some of those that were, and what comes in
  have hbetter : sharesOf ((l.perform c).orders.filter fun x => x.outbids r') ≤
      sharesOf (l.orders.filter fun x => x.outbids r) + c.supply l.orders r := by
    obtain ⟨kept, come, horders, hkept, hcome⟩ := h.arrivals c
    have hfilter : sharesOf (kept.filter fun x => x.outbids r) ≤
        sharesOf (l.orders.filter fun x => x.outbids r) :=
      sum_le_of_sublist hle (sublist_filter
        (fun x y hxy => Resting.outbids_congr hxy.same.price hxy.same.isBuy rfl rfl) hkept)
    rw [horders, hworn.same.outbids_eq, List.filter_append, sharesOf_append]
    refine Nat.add_le_add hfilter ?_
    rcases hcome with rfl | ⟨x, rfl, hx⟩
    · exact Nat.zero_le _
    · rw [List.filter_cons]
      split
      · next hout => exact h.brings_supply hx hout
      · exact Nat.zero_le _
  unfold usedUpTo Liquibook.usedUpTo
  rw [sharesOf_append, sharesOf_append, sharesOf_append, sharesOf_append]
  omega

/-! ### What an order of the other side does -/

/-- What is left of an order that a submitted one spares. -/
theorem WF.settle_submit (h : WF l) (hr : r ∈ l.orders)
    (hr' : r' ∈ (l.submit preventSelfTrade order).2.orders) (href : r'.orderRef = r.orderRef)
    (hc : order.orderRef ≠ r.orderRef) :
    settle (taken (l.taking preventSelfTrade order)) r = some r' := by
  rw [h.submit_orders] at hr'
  rcases List.mem_append.mp hr' with hr' | hr'
  · obtain ⟨x, hx, hsettle⟩ := List.mem_filterMap.mp hr'
    rwa [← h.eq_of_ref hx hr ((settle_eq_some hsettle).1.symm.trans href)]
  · rcases restedOf_cases order (l.taking preventSelfTrade order) l.orders l.capacity with e | e
    · rw [rested, e] at hr'
      cases hr'
    · rw [rested, e, List.mem_singleton] at hr'
      rw [hr'] at href
      exact absurd href hc

/-- Fills are all that a submitted order changes on the other side. -/
theorem WF.filter_submit (h : WF l) {P : Resting → Bool}
    (hP : ∀ x, P x = true → x.isBuy = !order.isBuy)
    (hsettle : ∀ x y, settle (taken (l.taking preventSelfTrade order)) x = some y → P y = P x) :
    (l.submit preventSelfTrade order).2.orders.filter P =
      (l.orders.filter P).filterMap (settle (taken (l.taking preventSelfTrade order))) := by
  -- the remainder rests on the side of the order
  have hrest : (l.rested preventSelfTrade order).filter P = [] := by
    refine List.filter_eq_nil_iff.mpr fun x hx hPx => ?_
    have hside := hP x hPx
    rw [isBuy_of_mem_restedOf hx] at hside
    exact Bool.self_ne_not order.isBuy hside
  rw [h.submit_orders, List.filter_append, hrest, List.append_nil,
    filter_filterMap_settle hsettle]

/-- Fills change the orders that have to be used up, and leave the others out. -/
theorem WF.usedUpTo_submit (h : WF l) (hr : r ∈ l.orders) (hside : order.isBuy = !r.isBuy)
    (hsettle : settle (taken (l.taking preventSelfTrade order)) r = some r') :
    (l.submit preventSelfTrade order).2.usedUpTo r' =
      (l.usedUpTo r).filterMap (settle (taken (l.taking preventSelfTrade order))) := by
  obtain ⟨href, hprice, hsame, htrader⟩ := settle_eq_some hsettle
  have hopp : r.isBuy = !order.isBuy := by rw [hside, Bool.not_not]
  have hbetter : (l.submit preventSelfTrade order).2.orders.filter (fun x => x.outbids r') =
      (l.orders.filter fun x => x.outbids r).filterMap
        (settle (taken (l.taking preventSelfTrade order))) := by
    rw [(⟨href, hprice, hsame, htrader⟩ : r.SameOrder r').outbids_eq]
    refine h.filter_submit (fun x hx => ?_) fun x y hxy => ?_
    · rw [Resting.outbids, Bool.and_eq_true, beq_iff_eq] at hx
      exact hx.1.trans hopp
    · obtain ⟨-, hp, hs, -⟩ := settle_eq_some hxy
      exact Resting.outbids_congr hp hs rfl rfl
  have hqueue : (l.submit preventSelfTrade order).2.queue r'.price r'.isBuy =
      (l.queue r.price r.isBuy).filterMap
        (settle (taken (l.taking preventSelfTrade order))) := by
    rw [hprice, hsame]
    refine h.filter_submit (fun x hx => (of_decide_eq_true hx).2.trans hopp) fun x y hxy => ?_
    obtain ⟨-, hp, hs, -⟩ := settle_eq_some hxy
    rw [hp, hs]
  have hahead : Lib.ahead Resting.orderRef r.orderRef ((l.queue r.price r.isBuy).filterMap
        (settle (taken (l.taking preventSelfTrade order)))) =
      (Lib.ahead Resting.orderRef r.orderRef (l.queue r.price r.isBuy)).filterMap
        (settle (taken (l.taking preventSelfTrade order))) := by
    refine ahead_filterMap (fun x y hxy => (settle_eq_some hxy).1) fun x hx hxr => ?_
    rw [h.eq_of_ref (mem_queue.mp hx).1 hr hxr, hsettle]
    exact Option.some_ne_none r'
  unfold usedUpTo Liquibook.usedUpTo
  rw [List.filterMap_append, List.filterMap_append, hbetter, hqueue, href, hahead,
    List.filterMap_cons_some hsettle, List.filterMap_nil]

theorem mem_orders_of_usedUpTo (hr : r ∈ l.orders) (hx : x ∈ l.usedUpTo r) : x ∈ l.orders := by
  rcases List.mem_append.mp hx with hx | hx
  · rcases List.mem_append.mp hx with hx | hx
    · exact List.mem_of_mem_filter hx
    · exact (mem_queue.mp ((List.takeWhile_prefix _).subset hx)).1
  · rw [List.mem_singleton.mp hx]
    exact hr

/-- What is reached before `r` is used up before it. -/
theorem Exact.mem_usedUpTo (he : Exact l) (h : WF l) (hb : Bounded l) {pre post : List Resting}
    (hside : order.isBuy = !r.isBuy) (hreach : l.reach preventSelfTrade order = pre ++ r :: post)
    (hx : x ∈ pre ++ [r]) : x ∈ l.usedUpTo r := by
  rcases List.mem_append.mp hx with hx | hx
  · refine List.mem_append_left _ ?_
    have hxr : x ∈ l.reach preventSelfTrade order := hreach ▸ List.mem_append_left _ hx
    obtain ⟨hxl, hxside, -⟩ := mem_reach hxr
    have hord := he.pairwise_reach h hb preventSelfTrade order
    rw [hreach, List.pairwise_append] at hord
    have hopp : (!order.isBuy) = r.isBuy := by rw [hside, Bool.not_not]
    rw [hopp] at hxside hord
    rcases hord.2.2 x hx r List.mem_cons_self with hbetter | ⟨hprice, hsub⟩
    · refine List.mem_append_left _ (List.mem_filter.mpr ⟨hxl, ?_⟩)
      rw [Resting.outbids, Bool.and_eq_true, beq_iff_eq]
      exact ⟨hxside, hbetter⟩
    · refine List.mem_append_right _ (mem_ahead ?_ (hprice ▸ hsub))
      exact h.nodup.sublist (List.filter_sublist.map _)
  · exact List.mem_append_right _ hx

/-- An order that crosses and leaves `r` there is filled whole, by orders before `r` and by
`r` itself. -/
theorem WF.taking_usedUpTo (h : WF l) (hb : Bounded l) (he : Exact l) (hr : r ∈ l.orders)
    (hside : order.isBuy = !r.isBuy) (hcross : crosses order r.price = true)
    (htype : order.type ≠ .fok) (hoff : StpOff preventSelfTrade order)
    (hleft : taken (l.taking preventSelfTrade order) r.orderRef ≠ r.shares.toNat) :
    amount (l.taking preventSelfTrade order) = order.quantity.toNat ∧
      ∀ f ∈ l.taking preventSelfTrade order, f.1 ∈ l.usedUpTo r := by
  have hreached : r ∈ l.reach preventSelfTrade order := by
    rw [he.reach_eq_crossing h hb hoff, mem_crossing]
    exact ⟨hr, by rw [hside, Bool.not_not], hcross⟩
  obtain ⟨pre, post, hreach⟩ := List.append_of_mem hreached
  have hfs : l.taking preventSelfTrade order =
      greedy Resting.weight order.quantity.toNat (pre ++ [r]) ++
        greedy Resting.weight
          (order.quantity.toNat - ((pre ++ [r]).map Resting.weight).sum) post := by
    rw [l.taking_of_ne_fok preventSelfTrade htype, fills, hreach, List.append_cons, greedy_append]
  -- or else `r` would be used up
  have hlt : order.quantity.toNat < ((pre ++ [r]).map Resting.weight).sum := by
    by_contra hge
    have hpos : ∀ y ∈ pre ++ [r], 0 < y.weight := by
      intro y hy
      have hy' : y ∈ l.reach preventSelfTrade order := by
        rw [hreach, List.append_cons]
        exact List.mem_append_left _ hy
      exact toNat_pos (h.positive y (mem_reach hy').1)
    have hmem : (r, r.weight) ∈ l.taking preventSelfTrade order := by
      rw [hfs, greedy_of_sum_le hpos (not_lt.mp hge)]
      refine List.mem_append_left _ (List.mem_map_of_mem ?_)
      exact List.mem_append_right _ (List.mem_singleton_self r)
    exact hleft ((h.takes_taking preventSelfTrade order).taken_eq hmem)
  rw [Nat.sub_eq_zero_of_le hlt.le, greedy_zero, List.append_nil] at hfs
  rw [hfs]
  refine ⟨?_, fun f hf => he.mem_usedUpTo h hb hside hreach (mem_greedy hf).1⟩
  rw [amount, sum_greedy, Nat.min_eq_left hlt.le]

/-- **An order that crosses lowers what has to be taken** by all that it wants, if it leaves
the order there. -/
theorem WF.sharesUpTo_demand (h : WF l) (hb : Bounded l) (he : Exact l) (hr : r ∈ l.orders)
    (hr' : r' ∈ (l.submit preventSelfTrade order).2.orders) (href : r'.orderRef = r.orderRef)
    (hc : order.orderRef ≠ r.orderRef) (hside : order.isBuy = !r.isBuy)
    (hcross : crosses order r.price = true) (htype : order.type ≠ .fok)
    (hoff : StpOff preventSelfTrade order) :
    sharesOf ((l.submit preventSelfTrade order).2.usedUpTo r') + order.quantity.toNat ≤
      sharesOf (l.usedUpTo r) := by
  have hsettle := h.settle_submit hr hr' href hc
  have ht := h.takes_taking preventSelfTrade order
  have hleft : taken (l.taking preventSelfTrade order) r.orderRef ≠ r.shares.toNat := by
    intro hall
    rw [settle, if_pos hall] at hsettle
    cases hsettle
  obtain ⟨hamount, hbefore⟩ := h.taking_usedUpTo hb he hr hside hcross htype hoff hleft
  have hlost := sharesOf_settle fun x hx => ht.taken_le h (mem_orders_of_usedUpTo hr hx)
  have hle := amount_le_taken hbefore
  rw [h.usedUpTo_submit hr hside hsettle]
  omega

/-- **A call changes what has to be taken** by what it demands and what it supplies. -/
theorem WF.sharesUpTo_perform (h : WF l) (hb : Bounded l) (he : Exact l) (hr : r ∈ l.orders)
    (hr' : r' ∈ (l.perform c).orders) (href : r'.orderRef = r.orderRef)
    (hc : c.Spares r.orderRef) :
    sharesOf ((l.perform c).usedUpTo r') + c.demand r ≤
      sharesOf (l.usedUpTo r) + c.supply l.orders r := by
  cases c with
  | book op => exact h.sharesUpTo_call hr hr' href hc
  | submit preventSelfTrade order =>
    rw [Call.demand]
    split
    · next hd =>
      obtain ⟨hside, hcross, htype, hoff⟩ := hd
      exact Nat.le_add_right_of_le
        (h.sharesUpTo_demand hb he hr hr' href hc hside hcross htype hoff)
    · exact h.sharesUpTo_call hr hr' href hc

end Ledger

/-! ### Along a run -/

/-- From `b` to `b'` calls are made and orders are submitted while the order `r` of `b`
waits, and no total wraps.  Altogether they demand `demanded` shares and supply `supplied`. -/
inductive Pressed (r : Resting) (b : OrderBook) : ℕ → ℕ → OrderBook → Prop where
  | here (hr : r ∈ b.liveOrders) : Pressed r b 0 0 b
  | call {demanded supplied : ℕ} {b₁ b' : OrderBook} {events : List Event} (c : Call)
      (h : Pressed r b demanded supplied b₁) (hc : c.Spares r.orderRef)
      (hcall : b₁.perform c = some (events, b')) (hP : LevelSumsBounded b')
      (hlive : b'.IsLive r.orderRef) :
      Pressed r b (demanded + c.demand r) (supplied + c.supply b₁.liveOrders r) b'

/-- What is demanded and supplied depends on the price and the side of the order only. -/
theorem Call.demand_congr {r r' : Resting} (h : r.SameOrder r') (c : Call) :
    c.demand r' = c.demand r := by
  unfold demand
  rw [h.price, h.isBuy]

theorem Call.supply_congr {r r' : Resting} (h : r.SameOrder r') {rs rs' : List Resting}
    (hperm : rs.Perm rs') (c : Call) : c.supply rs' r' = c.supply rs r := by
  have hholds : ∀ ref side, holds rs' ref side = holds rs ref side := fun _ _ => hperm.symm.any_eq
  unfold supply
  simp only [h.price, h.isBuy, hholds]

/-- **No order waits forever**, if no total wraps.  What is demanded of an order and those
before it while it waits is less than what had to be taken at the start and what is put in
before it on the way: by the difference, which still has to be taken. -/
theorem waiting_bounded {b b' : OrderBook} {r : Resting} {demanded supplied : ℕ}
    (hb : Reached (fun _ => True) LevelSumsBounded b) (h : Pressed r b demanded supplied b') :
    ∃ r' ∈ b'.liveOrders, r'.Worn r ∧
      b'.sharesUpTo r' + demanded ≤ b.sharesUpTo r + supplied ∧
      demanded < b.sharesUpTo r + supplied := by
  obtain ⟨l, hl, hbound, hexact⟩ := hb.exact fun _ => id
  -- along the run the book refines a ledger with exact best prices
  have hrun : ∃ l', Refines b' l' ∧ l'.Bounded ∧ l'.Exact ∧ ∃ r' ∈ l'.orders, r'.Worn r ∧
      sharesOf (l'.usedUpTo r') + demanded ≤ b.sharesUpTo r + supplied := by
    induction h with
    | here hr =>
      exact ⟨l, hl, hbound, hexact, r, hl.mem_liveOrders.mp hr, .refl r,
        (congrArg (· + 0) (hl.sharesUpTo_eq r)).ge⟩
    | @call _ _ b₁ b' _ c _ hc hcall hP hlive ih =>
      obtain ⟨l₁, hl₁, hbound₁, hexact₁, r₁, hr₁, hworn, hle⟩ := ih
      have hl' := hl₁.perform hcall
      obtain ⟨r', hr', href⟩ := hlive
      have hr'' := hl'.mem_liveOrders.mp hr'
      have heq : r'.orderRef = r₁.orderRef := href.trans hworn.same.orderRef.symm
      have hspares : c.Spares r₁.orderRef := by rwa [hworn.same.orderRef]
      have hworn' := (hl₁.wf.ahead_call hr₁ hr'' heq hspares).1
      have hstep := hl₁.wf.sharesUpTo_perform hbound₁ hexact₁ hr₁ hr'' heq hspares
      rw [c.demand_congr hworn.same, c.supply_congr hworn.same hl₁.liveOrders_perm] at hstep
      refine ⟨_, hl', hl'.bounded_iff.mp hP, hexact₁.perform hl₁.wf hbound₁ c, r', hr'',
        hworn'.trans hworn, ?_⟩
      omega
  obtain ⟨l', hl', -, -, r', hr', hworn, hle⟩ := hrun
  rw [← hl'.sharesUpTo_eq] at hle
  have hpos : 0 < b'.sharesUpTo r' := by
    rw [hl'.sharesUpTo_eq, Ledger.usedUpTo, usedUpTo, sharesOf_append]
    exact Nat.add_pos_right _ (toNat_pos (hl'.wf.positive r' hr'))
  exact ⟨r', hl'.mem_liveOrders.mpr hr', hworn, hle, by omega⟩

/-- Asks of 30 and of 50 shares at 1001. -/
def pressedBook : OrderBook :=
  (OrderBook.new 1000 3 8).run [.add 1 1001 30 false 0, .add 2 1001 50 false 0]

/-- The same book after 40 shares are bought. -/
def pressedBook' : OrderBook :=
  ((submit false pressedBook ⟨3, 1001, 40, true, .ioc, 0⟩).getD ([], pressedBook)).2

/-- The second ask, while 40 shares are bought: there are still 40 to be taken. -/
theorem waiting_bounded_two : ∃ r' ∈ pressedBook'.liveOrders, r'.orderRef = 2 ∧
    pressedBook'.sharesUpTo r' + 40 ≤ pressedBook.sharesUpTo ⟨2, 1001, 50, false, 0⟩ := by
  have hsome : (submit false pressedBook ⟨3, 1001, 40, true, .ioc, 0⟩).isSome = true := by
    decide +kernel
  obtain ⟨⟨events, b'⟩, hsubmit⟩ := Option.isSome_iff_exists.mp hsome
  have hb' : pressedBook' = b' := by rw [pressedBook', hsubmit, Option.getD_some]
  have hpressed : Pressed ⟨2, 1001, 50, false, 0⟩ pressedBook 40 0 pressedBook' :=
    .call (.submit false ⟨3, 1001, 40, true, .ioc, 0⟩) (.here (by decide +kernel))
      (fun e => absurd e (by decide)) (hb' ▸ hsubmit)
      (levelSumsBounded_of_sharesOf (by decide +kernel))
      ⟨⟨2, 1001, 40, false, 0⟩, by decide +kernel, rfl⟩
  obtain ⟨r', hr', hworn, hle, -⟩ :=
    waiting_bounded (reached_run_bounded (by decide +kernel)) hpressed
  exact ⟨r', hr', hworn.same.orderRef, hle⟩

end Liquibook
