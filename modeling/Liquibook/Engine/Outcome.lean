import Liquibook.Engine.Priority

/-!
# The outcome of a submitted order

What the caller of `submit` sees: the events, in order, and the book afterwards.  In
every state a book can be in, with self-trade prevention on or off, the events
account for every share of the order and for every change of the book.  Without
self-trade prevention, and as long as the shares of a side fit in a share count, the
fills are those of price-time priority.

## Main definitions

* `fillsOf`, `Event.orderRef`, `Event.quantity`, `Event.isFill` — reading events.
* `SideSumsBounded` — the shares of either side fit in a share count.

## Main results

* `Refines.submit_seen` — what `submit` leaves of the orders and of the queues.
* `submit_conserves` — **no share is lost or made up.**
* `price_time_priority` — **the fills are those of price-time priority.**
-/

namespace Liquibook

open Lib OrderBook MatchingEngine

/-- The fills among the events. -/
def fillsOf (events : List Event) : List FillEvent :=
  events.filterMap fun
    | .fill e => some e
    | _ => none

namespace Event

/-- The reference of the incoming order, as an event carries it. -/
def orderRef : Event → OrderRef
  | .fill e => e.aggressorRef
  | .rest e => e.orderRef
  | .kill e => e.orderRef

/-- The shares an event is about. -/
def quantity : Event → ℕ
  | .fill e => e.quantity.toNat
  | .rest e => e.quantity.toNat
  | .kill e => e.unfilledQuantity.toNat

def isFill : Event → Bool
  | .fill _ => true
  | _ => false

theorem filled_append (es es' : List Event) (ref : OrderRef) :
    filled (es ++ es') ref = filled es ref + filled es' ref := by
  unfold filled
  rw [List.map_append, List.sum_append]

end Event

/-- The shares of either side fit in a share count. -/
def SideSumsBounded (b : OrderBook) : Prop :=
  ∀ side, sharesOf (b.liveOrders.filter fun r => r.isBuy == side) < 2 ^ 32

theorem SideSumsBounded.levelSumsBounded {b : OrderBook} (h : SideSumsBounded b) :
    LevelSumsBounded b := by
  intro p side
  refine (sharesOf_sublist ?_).trans_lt (h side)
  refine List.monotone_filter_right _ fun r hr => ?_
  rw [decide_eq_true_eq] at hr
  exact beq_iff_eq.mpr hr.2

/-! ### The events -/

/-- What is reported of a remainder. -/
def remainderEvents (order : IncomingOrder) (n : ℕ) : List Event :=
  if n = 0 then []
  else if order.type = .limit then
    [.rest { orderRef := order.orderRef, price := order.price, quantity := UInt32.ofNat n,
             isBuy := order.isBuy }]
  else [.kill { orderRef := order.orderRef, unfilledQuantity := UInt32.ofNat n }]

theorem Ledger.submit_events (l : Ledger) (preventSelfTrade : Bool) (order : IncomingOrder) :
    (l.submit preventSelfTrade order).1 =
      ((l.taking preventSelfTrade order).map (fillEvent order)).map .fill ++
        remainderEvents order
          (order.quantity.toNat - amount (l.taking preventSelfTrade order)) := by
  unfold submit settleRemainder remainderEvents
  dsimp only
  split
  · rfl
  · split <;> rfl

section Events

variable (order : IncomingOrder) (fs : List (Resting × ℕ)) (n : ℕ)

/-- The remainder is reported by one event at most, and by none that is a fill. -/
theorem remainderEvents_cases :
    (n = 0 ∧ remainderEvents order n = []) ∨
      ∃ e, n ≠ 0 ∧ remainderEvents order n = [e] ∧ e.isFill = false ∧
        e.orderRef = order.orderRef ∧ e.quantity = (UInt32.ofNat n).toNat ∧
        ((∃ r, e = .rest r) → order.type = .limit) := by
  unfold remainderEvents
  split
  · next h => exact Or.inl ⟨h, rfl⟩
  · next h =>
    split
    · next ht => exact Or.inr ⟨_, h, rfl, rfl, rfl, rfl, fun _ => ht⟩
    · exact Or.inr ⟨_, h, rfl, rfl, rfl, rfl, fun ⟨r, hr⟩ => by cases hr⟩

theorem fillsOf_events :
    fillsOf ((fs.map (fillEvent order)).map .fill ++ remainderEvents order n) =
      fs.map (fillEvent order) := by
  have htail : fillsOf (remainderEvents order n) = [] := by
    unfold remainderEvents
    split
    · rfl
    · split <;> rfl
  have hhead : ∀ es : List FillEvent, fillsOf (es.map .fill) = es := by
    intro es
    unfold fillsOf
    rw [List.filterMap_map]
    exact List.filterMap_some
  have happ : ∀ es es', fillsOf (es ++ es') = fillsOf es ++ fillsOf es' := by
    intro es es'
    exact List.filterMap_append
  rw [happ, hhead, htail, List.append_nil]

theorem Ledger.Takes.filled_events {l : Ledger} {fs : List (Resting × ℕ)} (ht : Takes l fs)
    (ref : OrderRef) :
    Event.filled ((fs.map (fillEvent order)).map .fill ++ remainderEvents order n) ref =
      taken fs ref := by
  have htail : Event.filled (remainderEvents order n) ref = 0 := by
    unfold remainderEvents
    split
    · rfl
    · split <;> rfl
  rw [Event.filled_append, ht.filled_eq, htail, add_zero]

theorem Ledger.Takes.sum_quantity {l : Ledger} {fs : List (Resting × ℕ)} (ht : Takes l fs) :
    (((fs.map (fillEvent order)).map Event.fill).map Event.quantity).sum = amount fs := by
  rw [List.map_map, List.map_map, amount]
  congr 1
  refine List.map_congr_left fun f hf => ?_
  exact UInt32.toNat_ofNat_of_lt' ((ht.le f hf).trans_lt f.1.shares.toNat_lt)

/-- The fills among the events report what is taken. -/
theorem Ledger.Takes.sum_fillsOf {l : Ledger} {fs : List (Resting × ℕ)} (ht : Takes l fs) :
    ((fillsOf ((fs.map (fillEvent order)).map .fill ++ remainderEvents order n)).map
      fun e => e.quantity.toNat).sum = amount fs := by
  rw [fillsOf_events, ← ht.sum_quantity order, List.map_map, List.map_map, List.map_map]
  rfl

/-- The events account for the quantity of the order: the fills, and one event for
what is left. -/
theorem Ledger.Takes.events_account {l : Ledger} {fs : List (Resting × ℕ)} (ht : Takes l fs)
    (hle : amount fs ≤ order.quantity.toNat) {events : List Event}
    (hevents : events = (fs.map (fillEvent order)).map .fill ++
      remainderEvents order (order.quantity.toNat - amount fs)) :
    (∀ e ∈ events, e.orderRef = order.orderRef) ∧
      (events.map Event.quantity).sum = order.quantity.toNat ∧
      (events.filter fun e => !e.isFill).length ≤ 1 ∧
      ((events.filter fun e => !e.isFill).length = 1 ↔
        ((fillsOf events).map fun e => e.quantity.toNat).sum < order.quantity.toNat) ∧
      ∀ e, .rest e ∈ events → order.type = .limit := by
  have hfill : ∀ e ∈ (fs.map (fillEvent order)).map Event.fill,
      e.isFill = true ∧ e.orderRef = order.orderRef := by
    intro e he
    obtain ⟨f, hf, rfl⟩ := List.mem_map.mp he
    obtain ⟨x, -, rfl⟩ := List.mem_map.mp hf
    exact ⟨rfl, rfl⟩
  -- what is not a fill is in the second part
  have hnofill : ((fs.map (fillEvent order)).map Event.fill).filter (fun e => !e.isFill) = [] :=
    List.filter_eq_nil_iff.mpr fun e he => by rw [(hfill e he).1]; simp
  have hfilled : ((fillsOf events).map fun e => e.quantity.toNat).sum = amount fs := by
    rw [hevents, ht.sum_fillsOf]
  rw [hfilled, hevents, List.map_append, List.sum_append, ht.sum_quantity, List.filter_append,
    hnofill, List.nil_append]
  rcases remainderEvents_cases order (order.quantity.toNat - amount fs) with
    ⟨hzero, hnil⟩ | ⟨e', hpos, hone, hnot, href, hquant, hrest⟩
  · rw [hnil, List.append_nil]
    refine ⟨fun e he => (hfill e he).2, ?_, Nat.zero_le _, ?_, ?_⟩
    · simp only [List.map_nil, List.sum_nil]
      omega
    · simp only [List.filter_nil, List.length_nil]
      omega
    · intro e he
      cases (hfill _ he).1
  · have hlt := order.quantity.toNat_lt
    rw [hone, List.filter_cons, hnot]
    refine ⟨?_, ?_, le_rfl, ⟨fun _ => by omega, fun _ => rfl⟩, ?_⟩
    · intro e he
      rcases List.mem_append.mp he with he | he
      · exact (hfill e he).2
      · rw [List.mem_singleton.mp he, href]
    · rw [List.map_singleton, List.sum_singleton, hquant,
        UInt32.toNat_ofNat_of_lt' (show _ < 2 ^ 32 by omega)]
      omega
    · intro e he
      rcases List.mem_append.mp he with he | he
      · cases (hfill _ he).1
      · exact hrest ⟨e, (List.mem_singleton.mp he).symm⟩

end Events

/-! ### The orders and the queues -/

theorem settle_eq_some {n : OrderRef → ℕ} {r r' : Resting} (h : settle n r = some r') :
    r'.orderRef = r.orderRef ∧ r'.price = r.price ∧ r'.isBuy = r.isBuy ∧
      r'.traderId = r.traderId := by
  unfold settle at h
  split at h
  · cases h
  · rw [← Option.some.inj h]
    exact ⟨rfl, rfl, rfl, rfl⟩

/-- What is left of some of the orders is some of what is left. -/
theorem filter_filterMap_settle {n : OrderRef → ℕ} {P : Resting → Bool}
    (hP : ∀ r r', settle n r = some r' → P r' = P r) (rs : List Resting) :
    (rs.filterMap (settle n)).filter P = (rs.filter P).filterMap (settle n) := by
  induction rs with
  | nil => rfl
  | cons r rs ih =>
    rw [List.filterMap_cons, List.filter_cons]
    cases hs : settle n r with
    | none =>
      dsimp only
      rw [ih]
      split
      · rw [List.filterMap_cons, hs]
      · rfl
    | some r' =>
      dsimp only
      rw [List.filter_cons, hP r r' hs, ih]
      split
      · rw [List.filterMap_cons, hs]
      · rfl

/-- A remainder rests on the side of its order. -/
theorem filter_restedOf_opposite (order : IncomingOrder) (fs : List (Resting × ℕ))
    (orders : List Resting) (capacity : ℕ) (p : Price4) :
    (restedOf order fs orders capacity).filter
      (fun r => decide (r.price = p ∧ r.isBuy = !order.isBuy)) = [] := by
  refine List.filter_eq_nil_iff.mpr fun r hr hat => ?_
  rw [decide_eq_true_eq, isBuy_of_mem_restedOf hr] at hat
  exact absurd hat.2 (by cases order.isBuy <;> simp)

theorem restedOf_perm (order : IncomingOrder) (fs : List (Resting × ℕ)) {rs rs' : List Resting}
    (h : rs.Perm rs') (capacity : ℕ) :
    restedOf order fs rs capacity = restedOf order fs rs' capacity := by
  have hperm := h.filterMap (settle (taken fs))
  unfold restedOf
  simp only [hperm.mem_iff, hperm.length_eq]

namespace OrderBook

variable {b : OrderBook} {l : Ledger} {preventSelfTrade : Bool} {order : IncomingOrder}

/-- **What `submit` leaves of the orders and of the queues.** -/
theorem Refines.submit_seen (h : Refines b l) (preventSelfTrade : Bool) (order : IncomingOrder)
    {fs : List (Resting × ℕ)} (hfs : fs = l.taking preventSelfTrade order) :
    ∃ b₁ b', MatchingEngine.submit preventSelfTrade b order =
        some ((fs.map (fillEvent order)).map .fill ++
          remainderEvents order (order.quantity.toNat - amount fs), b') ∧
      Replays b (fs.map (fillEvent order)) b₁ ∧ b' = settled b₁ order fs ∧
      Refines b' (l.submit preventSelfTrade order).2 ∧
      b'.liveOrders.Perm (b.liveOrders.filterMap (settle (taken fs)) ++
        restedOf order fs b.liveOrders b.orderPool.capacity) ∧
      ∀ p side, b'.queueAt p side = (b.queueAt p side).filterMap (settle (taken fs)) ++
        (restedOf order fs b.liveOrders b.orderPool.capacity).filter
          fun r => decide (r.price = p ∧ r.isBuy = side) := by
  obtain ⟨b₁, b', hsub, hreplay, hb', href⟩ := h.submit preventSelfTrade order
  have horders := h.wf.submit_orders preventSelfTrade order
  rw [Ledger.rested, ← h.capacity_eq, ← restedOf_perm _ _ h.liveOrders_perm] at horders
  rw [l.submit_events] at hsub
  rw [← hfs] at hsub hreplay hb' horders
  refine ⟨b₁, b', hsub, hreplay, hb', href, ?_, ?_⟩
  · refine href.liveOrders_perm.trans ?_
    rw [horders]
    exact (h.liveOrders_perm.symm.filterMap _).append_right _
  · intro p side
    rw [href.queueAt_eq, h.queueAt_eq, Ledger.queue, horders, List.filter_append,
      filter_filterMap_settle]
    · rfl
    · intro r r' hs
      obtain ⟨-, hp, hside, -⟩ := settle_eq_some hs
      rw [hp, hside]

end OrderBook

/-! ### Conservation -/

variable {b : OrderBook} {preventSelfTrade : Bool} {order : IncomingOrder}

/-- **No share is lost or made up.**  Submitting an order ends.  Its fills are
successful executions of live orders, the remainder is settled on the book they
leave, every order is left with its shares less the fills that name it, and is gone
if these are all, the other orders and the queues of the opposite side stay as they
are, and the events add up to the quantity of the order. -/
theorem submit_conserves (hb : Reachable b) (preventSelfTrade : Bool) (order : IncomingOrder) :
    ∃ events b', submit preventSelfTrade b order = some (events, b') ∧
      (∃ b₁, Replays b (fillsOf events) b₁ ∧
        (b' = b₁ ∨ ∃ n, b' =
          (b₁.addOrder order.orderRef order.price n order.isBuy order.traderId).2)) ∧
      (∀ r ∈ b.liveOrders, Event.filled events r.orderRef ≤ r.shares.toNat) ∧
      (∃ rested, b'.liveOrders.Perm
          (b.liveOrders.filterMap (settle (Event.filled events)) ++ rested) ∧
        (rested = [] ∨ ∃ r, rested = [r] ∧ r.isBuy = order.isBuy ∧ r.orderRef = order.orderRef)) ∧
      (∀ p, b'.queueAt p (!order.isBuy) =
        (b.queueAt p !order.isBuy).filterMap (settle (Event.filled events))) ∧
      (∀ e ∈ events, e.orderRef = order.orderRef) ∧
      (events.map Event.quantity).sum = order.quantity.toNat ∧
      (events.filter fun e => !e.isFill).length ≤ 1 ∧
      ((events.filter fun e => !e.isFill).length = 1 ↔
        ((fillsOf events).map fun e => e.quantity.toNat).sum < order.quantity.toNat) ∧
      ∀ e, .rest e ∈ events → order.type = .limit := by
  obtain ⟨l, h⟩ := hb.refines
  obtain ⟨b₁, b', hsub, hreplay, hb', -, hperm, hqueue⟩ := h.submit_seen preventSelfTrade order rfl
  have ht := h.wf.takes_taking preventSelfTrade order
  have hle := l.amount_taking_le preventSelfTrade order
  set fs := l.taking preventSelfTrade order with hfs
  have hfilled := funext (ht.filled_events order (order.quantity.toNat - amount fs))
  have hrested : restedOf order fs b.liveOrders b.orderPool.capacity = [] ∨
      ∃ r, restedOf order fs b.liveOrders b.orderPool.capacity = [r] ∧ r.isBuy = order.isBuy ∧
        r.orderRef = order.orderRef := by
    rcases restedOf_cases order fs b.liveOrders b.orderPool.capacity with e | e
    · exact Or.inl e
    · exact Or.inr ⟨_, e, rfl, rfl⟩
  refine ⟨_, b', hsub, ⟨b₁, ?_, ?_⟩, ?_, ⟨_, ?_, hrested⟩, ?_,
    ht.events_account order hle rfl⟩
  · rw [fillsOf_events]
    exact hreplay
  · rw [hb', settled]
    split
    · exact Or.inr ⟨_, rfl⟩
    · exact Or.inl rfl
  · intro r hr
    rw [hfilled]
    exact ht.taken_le h.wf (h.mem_liveOrders.mp hr)
  · rw [hfilled]
    exact hperm
  · intro p
    rw [hfilled, hqueue, filter_restedOf_opposite, List.append_nil]

/-- A buy order of 100 shares against asks of 30 and 50: two fills, and 20 rest. -/
theorem submit_conserves_two_fills :
    ∃ events b', submit false ((OrderBook.new 1000 3 8).run
        [.add 1 1001 30 false 0, .add 2 1002 50 false 0]) ⟨3, 1002, 100, true, .limit, 0⟩ =
        some (events, b') ∧ (events.map Event.quantity).sum = 100 := by
  obtain ⟨events, b', hsub, -, -, -, -, -, hsum, -⟩ :=
    submit_conserves (reachable_run 1000 3 8 _) false ⟨3, 1002, 100, true, .limit, 0⟩
  exact ⟨events, b', hsub, hsum⟩

/-! ### Price-time priority -/

/-- What price-time priority takes from the orders that cross: as much as it can, in
order of priority, and nothing if a fill-or-kill order cannot be filled. -/
def priorityFills (b : OrderBook) (order : IncomingOrder) : List (Resting × ℕ) :=
  if order.type = .fok ∧ sharesOf (b.crossing order) < order.quantity.toNat then []
  else greedy Resting.weight order.quantity.toNat (b.crossing order)

/-- Without self-trade prevention the engine takes what priority does. -/
theorem taking_eq_priorityFills {l : Ledger} (h : Refines b l) (hbound : l.Bounded)
    (hexact : l.Exact) (hoff : StpOff preventSelfTrade order)
    (hsum : sharesOf (b.crossing order) < 2 ^ 32) :
    l.taking preventSelfTrade order = priorityFills b order := by
  have hreach := hexact.reach_eq_crossing h.wf hbound hoff
  unfold Ledger.taking priorityFills Ledger.fills
  rw [h.crossing_eq] at hsum ⊢
  rw [hreach]
  refine if_congr (and_congr_right fun _ => ?_) rfl rfl
  rw [← UInt32.not_le, Ledger.covers_iff, hexact.covers_iff_crossing h.wf hbound hoff hsum, not_le]

/-- **The fills are those of price-time priority**, whatever the type of the order:
one for each order touched, at its price.  Afterwards the orders are those there
were, each without what is taken from it and in the same queue order, and behind them
in its queue the remainder, if it rests. -/
theorem price_time_priority (hb : Reached (fun _ => True) SideSumsBounded b)
    (hoff : StpOff preventSelfTrade order) :
    ∃ events b', submit preventSelfTrade b order = some (events, b') ∧
      fillsOf events = (priorityFills b order).map (fillEvent order) ∧
      b'.liveOrders.Perm (b.liveOrders.filterMap (settle (taken (priorityFills b order))) ++
        restedOf order (priorityFills b order) b.liveOrders b.orderPool.capacity) ∧
      ∀ p side, b'.queueAt p side =
        (b.queueAt p side).filterMap (settle (taken (priorityFills b order))) ++
          (restedOf order (priorityFills b order) b.liveOrders b.orderPool.capacity).filter
            fun r => decide (r.price = p ∧ r.isBuy = side) := by
  obtain ⟨l, h, hbound, hexact⟩ := hb.exact fun _ => SideSumsBounded.levelSumsBounded
  have hsum : sharesOf (b.crossing order) < 2 ^ 32 := by
    have hperm := (h.wf.priority_perm !order.isBuy).trans (h.liveOrders_perm.symm.filter _)
    rw [OrderBook.crossing, h.priority_eq]
    refine (sharesOf_sublist List.filter_sublist).trans_lt ?_
    exact lt_of_eq_of_lt (hperm.map _).sum_eq (hb.here !order.isBuy)
  have hfs := taking_eq_priorityFills h hbound hexact hoff hsum
  obtain ⟨b₁, b', hsub, -, -, -, hperm, hqueue⟩ := h.submit_seen preventSelfTrade order hfs.symm
  exact ⟨_, b', hsub, fillsOf_events _ _ _, hperm, hqueue⟩

/-- Two asks at 1001, the first of them filled whole before the second. -/
theorem price_time_priority_two_asks :
    StpOff true ⟨3, 1005, 40, true, .ioc, 0⟩ ∧
      ∃ events b', submit true ((OrderBook.new 1000 3 8).run
        [.add 1 1001 30 false 0, .add 2 1001 50 false 0]) ⟨3, 1005, 40, true, .ioc, 0⟩ =
        some (events, b') ∧ fillsOf events = [⟨3, 1, 1001, 30⟩, ⟨3, 2, 1001, 10⟩] := by
  have hb : Reached (fun _ => True) SideSumsBounded ((OrderBook.new 1000 3 8).run
      [.add 1 1001 30 false 0, .add 2 1001 50 false 0]) := by
    have hsides : ∀ ops ∈ [Op.add 1 1001 30 false 0, .add 2 1001 50 false 0].inits, ∀ side,
        sharesOf (((OrderBook.new 1000 3 8).run ops).liveOrders.filter fun r => r.isBuy == side) <
          2 ^ 32 := by decide +kernel
    exact reached_run hsides
  have hoff : StpOff true ⟨3, 1005, 40, true, .ioc, 0⟩ := Or.inr rfl
  obtain ⟨events, b', hsub, hfills, -⟩ := price_time_priority hb hoff
  refine ⟨hoff, events, b', hsub, hfills.trans ?_⟩
  decide +kernel

end Liquibook
