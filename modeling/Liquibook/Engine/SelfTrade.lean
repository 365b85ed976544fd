import Liquibook.Engine.Origins

/-!
# Self-trade prevention along a run

Self-trade prevention compares the trader of an incoming order with the trader that
the book stores with a resting one.  A run is followed here together with the owners
of the orders: the trader an order is added or rested with, and for the order that
`replace_order` creates the owner of the order it replaces.  `replace_order` carries
over the side of the old order and not its trader, so the owner of the new order and
the trader stored with it may differ, and then the owner can trade with itself.

## Main definitions

* `ownersAfter` — the owners after a call.
* `OwnedRun allowed b owner` — a run of allowed calls leads to `b` and these owners.
* `KeepsOwner` — the call replaces no order that has an owner.

## Main results

* `OwnedRun.traderId_eq` — the book stores the owners, if no call loses one.
* `no_self_trade` — **then no owner trades with itself.**
* `self_trade_after_replace` — a run in which one does.
-/

namespace Liquibook

open Lib OrderBook MatchingEngine

/-- The owner of every reference that has been used. -/
abbrev Owners := OrderRef → TraderId

/-- The owner of the order that a call creates: the trader it is added with, or the
owner of the order it replaces. -/
def Op.owner (owner : Owners) : Op → TraderId
  | .add _ _ _ _ traderId => traderId
  | .replace oldRef _ _ _ => owner oldRef
  | _ => 0

/-- The owners after a call: an order that is created has the owner it is given. -/
def ownersAfter (b : OrderBook) (owner : Owners) : Call → Owners
  | .book op =>
      match op.creates with
      | none => owner
      | some ref => if (b.step op).1 then Function.update owner ref (op.owner owner) else owner
  | .submit preventSelfTrade order =>
      if rests preventSelfTrade b order then Function.update owner order.orderRef order.traderId
      else owner

/-- A run of allowed calls leads from a new book to `b`, with these owners. -/
inductive OwnedRun (allowed : OrderBook → Owners → Call → Prop) : OrderBook → Owners → Prop where
  | new (referencePrice : Price4) (halfWidth capacity : ℕ) :
      OwnedRun allowed (OrderBook.new referencePrice halfWidth capacity) fun _ => 0
  | call {b b' : OrderBook} {owner : Owners} {events : List Event} (c : Call)
      (h : OwnedRun allowed b owner) (hc : allowed b owner c)
      (hcall : b.perform c = some (events, b')) : OwnedRun allowed b' (ownersAfter b owner c)

/-- Orders are submitted with self-trade prevention. -/
def Call.prevents : Call → Prop
  | .submit preventSelfTrade _ => preventSelfTrade = true
  | .book _ => True

/-- Orders are submitted with self-trade prevention, and a live order that is replaced,
by a reference that is free then and with some shares, has no owner. -/
def KeepsOwner (b : OrderBook) (owner : Owners) (c : Call) : Prop :=
  c.prevents ∧ ∀ oldRef newRef newShares newPrice,
    c = .book (.replace oldRef newRef newShares newPrice) →
      b.IsLive oldRef → newShares ≠ 0 → (newRef = oldRef ∨ ¬ b.IsLive newRef) → owner oldRef = 0

variable {b b' : OrderBook} {l : Ledger} {owner : Owners} {events : List Event}

theorem OwnedRun.refines {allowed : OrderBook → Owners → Call → Prop}
    (h : OwnedRun allowed b owner) : ∃ l, Refines b l := by
  induction h with
  | new referencePrice halfWidth capacity => exact ⟨_, refines_new _ _ _⟩
  | call c _ _ hcall ih =>
    obtain ⟨l, hl⟩ := ih
    exact ⟨_, hl.perform hcall⟩

/-- A call of the book that replaces no owned order stores the owner of what it
creates. -/
theorem KeepsOwner.trader_eq (h : Refines b l) {op : Op} (hc : KeepsOwner b owner (.book op))
    (hok : (b.step op).1 = true) : op.trader = op.owner owner := by
  cases op with
  | add ref price shares isBuy traderId => rfl
  | execute ref shares => rfl
  | cancel ref shares => rfl
  | delete ref => rfl
  | replace oldRef newRef newShares newPrice =>
    have hfalse := h.replaceOrder_false_iff oldRef newRef newShares newPrice
    have hdone : ¬ (b.replaceOrder oldRef newRef newShares newPrice).1 = false := by
      rw [Bool.not_eq_false]
      exact hok
    rw [hfalse, not_or, not_or, not_not, not_and_or, not_not] at hdone
    obtain ⟨hlive, hpos, hfree⟩ := hdone
    exact (hc.2 oldRef newRef newShares newPrice rfl hlive hpos hfree).symm

/-- **One call**: the book goes on storing the owners. -/
theorem traderId_eq_perform (h : Refines b l)
    (hstored : ∀ r ∈ b.liveOrders, r.traderId = owner r.orderRef) {c : Call}
    (hc : KeepsOwner b owner c) (hcall : b.perform c = some (events, b')) :
    ∀ r ∈ b'.liveOrders, r.traderId = ownersAfter b owner c r.orderRef := by
  intro r hr
  have hr' := (h.perform hcall).mem_liveOrders.mp hr
  have hkept : ∀ r₀ ∈ l.orders, r₀.SameOrder r → r.traderId = owner r.orderRef := by
    intro r₀ hr₀ hsame
    rw [hsame.traderId, hsame.orderRef]
    exact hstored r₀ (h.mem_liveOrders.mpr hr₀)
  cases c with
  | book op =>
    have hresult : (b.step op).1 = (l.step op).1 := (h.step op).result
    rcases h.wf.mem_step hr' with ⟨r₀, hr₀, hsame, hother⟩ | ⟨hok, hcreates, htrader⟩
    -- an order that was there before has a different reference than a new one
    · rw [hkept r₀ hr₀ hsame, ownersAfter]
      cases hnew : op.creates with
      | none => rfl
      | some ref =>
        dsimp only
        split
        · next hok =>
          rw [hresult] at hok
          rw [Function.update_of_ne]
          intro e
          exact hother hok (by rw [hnew, e])
        · rfl
    -- a new order is stored with its owner, since nothing that has one is replaced
    · rw [← hresult] at hok
      rw [htrader, ownersAfter, hcreates]
      dsimp only
      rw [if_pos hok, Function.update_self, hc.trader_eq h hok]
  | submit preventSelfTrade order =>
    have hrests := h.rests_iff preventSelfTrade order
    rcases h.wf.mem_submit hr' with ⟨r₀, hr₀, hsame, hother⟩ | ⟨hrested, href, htrader⟩
    · rw [hkept r₀ hr₀ hsame, ownersAfter]
      split
      · next hok =>
        rw [Function.update_of_ne]
        exact fun e => hother (hrests.mp hok) e.symm
      · rfl
    · rw [htrader, ownersAfter, if_pos (hrests.mpr hrested), href, Function.update_self]

/-- **Along a run** the book stores the owners, if no call loses one. -/
theorem OwnedRun.traderId_eq (h : OwnedRun KeepsOwner b owner) :
    ∀ r ∈ b.liveOrders, r.traderId = owner r.orderRef := by
  induction h with
  | new referencePrice halfWidth capacity =>
    intro r hr
    rw [liveOrders_new] at hr
    cases hr
  | call c h hc hcall ih =>
    obtain ⟨l, hl⟩ := h.refines
    exact traderId_eq_perform hl ih hc hcall

/-- A fill is against an order that is eligible. -/
theorem eligible_of_mem_taking {preventSelfTrade : Bool} {order : IncomingOrder}
    {f : Resting × ℕ} (hf : f ∈ l.taking preventSelfTrade order) :
    f.1 ∈ l.orders ∧ eligible preventSelfTrade order f.1.traderId = true := by
  unfold Ledger.taking at hf
  split at hf
  · cases hf
  · have hreach := Ledger.mem_reach (mem_greedy hf).1
    exact ⟨hreach.1, hreach.2.2.2⟩

/-- **No owner trades with itself**, in a run that replaces no order that has an
owner. -/
theorem no_self_trade (h : OwnedRun KeepsOwner b owner) (order : IncomingOrder) :
    ∃ events b', submit true b order = some (events, b') ∧
      ∀ e ∈ fillsOf events, order.traderId ≠ 0 → owner e.restingRef ≠ order.traderId := by
  obtain ⟨l, hl⟩ := h.refines
  obtain ⟨b₁, b', hsub, -⟩ := hl.submit_seen true order rfl
  refine ⟨_, b', hsub, ?_⟩
  rw [fillsOf_events]
  intro e he htrader
  obtain ⟨f, hf, rfl⟩ := List.mem_map.mp he
  obtain ⟨hmem, helig⟩ := eligible_of_mem_taking hf
  change owner f.1.orderRef ≠ order.traderId
  rw [← h.traderId_eq f.1 (hl.mem_liveOrders.mpr hmem)]
  rw [eligible, if_neg (by simpa using htrader)] at helig
  exact bne_iff_ne.mp helig

/-- **A run in which an owner trades with itself**: trader 9 adds an ask and replaces
it.  The new ask is trader 9's too, but it is stored without a trader, and a bid of
trader 9 is filled against it. -/
theorem self_trade_after_replace :
    ∃ b owner, OwnedRun (fun _ _ c => c.prevents) b owner ∧
      ∃ events b', submit true b ⟨3, 1001, 50, true, .limit, 9⟩ = some (events, b') ∧
        ∃ e ∈ fillsOf events, owner e.restingRef = 9 := by
  have hnew : OwnedRun (fun _ _ c => c.prevents) (OrderBook.new 1000 3 8) fun _ => 0 :=
    .new 1000 3 8
  have hadd := OwnedRun.call (.book (.add 1 1001 50 false 9)) hnew trivial rfl
  have hreplace := OwnedRun.call (.book (.replace 1 2 50 1001)) hadd trivial rfl
  refine ⟨_, _, hreplace, _, _, rfl, ⟨3, 2, 1001, 50⟩, by decide +kernel, by decide +kernel⟩

/-- Without the replacement the ask of trader 9 is passed over, and only the ask
behind it is filled. -/
theorem no_self_trade_added :
    ∃ b owner, OwnedRun KeepsOwner b owner ∧ owner 1 = 9 ∧
      ∃ events b', submit true b ⟨3, 1001, 50, true, .limit, 9⟩ = some (events, b') ∧
        ∀ e ∈ fillsOf events, owner e.restingRef ≠ 9 := by
  have hnew : OwnedRun KeepsOwner (OrderBook.new 1000 3 8) fun _ => 0 := .new 1000 3 8
  have hfirst := OwnedRun.call (.book (.add 1 1001 50 false 9)) hnew
    ⟨trivial, fun _ _ _ _ e => by cases e⟩ rfl
  have hsecond := OwnedRun.call (.book (.add 2 1001 20 false 0)) hfirst
    ⟨trivial, fun _ _ _ _ e => by cases e⟩ rfl
  obtain ⟨events, b', hsub, hfills⟩ := no_self_trade hsecond ⟨3, 1001, 50, true, .limit, 9⟩
  exact ⟨_, _, hsecond, by decide +kernel, events, b', hsub,
    fun e he => hfills e he (by decide)⟩

end Liquibook
