import Liquibook.Engine.Outcome

/-!
# Where orders come from

An order that is on the book after a call was there before, perhaps with more shares,
or the call has just put it there.  A call puts an order on the book only if its
reference is free by then, so the two do not overlap.

## Main definitions

* `Resting.SameOrder` — two states of one order.
* `Op.trader` — the trader a call stores with the order it creates.
* `MatchingEngine.rests` — whether `submit` puts a remainder on the book.

## Main results

* `WF.mem_step` — **where the orders after a call of the book come from.**
* `WF.mem_submit` — **where the orders after a submitted order come from.**
* `Refines.rests_iff` — whether a remainder is put on the book.
-/

namespace Liquibook

open Lib OrderBook MatchingEngine

/-- The same order, perhaps with other shares. -/
structure Resting.SameOrder (r₀ r : Resting) : Prop where
  orderRef : r.orderRef = r₀.orderRef
  price : r.price = r₀.price
  isBuy : r.isBuy = r₀.isBuy
  traderId : r.traderId = r₀.traderId

theorem Resting.SameOrder.refl (r : Resting) : r.SameOrder r := ⟨rfl, rfl, rfl, rfl⟩

/-- The trader that a call stores with the order it creates.  `replace_order` stores
none. -/
def Op.trader : Op → TraderId
  | .add _ _ _ _ traderId => traderId
  | _ => 0

/-- Whether `submit` puts a remainder on the book: it is one of a limit order, and
`add_order` accepts it. -/
def MatchingEngine.rests (preventSelfTrade : Bool) (b : OrderBook) (order : IncomingOrder) : Bool :=
  match executeMatch preventSelfTrade b order with
  | none => false
  | some (filled, _, b₁) =>
      decide (order.type = .limit) && decide (order.quantity - filled ≠ 0) &&
        (b₁.addOrder order.orderRef order.price (order.quantity - filled) order.isBuy
          order.traderId).1

namespace Ledger

variable {l : Ledger} {r : Resting}

theorem add_fst_iff : (l.add r).1 = true ↔
    r.shares ≠ 0 ∧ l.find r.orderRef = none ∧ l.orders.length ≠ l.capacity := by
  unfold add
  split
  · next hbad =>
    refine ⟨fun e => (by cases e), fun ⟨hpos, hfree, hlen⟩ => ?_⟩
    rw [hfree] at hbad
    simp [hpos, hlen] at hbad
  · next hok =>
    rw [not_or, not_or, Option.not_isSome_iff_eq_none] at hok
    exact ⟨fun _ => hok, fun _ => rfl⟩

theorem mem_remove {r₀ : Resting} (hr : r ∈ (l.remove r₀).orders) : r ∈ l.orders := by
  rw [remove_orders] at hr
  exact (WF.drop_sublist l r₀).subset hr

/-- A reduction leaves orders that were there before. -/
theorem mem_reduce {ref : OrderRef} {n : Shares} (hr : r ∈ (l.reduce ref n).2.orders) :
    ∃ r₀ ∈ l.orders, r₀.SameOrder r := by
  unfold reduce at hr
  split at hr
  · exact ⟨r, hr, .refl r⟩
  · split at hr
    · exact ⟨r, hr, .refl r⟩
    · split at hr
      · exact ⟨r, mem_remove hr, .refl r⟩
      · obtain ⟨r₀, hr₀, rfl⟩ := List.mem_map.mp hr
        refine ⟨r₀, hr₀, ?_⟩
        split
        · exact ⟨rfl, rfl, rfl, rfl⟩
        · exact .refl r₀

/-- So does a deletion. -/
theorem mem_delete {ref : OrderRef} (hr : r ∈ (l.delete ref).2.orders) : r ∈ l.orders := by
  unfold delete at hr
  split at hr
  · exact hr
  · exact mem_remove hr

/-- **Where the orders after a call of the book come from**: one the call has not
created was there before, and has a different reference than one it has created. -/
theorem WF.mem_step (h : WF l) {op : Op} (hr : r ∈ (l.step op).2.orders) :
    (∃ r₀ ∈ l.orders, r₀.SameOrder r ∧ ((l.step op).1 = true → op.creates ≠ some r.orderRef)) ∨
      (l.step op).1 = true ∧ op.creates = some r.orderRef ∧ r.traderId = op.trader := by
  cases op with
  | add ref price shares isBuy traderId =>
    unfold Ledger.step Ledger.add at hr ⊢
    dsimp only at hr ⊢
    split
    · next hbad =>
      rw [if_pos hbad] at hr
      exact Or.inl ⟨r, hr, .refl r, fun e => by cases e⟩
    · next hok =>
      rw [if_neg hok, Ledger.append] at hr
      rcases List.mem_append.mp hr with hr | hr
      -- the call would have failed on a reference that is live
      · refine Or.inl ⟨r, hr, .refl r, fun _ e => hok (Or.inr (Or.inl ?_))⟩
        rw [Option.some.inj e, find_of_mem h.nodup hr]
        rfl
      · rw [List.mem_singleton.mp hr]
        exact Or.inr ⟨rfl, rfl, rfl⟩
  | execute ref shares =>
    obtain ⟨r₀, hr₀, hsame⟩ := mem_reduce hr
    exact Or.inl ⟨r₀, hr₀, hsame, fun _ e => by cases e⟩
  | cancel ref shares =>
    obtain ⟨r₀, hr₀, hsame⟩ := mem_reduce hr
    exact Or.inl ⟨r₀, hr₀, hsame, fun _ e => by cases e⟩
  | delete ref => exact Or.inl ⟨r, mem_delete hr, .refl r, fun _ e => by cases e⟩
  | replace oldRef newRef newShares newPrice =>
    unfold Ledger.step Ledger.replace at hr ⊢
    dsimp only at hr ⊢
    cases hf : l.find oldRef with
    | none =>
      rw [hf] at hr
      exact Or.inl ⟨r, hr, .refl r, fun e => by cases e⟩
    | some r₁ =>
      rw [hf] at hr
      obtain ⟨hr₁, rfl⟩ := mem_of_find hf
      dsimp only at hr ⊢
      split
      · next hbad =>
        rw [if_pos hbad] at hr
        exact Or.inl ⟨r, hr, .refl r, fun e => by cases e⟩
      · next hok =>
        rw [if_neg hok, Ledger.append] at hr
        rcases List.mem_append.mp hr with hr | hr
        -- the new reference is free once the old order is out, so no other order has it
        · have hfree := h.find_remove_new hr₁ (not_or.mp hok).2
          refine Or.inl ⟨r, mem_remove hr, .refl r, fun _ e => ?_⟩
          exact find_eq_none_iff.mp hfree r hr (Option.some.inj e).symm
        · rw [List.mem_singleton.mp hr]
          exact Or.inr ⟨rfl, rfl, rfl⟩

/-- **Where the orders after a submitted order come from.** -/
theorem WF.mem_submit (h : WF l) {preventSelfTrade : Bool} {order : IncomingOrder}
    (hr : r ∈ (l.submit preventSelfTrade order).2.orders) :
    (∃ r₀ ∈ l.orders, r₀.SameOrder r ∧
        (l.rested preventSelfTrade order ≠ [] → order.orderRef ≠ r.orderRef)) ∨
      l.rested preventSelfTrade order ≠ [] ∧ r.orderRef = order.orderRef ∧
        r.traderId = order.traderId := by
  rw [h.submit_orders] at hr
  unfold rested restedOf at hr ⊢
  dsimp only at hr ⊢
  rcases List.mem_append.mp hr with hkept | hrest
  · obtain ⟨r₀, hr₀, hsettle⟩ := List.mem_filterMap.mp hkept
    obtain ⟨href, hprice, hside, htrader⟩ := settle_eq_some hsettle
    refine Or.inl ⟨r₀, hr₀, ⟨href, hprice, hside, htrader⟩, ?_⟩
    split
    · next hok => exact fun _ e => hok.2.2.1 r hkept e.symm
    · exact fun e => absurd rfl e
  · split at hrest
    · next hok =>
      rw [if_pos hok, List.mem_singleton.mp hrest]
      exact Or.inr ⟨List.cons_ne_nil _ _, rfl, rfl⟩
    · cases hrest

end Ledger

/-- Whether a remainder is put on the book. -/
theorem OrderBook.Refines.rests_iff {b : OrderBook} {l : Ledger} (h : Refines b l)
    (preventSelfTrade : Bool) (order : IncomingOrder) :
    rests preventSelfTrade b order = true ↔ l.rested preventSelfTrade order ≠ [] := by
  obtain ⟨filled, b₁, hmatch, hleft, href, -⟩ := h.executeMatch preventSelfTrade order
  rw [h.wf.rested_eq, ite_ne_right_iff, and_iff_left (List.cons_ne_nil _ _), rests, hmatch]
  dsimp only
  rw [Bool.and_eq_true, Bool.and_eq_true, decide_eq_true_eq, decide_eq_true_eq, and_assoc]
  refine and_congr_right fun htype => ?_
  have hfs := l.taking_of_ne_fok preventSelfTrade (IncomingOrder.ne_fok_of_limit htype)
  have hpos : order.quantity - filled ≠ 0 ↔
      amount (l.taking preventSelfTrade order) < order.quantity.toNat := by
    rw [hfs, amount_fills, ne_eq, ← UInt32.toNat_inj, hleft, UInt32.toNat_zero]
    omega
  rw [(href.addOrder ⟨order.orderRef, order.price, order.quantity - filled, order.isBuy,
    order.traderId⟩).result, ← hfs, Ledger.add_fst_iff, hpos]
  exact ⟨fun e => ⟨e.1, e.2.2⟩, fun e => ⟨e.1, e.1, e.2⟩⟩

end Liquibook
