import Liquibook.Lib.Positions
import Liquibook.Engine.Origins

/-!
# Positions in the queues

New orders join a queue at its end, and a replaced order gives up its place.  So an order
that waits is never overtaken: whatever calls are made and orders are submitted, those in
front of it are some of those that were in front of it before, in the same order, and none
with more shares than it had.

## Main definitions

* `Resting.Worn` — an order, perhaps with fewer shares.
* `OrderBook.ahead` — the orders in front of an order in its queue.
* `Call.Brings` — what a call puts on the book.
* `Waits` — an order stays on the book along a run.

## Main results

* `WF.arrivals` — **a call makes the orders move on, and brings in one at most.**
* `queue_position_never_worsens` — **an order that waits is never overtaken.**
-/

namespace Liquibook

open Lib OrderBook MatchingEngine

/-- What is left of an order: the same one, with no more shares. -/
structure Resting.Worn (r r₀ : Resting) : Prop where
  same : r₀.SameOrder r
  shares_le : r.shares ≤ r₀.shares

theorem Resting.Worn.refl (r : Resting) : r.Worn r := ⟨.refl r, UInt32.le_refl _⟩

theorem Resting.Worn.trans {r r₁ r₀ : Resting} (h : r.Worn r₁) (h₁ : r₁.Worn r₀) : r.Worn r₀ where
  same :=
    { orderRef := h.same.orderRef.trans h₁.same.orderRef
      price := h.same.price.trans h₁.same.price
      isBuy := h.same.isBuy.trans h₁.same.isBuy
      traderId := h.same.traderId.trans h₁.same.traderId }
  shares_le := UInt32.le_trans h.shares_le h₁.shares_le

instance : IsTrans Resting Resting.Worn := ⟨fun _ _ _ h h₁ => h.trans h₁⟩

theorem worn_self (rs : List Resting) : List.SublistForall₂ Resting.Worn rs rs :=
  List.sublistForall₂_iff.mpr
    ⟨rs, List.forall₂_same.mpr fun x _ => .refl x, List.Sublist.refl rs⟩

/-- The call does not put a new order in the place of the order `ref`: it neither replaces
it under its own reference nor submits an order that has the reference. -/
def Call.Spares (ref : OrderRef) : Call → Prop
  | .book (.replace oldRef newRef _ _) => ¬ (oldRef = ref ∧ newRef = ref)
  | .book _ => True
  | .submit _ order => order.orderRef ≠ ref

/-- What a call brings in: the order of an `add_order`, the new order of a replacement, or
the remainder of a submitted order. -/
def Call.Brings (l : Ledger) : Call → Resting → Prop
  | .book (.add ref price shares isBuy traderId), x =>
      x = ⟨ref, price, shares, isBuy, traderId⟩ ∧ l.find ref = none
  | .book (.replace oldRef newRef newShares newPrice), x =>
      ∃ r, l.find oldRef = some r ∧ x = ⟨newRef, newPrice, newShares, r.isBuy, 0⟩ ∧
        (oldRef = newRef ∨ l.find newRef = none)
  | .submit _ order, x => order.type = .limit ∧ ∃ n ≤ order.quantity.toNat, x = order.remainder n
  | .book _, _ => False

/-! ### What a call does to the orders -/

namespace Ledger

variable {l : Ledger} {r : Resting}

/-- Some of the orders, as they are. -/
theorem sublist_remove (l : Ledger) (r : Resting) :
    List.SublistForall₂ Resting.Worn (l.remove r).orders l.orders := by
  rw [remove_orders]
  exact List.sublistForall₂_iff.mpr
    ⟨_, List.forall₂_same.mpr fun x _ => .refl x, WF.drop_sublist l r⟩

/-- One of the orders with fewer shares. -/
theorem WF.sublist_setShares (h : WF l) (hr : r ∈ l.orders) {n : Shares} (hle : n ≤ r.shares) :
    List.SublistForall₂ Resting.Worn (l.setShares r.orderRef n).orders l.orders := by
  rw [Ledger.setShares, List.sublistForall₂_map_left_iff]
  refine List.sublistForall₂_iff.mpr ⟨_, List.forall₂_same.mpr fun x hx => ?_, List.Sublist.refl _⟩
  split
  · next heq =>
    obtain rfl := h.eq_of_ref hx hr heq
    exact ⟨⟨rfl, rfl, rfl, rfl⟩, hle⟩
  · exact .refl x

theorem WF.sublist_reduce (h : WF l) (ref : OrderRef) (n : Shares) :
    List.SublistForall₂ Resting.Worn (l.reduce ref n).2.orders l.orders := by
  have hstay := worn_self l.orders
  unfold reduce
  cases hf : l.find ref with
  | none => exact hstay
  | some r =>
    obtain ⟨hr, rfl⟩ := mem_of_find hf
    dsimp only
    split
    · exact hstay
    · next hc =>
      rw [not_or, gt_iff_lt, UInt32.not_lt] at hc
      split
      · exact sublist_remove l r
      · refine h.sublist_setShares hr (UInt32.le_iff_toNat_le.mpr ?_)
        rw [UInt32.toNat_sub_of_le _ _ hc.2]
        exact Nat.sub_le _ _

/-- The orders that `n` shares are taken from, without these shares. -/
theorem sublist_settle {fs : List (Resting × ℕ)} (h : WF l) (ht : Takes l fs) :
    List.SublistForall₂ Resting.Worn (l.orders.filterMap (settle (taken fs))) l.orders := by
  refine sublist_filterMap fun x hx y hy => ?_
  obtain ⟨href, hprice, hside, htrader⟩ := settle_eq_some hy
  refine ⟨⟨href, hprice, hside, htrader⟩, ?_⟩
  have hle := ht.taken_le h hx
  have hlt := x.shares.toNat_lt
  unfold settle at hy
  split at hy
  · cases hy
  · rw [← Option.some.inj hy, UInt32.le_iff_toNat_le, UInt32.toNat_sub_of_le _ _ (by
      rw [UInt32.le_iff_toNat_le, UInt32.toNat_ofNat_of_lt' (show _ < 2 ^ 32 by omega)]
      exact hle)]
    exact Nat.sub_le _ _

/-- **A call makes the orders move on**: some of them stay, and at most one comes in. -/
theorem WF.arrivals (h : WF l) (c : Call) : ∃ kept come, (l.perform c).orders = kept ++ come ∧
    List.SublistForall₂ Resting.Worn kept l.orders ∧
      (come = [] ∨ ∃ x, come = [x] ∧ c.Brings l x) := by
  -- nothing comes in
  have hnone : ∀ {l' : Ledger}, List.SublistForall₂ Resting.Worn l'.orders l.orders →
      ∃ kept come, l'.orders = kept ++ come ∧ List.SublistForall₂ Resting.Worn kept l.orders ∧
        (come = [] ∨ ∃ x, come = [x] ∧ c.Brings l x) := fun {l'} hsub =>
    ⟨l'.orders, [], (List.append_nil _).symm, hsub, Or.inl rfl⟩
  cases c with
  | book op =>
    rw [perform]
    cases op with
    | add ref price shares isBuy traderId =>
      unfold Ledger.step Ledger.add
      dsimp only
      split
      · exact hnone (worn_self l.orders)
      · next hc =>
        rw [not_or, not_or, Option.not_isSome_iff_eq_none] at hc
        exact ⟨l.orders, [_], rfl, worn_self l.orders, Or.inr ⟨_, rfl, rfl, hc.2.1⟩⟩
    | execute ref shares => exact hnone (h.sublist_reduce ref shares)
    | cancel ref shares => exact hnone (h.sublist_reduce ref shares)
    | delete ref =>
      unfold Ledger.step Ledger.delete
      dsimp only
      cases l.find ref with
      | none => exact hnone (worn_self l.orders)
      | some r => exact hnone (sublist_remove l r)
    | replace oldRef newRef newShares newPrice =>
      unfold Ledger.step Ledger.replace
      dsimp only
      cases hf : l.find oldRef with
      | none => exact hnone (worn_self l.orders)
      | some r =>
        dsimp only
        split
        · exact hnone (worn_self l.orders)
        · next hc =>
          rw [not_or, not_and_or, not_not, Option.not_isSome_iff_eq_none] at hc
          exact ⟨(l.remove r).orders, [_], rfl, sublist_remove l r,
            Or.inr ⟨_, rfl, r, hf, rfl, hc.2⟩⟩
  | submit preventSelfTrade order =>
    refine ⟨_, _, h.submit_orders preventSelfTrade order,
      sublist_settle h (h.takes_taking preventSelfTrade order), ?_⟩
    unfold rested restedOf
    dsimp only
    split
    · next hrests => exact Or.inr ⟨_, rfl, hrests.1, _, Nat.sub_le _ _, rfl⟩
    · exact Or.inl rfl

/-- What comes in has a free reference, or takes the place of an order that the call does
not spare. -/
theorem WF.follows (h : WF l) (c : Call) :
    MovesOn Resting.Worn Resting.orderRef
      (fun ref => l.find ref = none ∨ ¬ c.Spares ref) (l.perform c).orders l.orders := by
  obtain ⟨kept, come, horders, hkept, hcome⟩ := h.arrivals c
  refine ⟨kept, come, horders, hkept, fun x hx => ?_⟩
  rcases hcome with rfl | ⟨y, rfl, hy⟩
  · cases hx
  rw [List.mem_singleton.mp hx]
  cases c with
  | book op =>
    cases op with
    | add ref price shares isBuy traderId =>
      obtain ⟨rfl, hfree⟩ := hy
      exact Or.inl hfree
    | replace oldRef newRef newShares newPrice =>
      obtain ⟨r, -, rfl, rfl | hfree⟩ := hy
      · exact Or.inr fun hspares => hspares ⟨rfl, rfl⟩
      · exact Or.inl hfree
    | execute | cancel | delete => exact hy.elim
  | submit preventSelfTrade order =>
    obtain ⟨-, n, -, rfl⟩ := hy
    exact Or.inr fun hspares => hspares rfl

end Ledger

/-! ### Along a run -/

namespace OrderBook

/-- The orders in front of the order `r` in its queue. -/
def ahead (b : OrderBook) (r : Resting) : List Resting :=
  Lib.ahead Resting.orderRef r.orderRef (b.queueAt r.price r.isBuy)

end OrderBook

/-- From `b` to `b'` calls are made and orders are submitted, and all the time an order
`ref` is live and spared. -/
inductive Waits (ref : OrderRef) (b : OrderBook) : OrderBook → Prop where
  | here (hlive : b.IsLive ref) : Waits ref b b
  | call {b₁ b' : OrderBook} {events : List Event} (c : Call) (h : Waits ref b b₁)
      (hc : c.Spares ref) (hcall : b₁.perform c = some (events, b')) (hlive : b'.IsLive ref) :
      Waits ref b b'

/-- What a call leaves of the orders in front of one that waits. -/
theorem Ledger.WF.ahead_call {l : Ledger} (h : l.WF) {c : Call} {r r' : Resting} (hr : r ∈ l.orders)
    (hr' : r' ∈ (l.perform c).orders) (href : r'.orderRef = r.orderRef)
    (hc : c.Spares r.orderRef) : r'.Worn r ∧
      List.SublistForall₂ Resting.Worn
        (Lib.ahead Resting.orderRef r'.orderRef ((l.perform c).queue r'.price r'.isBuy))
        (Lib.ahead Resting.orderRef r.orderRef (l.queue r.price r.isBuy)) := by
  have hmoves := h.follows c
  have hold : ¬ (l.find r.orderRef = none ∨ ¬ c.Spares r.orderRef) := by
    rw [Ledger.find_of_mem h.nodup hr]
    rintro (e | e)
    · cases e
    · exact e hc
  obtain ⟨r₀, hr₀, hworn⟩ := hmoves.mem_kept hr' (by rw [href]; exact hold)
  obtain rfl := h.eq_of_ref hr₀ hr (hworn.same.orderRef.symm.trans href)
  refine ⟨hworn, ?_⟩
  rw [href, hworn.same.price, hworn.same.isBuy]
  have hqueue : MovesOn Resting.Worn Resting.orderRef
      (fun ref => l.find ref = none ∨ ¬ c.Spares ref)
      ((l.perform c).queue r₀.price r₀.isBuy) (l.queue r₀.price r₀.isBuy) :=
    hmoves.filter fun x y hxy => by rw [hxy.same.price, hxy.same.isBuy]
  refine hqueue.ahead (fun x y hxy => hxy.same.orderRef) ?_ ?_ hold
  · exact h.nodup.sublist (List.filter_sublist.map _)
  · refine List.mem_map.mpr ⟨r', ?_, href⟩
    exact Ledger.mem_queue.mpr ⟨hr', hworn.same.price, hworn.same.isBuy⟩

/-- **An order that waits is never overtaken.**  Whatever is called and submitted while it
stays on the book, short of a replacement or a submitted order under its own reference, its
price and its side stay, its shares do not grow, the orders in front of it are some of those
that were, with no more shares, and so are the shares in front. -/
theorem queue_position_never_worsens {b b' : OrderBook} {ref : OrderRef} (hb : Reachable b)
    (h : Waits ref b b') : ∃ r ∈ b.liveOrders, ∃ r' ∈ b'.liveOrders, r.orderRef = ref ∧
      r'.Worn r ∧ List.SublistForall₂ Resting.Worn (b'.ahead r') (b.ahead r) ∧
      sharesOf (b'.ahead r') ≤ sharesOf (b.ahead r) := by
  obtain ⟨l, hl⟩ := hb.refines
  -- along the run the book refines a ledger
  have hrun : ∃ l', Refines b' l' ∧ ∃ r ∈ b.liveOrders, ∃ r' ∈ b'.liveOrders, r.orderRef = ref ∧
      r'.Worn r ∧ List.SublistForall₂ Resting.Worn (b'.ahead r') (b.ahead r) := by
    induction h with
    | here hlive =>
      obtain ⟨r, hr, href⟩ := hlive
      exact ⟨l, hl, r, hr, r, hr, href, .refl r, worn_self _⟩
    | call c _ hc hcall hlive ih =>
      obtain ⟨l₁, hl₁, r, hr, r₁, hr₁, href, hworn, hahead⟩ := ih
      obtain ⟨r', hr', href'⟩ := hlive
      have hl' := hl₁.perform hcall
      have heq : r'.orderRef = r₁.orderRef := by rw [href', hworn.same.orderRef, href]
      obtain ⟨hworn', hahead'⟩ := hl₁.wf.ahead_call (hl₁.mem_liveOrders.mp hr₁)
        (hl'.mem_liveOrders.mp hr') heq (by rw [← heq, href']; exact hc)
      refine ⟨_, hl', r, hr, r', hr', href, hworn'.trans hworn, ?_⟩
      unfold OrderBook.ahead at hahead ⊢
      rw [hl₁.queueAt_eq] at hahead
      rw [hl'.queueAt_eq]
      exact Trans.trans hahead' hahead
  obtain ⟨-, -, r, hr, r', hr', href, hworn, hahead⟩ := hrun
  refine ⟨r, hr, r', hr', href, hworn, hahead, sum_le_of_sublist (fun x y hxy => ?_) hahead⟩
  exact UInt32.le_iff_toNat_le.mp hxy.shares_le

/-- The second of two asks, while the first is executed in part and a third arrives. -/
theorem queue_position_never_worsens_two :
    ∃ r' ∈ ((OrderBook.new 1000 3 8).run [.add 1 1001 30 false 0, .add 2 1001 50 false 0,
        .execute 1 10, .add 3 1001 20 false 0]).liveOrders,
      r'.orderRef = 2 ∧ sharesOf (((OrderBook.new 1000 3 8).run [.add 1 1001 30 false 0,
        .add 2 1001 50 false 0, .execute 1 10, .add 3 1001 20 false 0]).ahead r') ≤ 30 := by
  have hstart : ((OrderBook.new 1000 3 8).run
      [.add 1 1001 30 false 0, .add 2 1001 50 false 0]).IsLive 2 :=
    ⟨⟨2, 1001, 50, false, 0⟩, by decide +kernel, rfl⟩
  have hwaits : Waits 2 ((OrderBook.new 1000 3 8).run
      [.add 1 1001 30 false 0, .add 2 1001 50 false 0])
      ((OrderBook.new 1000 3 8).run [.add 1 1001 30 false 0, .add 2 1001 50 false 0,
        .execute 1 10, .add 3 1001 20 false 0]) :=
    ((Waits.here hstart).call (.book (.execute 1 10)) trivial rfl
      ⟨⟨2, 1001, 50, false, 0⟩, by decide +kernel, rfl⟩).call (.book (.add 3 1001 20 false 0))
      trivial rfl ⟨⟨2, 1001, 50, false, 0⟩, by decide +kernel, rfl⟩
  obtain ⟨r, hr, r', hr', href, hworn, -, hle⟩ :=
    queue_position_never_worsens (reachable_run 1000 3 8 _) hwaits
  have hfront : ∀ r ∈ ((OrderBook.new 1000 3 8).run
      [.add 1 1001 30 false 0, .add 2 1001 50 false 0]).liveOrders, r.orderRef = 2 →
      sharesOf (((OrderBook.new 1000 3 8).run
        [.add 1 1001 30 false 0, .add 2 1001 50 false 0]).ahead r) ≤ 30 := by
    decide +kernel
  exact ⟨r', hr', hworn.same.orderRef.trans href, hle.trans (hfront r hr href)⟩

end Liquibook
