import Liquibook.Engine.Outcome

/-!
# Orders with a remainder

What `submit` does with an order that wants more than matching reaches.  Everything
that is reached is filled whole and leaves the book, all other orders stay as they
are, and the remainder is reported.  It is reported as resting whenever it is one of
a limit order, and it rests if its reference and a slot are free by then.

## Main definitions

* `Rests` — the remainder of a limit order finds its reference and a slot free.

## Main results

* `Refines.submit_short` — **what is left when the order wants more than it reaches.**
-/

namespace Liquibook

open Lib OrderBook MatchingEngine

/-- The fills that use up the given orders. -/
def whole (rs : List Resting) : List (Resting × ℕ) := rs.map fun r => (r, r.weight)

/-- The remainder of a limit order that fills `reach` whole finds its reference and a
slot of the pool free: no order has them, or one that is filled whole does. -/
def Rests (b : OrderBook) (order : IncomingOrder) (reach : List Resting) : Prop :=
  (¬ b.IsLive order.orderRef ∨ order.orderRef ∈ reach.map Resting.orderRef) ∧
    (b.orderCount < b.orderPool.capacity ∨ reach ≠ [])

theorem amount_whole (rs : List Resting) : amount (whole rs) = sharesOf rs := by
  rw [amount, whole, List.map_map]
  rfl

namespace Ledger

variable {l : Ledger} {preventSelfTrade : Bool} {order : IncomingOrder} {rs : List Resting}

/-- An order that wants more than it reaches takes it whole. -/
theorem WF.taking_short (h : WF l) (htype : order.type ≠ .fok)
    (hshort : sharesOf (l.reach preventSelfTrade order) < order.quantity.toNat) :
    l.taking preventSelfTrade order = whole (l.reach preventSelfTrade order) := by
  rw [l.taking_of_ne_fok preventSelfTrade htype]
  refine greedy_of_sum_le (fun x hx => ?_) hshort.le
  exact toNat_pos (h.positive x (mem_reach hx).1)

/-- Orders that are used up are gone, and the others stay. -/
theorem WF.settle_whole (h : WF l) (ht : Takes l (whole rs)) {r : Resting} (hr : r ∈ l.orders) :
    settle (taken (whole rs)) r = if r ∈ rs then none else some r := by
  split
  · next hmem =>
    have hf : (r, r.weight) ∈ whole rs := List.mem_map_of_mem hmem
    have htaken : taken (whole rs) r.orderRef = r.shares.toNat := ht.taken_eq hf
    rw [settle, if_pos htaken]
  · next hnot =>
    refine settle_of_zero (h.positive r hr) (taken_eq_zero fun href => hnot ?_)
    obtain ⟨f, hf, href⟩ := List.mem_map.mp href
    rw [← h.eq_of_ref (ht.mem f hf) hr href]
    obtain ⟨x, hx, rfl⟩ := List.mem_map.mp hf
    exact hx

end Ledger

namespace OrderBook

variable {b : OrderBook} {l : Ledger} {preventSelfTrade : Bool} {order : IncomingOrder}
  {rs : List Resting}

theorem Refines.filterMap_settle_whole (h : Refines b l) (ht : l.Takes (whole rs)) :
    b.liveOrders.filterMap (settle (taken (whole rs))) =
      b.liveOrders.filter fun r => decide (r ∉ rs) := by
  rw [← List.filterMap_eq_filter]
  refine List.filterMap_congr fun r hr => ?_
  rw [h.wf.settle_whole ht (h.mem_liveOrders.mp hr)]
  by_cases hmem : r ∈ rs
  · simp [hmem, Option.guard]
  · simp [hmem, Option.guard]

/-- Whether the remainder rests, read off the book before the order. -/
theorem Refines.restedOf_whole (h : Refines b l) (ht : l.Takes (whole rs))
    (htype : order.type = .limit) (hshort : sharesOf rs < order.quantity.toNat) :
    restedOf order (whole rs) b.liveOrders b.orderPool.capacity = [] ∧ ¬ Rests b order rs ∨
      restedOf order (whole rs) b.liveOrders b.orderPool.capacity =
        [order.remainder (order.quantity.toNat - sharesOf rs)] ∧ Rests b order rs := by
  have hmem : ∀ r ∈ rs, r ∈ b.liveOrders := fun r hr =>
    h.mem_liveOrders.mpr (ht.mem (r, r.weight) (List.mem_map_of_mem hr))
  -- the reference is free once the filled orders are gone
  have hfree : (∀ x ∈ b.liveOrders.filter fun r => decide (r ∉ rs), x.orderRef ≠ order.orderRef) ↔
      ¬ b.IsLive order.orderRef ∨ order.orderRef ∈ rs.map Resting.orderRef := by
    constructor
    · intro hkept
      by_contra hno
      rw [not_or, not_not] at hno
      obtain ⟨⟨r, hr, href⟩, hnot⟩ := hno
      refine hkept r (List.mem_filter.mpr ⟨hr, decide_eq_true fun hrs => hnot ?_⟩) href
      exact href ▸ List.mem_map_of_mem hrs
    · intro hfree x hx hxref
      obtain ⟨hx, hnot⟩ := List.mem_filter.mp hx
      refine of_decide_eq_true hnot ?_
      obtain ⟨r, hr, href⟩ := List.mem_map.mp (hfree.resolve_left (not_not.mpr ⟨x, hx, hxref⟩))
      rw [← h.wf.eq_of_ref (h.mem_liveOrders.mp (hmem r hr)) (h.mem_liveOrders.mp hx)
        (href.trans hxref.symm)]
      exact hr
  -- so is a slot, if there was one before or if an order is filled
  have hslot : (b.liveOrders.filter fun r => decide (r ∉ rs)).length < b.orderPool.capacity ↔
      b.orderCount < b.orderPool.capacity ∨ rs ≠ [] := by
    rw [h.orderCount_eq, h.capacity_eq, ← h.length_liveOrders]
    have hle := h.wf.length_le
    rw [← h.length_liveOrders] at hle
    cases rs with
    | nil => simp
    | cons r rs =>
      have hlt : (b.liveOrders.filter fun x => decide (x ∉ r :: rs)).length <
          b.liveOrders.length := by
        refine List.length_filter_lt_length_iff_exists.mpr ⟨r, hmem r List.mem_cons_self, ?_⟩
        simp
      exact ⟨fun _ => Or.inr (List.cons_ne_nil _ _), fun _ => hlt.trans_le hle⟩
  unfold restedOf Rests
  dsimp only
  rw [h.filterMap_settle_whole ht, amount_whole, ← hfree, ← hslot]
  split
  · next hok => exact Or.inr ⟨rfl, hok.2.2⟩
  · next hno => exact Or.inl ⟨rfl, fun e => hno ⟨htype, hshort, e⟩⟩

/-- **What is left when the order wants more than it reaches**: what is reached is
filled whole and is gone, and the remainder is reported. -/
theorem Refines.submit_short (h : Refines b l) (htype : order.type ≠ .fok)
    (hshort : sharesOf (l.reach preventSelfTrade order) < order.quantity.toNat) :
    ∃ b', MatchingEngine.submit preventSelfTrade b order =
        some (((whole (l.reach preventSelfTrade order)).map (fillEvent order)).map .fill ++
          remainderEvents order
            (order.quantity.toNat - sharesOf (l.reach preventSelfTrade order)), b') ∧
      Refines b' (l.submit preventSelfTrade order).2 ∧
      b'.liveOrders.Perm
        (b.liveOrders.filter (fun r => decide (r ∉ l.reach preventSelfTrade order)) ++
          restedOf order (whole (l.reach preventSelfTrade order)) b.liveOrders
            b.orderPool.capacity) := by
  have hfs := h.wf.taking_short htype hshort
  have ht := h.wf.takes_taking preventSelfTrade order
  rw [hfs] at ht
  obtain ⟨b₁, b', hsub, -, -, href, hperm, -⟩ := h.submit_seen preventSelfTrade order hfs.symm
  rw [amount_whole] at hsub
  rw [h.filterMap_settle_whole ht] at hperm
  exact ⟨b', hsub, href, hperm⟩

end OrderBook
end Liquibook
