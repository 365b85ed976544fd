import Liquibook.Engine.Remainder

/-!
# Reports of resting orders

A report of a resting order is to be the truth: the order is on the book, and the side
has grown by its shares.  `submit` ignores what `add_order` returns, and reports a
remainder as resting also when the book has refused it, because the reference is
still live or the pool is full.

## Main definitions

* `Truthful` — what a report of a resting order says is so.

## Main results

* `restEvents_truthful_iff` — **the reports are true exactly when the remainder of a
  limit order finds its reference and a slot free.**
* `restEvent_refused` — a report of an order that the book has refused.
-/

namespace Liquibook

open Lib OrderBook MatchingEngine

/-- The order that is reported as resting is on the book, with the trader of the
incoming order, and its side has grown by its shares. -/
def Truthful (b b' : OrderBook) (order : IncomingOrder) (e : RestEvent) : Prop :=
  ⟨e.orderRef, e.price, e.quantity, e.isBuy, order.traderId⟩ ∈ b'.liveOrders ∧
    sharesOf (b'.liveOrders.filter fun r => r.isBuy == e.isBuy) =
      sharesOf (b.liveOrders.filter fun r => r.isBuy == e.isBuy) + e.quantity.toNat

variable {b b' : OrderBook} {l : Ledger} {preventSelfTrade : Bool} {order : IncomingOrder}

/-- A resting order is reported if there is a remainder of a limit order, and not
otherwise. -/
theorem rest_mem_events_iff (fs : List (Resting × ℕ)) (n : ℕ) (e : RestEvent) :
    .rest e ∈ (fs.map (fillEvent order)).map Event.fill ++ remainderEvents order n ↔
      (order.type = .limit ∧ n ≠ 0) ∧
        e = { orderRef := order.orderRef, price := order.price, quantity := UInt32.ofNat n,
              isBuy := order.isBuy } := by
  have hfill : .rest e ∉ (fs.map (fillEvent order)).map Event.fill := by
    intro he
    obtain ⟨f, -, hf⟩ := List.mem_map.mp he
    cases hf
  rw [List.mem_append, or_iff_right hfill]
  unfold remainderEvents
  by_cases hn : n = 0
  · simp [hn]
  · by_cases ht : order.type = .limit
    · simp [hn, ht]
    · simp [hn, ht]

/-- The own side, when what is reached on the opposite one is gone: what it was, and
the remainder if it rests. -/
theorem sharesOf_own_side {fs : List (Resting × ℕ)}
    (hperm : b'.liveOrders.Perm
      (b.liveOrders.filter (fun r => decide (r ∉ l.reach preventSelfTrade order)) ++
        restedOf order fs b.liveOrders b.orderPool.capacity)) :
    sharesOf (b'.liveOrders.filter fun r => r.isBuy == order.isBuy) =
      sharesOf (b.liveOrders.filter fun r => r.isBuy == order.isBuy) +
        sharesOf (restedOf order fs b.liveOrders b.orderPool.capacity) := by
  have hkept : (b.liveOrders.filter fun r => decide (r ∉ l.reach preventSelfTrade order)).filter
      (fun r => r.isBuy == order.isBuy) = b.liveOrders.filter fun r => r.isBuy == order.isBuy := by
    rw [List.filter_filter]
    refine List.filter_congr fun r _ => ?_
    by_cases hmem : r ∈ l.reach preventSelfTrade order
    · rw [(Ledger.mem_reach hmem).2.1]
      cases order.isBuy <;> simp
    · simp [hmem]
  have hrest : (restedOf order fs b.liveOrders b.orderPool.capacity).filter
      (fun r => r.isBuy == order.isBuy) = restedOf order fs b.liveOrders b.orderPool.capacity :=
    List.filter_eq_self.mpr fun r hr => beq_iff_eq.mpr (isBuy_of_mem_restedOf hr)
  have hsum := ((hperm.filter fun r => r.isBuy == order.isBuy).map fun r => r.shares.toNat).sum_eq
  rw [List.filter_append, hkept, hrest] at hsum
  exact hsum.trans (sharesOf_append _ _)

/-- The report of a remainder is true exactly when the remainder rests. -/
theorem truthful_iff_rests (h : Refines b l) (htype : order.type = .limit)
    (ht : l.Takes (whole (l.reach preventSelfTrade order))) {n : ℕ}
    (hn : n = order.quantity.toNat - sharesOf (l.reach preventSelfTrade order)) (hpos : 0 < n)
    (hperm : b'.liveOrders.Perm
      (b.liveOrders.filter (fun r => decide (r ∉ l.reach preventSelfTrade order)) ++
        restedOf order (whole (l.reach preventSelfTrade order)) b.liveOrders
          b.orderPool.capacity)) :
    Truthful b b' order { orderRef := order.orderRef, price := order.price,
                          quantity := UInt32.ofNat n, isBuy := order.isBuy } ↔
      Rests b order (l.reach preventSelfTrade order) := by
  have hnat : (UInt32.ofNat n).toNat = n := by
    have := order.quantity.toNat_lt
    exact UInt32.toNat_ofNat_of_lt' (show _ < 2 ^ 32 by omega)
  have hown := sharesOf_own_side hperm
  unfold Truthful
  dsimp only
  rw [hown, hnat]
  rcases h.restedOf_whole ht htype (by omega) with ⟨hnil, hno⟩ | ⟨hone, hyes⟩
  · -- the remainder does not rest, and the side does not grow
    rw [hnil]
    have hzero : sharesOf [] = 0 := rfl
    exact ⟨fun e => absurd e.2 (by omega), fun e => absurd e hno⟩
  · rw [hone, ← hn] at hperm ⊢
    have hshares : sharesOf [order.remainder n] = (UInt32.ofNat n).toNat + 0 := rfl
    refine ⟨fun _ => hyes, fun _ => ⟨?_, by omega⟩⟩
    exact hperm.mem_iff.mpr (List.mem_append_right _ (List.mem_singleton_self _))

/-- **The reports of resting orders are true exactly when** the order is no limit
order, or is filled by what matching reaches, or its remainder finds its reference
and a slot free. -/
theorem restEvents_truthful_iff (hb : Reachable b) (preventSelfTrade : Bool)
    (order : IncomingOrder) :
    ∃ events b', submit preventSelfTrade b order = some (events, b') ∧
      ((∀ e, .rest e ∈ events → Truthful b b' order e) ↔
        (order.type = .limit →
          sharesOf ((b.depth !order.isBuy).reach preventSelfTrade order) < order.quantity.toNat →
          Rests b order ((b.depth !order.isBuy).reach preventSelfTrade order))) := by
  obtain ⟨l, h⟩ := hb.refines
  have hreach : (b.depth !order.isBuy).reach preventSelfTrade order =
      l.reach preventSelfTrade order := by rw [h.depth_eq, Ledger.reach]
  rw [hreach]
  by_cases hrest : order.type = .limit ∧
      sharesOf (l.reach preventSelfTrade order) < order.quantity.toNat
  · obtain ⟨htype, hshort⟩ := hrest
    have hfok := IncomingOrder.ne_fok_of_limit htype
    obtain ⟨b', hsub, -, hperm⟩ := h.submit_short hfok hshort
    have ht := h.wf.takes_taking preventSelfTrade order
    rw [h.wf.taking_short hfok hshort] at ht
    have htrue := truthful_iff_rests h htype ht rfl (Nat.sub_pos_of_lt hshort) hperm
    refine ⟨_, b', hsub, ?_⟩
    constructor
    · intro hall _ _
      refine htrue.mp (hall _ ((rest_mem_events_iff _ _ _).mpr ⟨⟨htype, ?_⟩, rfl⟩))
      exact Nat.sub_ne_zero_of_lt hshort
    · intro hok e he
      rw [((rest_mem_events_iff _ _ e).mp he).2]
      exact htrue.mpr (hok htype hshort)
  · -- no resting order is reported
    obtain ⟨b₁, b', hsub, -⟩ := h.submit_seen preventSelfTrade order rfl
    refine ⟨_, b', hsub, fun _ htype hshort => absurd ⟨htype, hshort⟩ hrest, fun _ e he => ?_⟩
    obtain ⟨⟨htype, hn⟩, -⟩ := (rest_mem_events_iff _ _ e).mp he
    rw [l.taking_of_ne_fok preventSelfTrade (IncomingOrder.ne_fok_of_limit htype),
      amount_fills] at hn
    exact absurd ⟨htype, by omega⟩ hrest

/-- A bid on a book with a single slot. -/
def fullBook : OrderBook := (OrderBook.new 1000 3 1).run [.add 1 999 10 true 0]

theorem reachable_fullBook : Reachable fullBook := reachable_run 1000 3 1 _

/-- **A report of an order that the book has refused**: there is no slot left, and the
only order on the book is the one that was there. -/
theorem restEvent_refused :
    Reachable fullBook ∧ ∃ b', submit false fullBook ⟨2, 998, 5, true, .limit, 0⟩ =
        some ([.rest ⟨2, 998, 5, true⟩], b') ∧
      b'.liveOrders = [⟨1, 999, 10, true, 0⟩] ∧
      ¬ Truthful fullBook b' ⟨2, 998, 5, true, .limit, 0⟩ ⟨2, 998, 5, true⟩ := by
  have hlive : ∀ b', submit false fullBook ⟨2, 998, 5, true, .limit, 0⟩ =
      some ([.rest ⟨2, 998, 5, true⟩], b') → b'.liveOrders = [⟨1, 999, 10, true, 0⟩] := by
    intro b' hsub
    have heval : (submit false fullBook ⟨2, 998, 5, true, .limit, 0⟩).map
        (fun r => r.2.liveOrders) = some [⟨1, 999, 10, true, 0⟩] := by decide +kernel
    rw [hsub, Option.map_some] at heval
    exact Option.some.inj heval
  refine ⟨reachable_fullBook, _, rfl, hlive _ rfl, fun htrue => ?_⟩
  have hmem := htrue.1
  rw [hlive _ rfl] at hmem
  exact absurd hmem (by decide)

/-- A sell order fills the bid, and its remainder rests in the slot of the bid. -/
theorem restEvents_truthful_sold_out :
    ∃ events b', submit false fullBook ⟨2, 998, 15, false, .limit, 0⟩ = some (events, b') ∧
      ∀ e, .rest e ∈ events →
        Truthful fullBook b' ⟨2, 998, 15, false, .limit, 0⟩ e := by
  obtain ⟨events, b', hsub, hiff⟩ :=
    restEvents_truthful_iff reachable_fullBook false ⟨2, 998, 15, false, .limit, 0⟩
  have hlive : fullBook.liveOrders = [⟨1, 999, 10, true, 0⟩] := by decide +kernel
  have hreach : (fullBook.depth true).reach false ⟨2, 998, 15, false, .limit, 0⟩ ≠ [] := by
    decide +kernel
  refine ⟨events, b', hsub, hiff.mpr fun _ _ => ⟨Or.inl ?_, Or.inr hreach⟩⟩
  rintro ⟨r, hr, href⟩
  rw [hlive, List.mem_singleton] at hr
  rw [hr] at href
  exact absurd href (by decide)

end Liquibook
