import Liquibook.Book.View
import Liquibook.Engine.Reach
import Liquibook.Lib.Greedy

/-!
# Matching consumes the reach greedily

The loop of `execute_match` on a book that refines a ledger: it ends, its fills are
what a greedy consumption of the reach takes, in order and one fill for each order
touched, and the book it leaves is the book with these fills executed.  Every fill is
an `execute_order` that succeeds, although the engine does not look.

This holds in every state a book can be in, whether totals have wrapped or not, and
with self-trade prevention on or off.

## Main definitions

* `Ledger.fills`, `fillEvent` — what is taken from the reach, and its event.
* `Ledger.consume` — the ledger with fills executed.
* `Replays b events b'` — executing the fills one by one, successfully.

## Main results

* `Refines.selectResting` — the walk over the best level finds the next order.
* `Refines.executeMatch` — **matching consumes the reach greedily.**
-/

namespace Liquibook

open Lib OrderBook MatchingEngine

/-- The shares of an order, as a natural number. -/
def Resting.weight (r : Resting) : ℕ := r.shares.toNat

/-- The event of a fill: an order and what is taken from it. -/
def fillEvent (order : IncomingOrder) (f : Resting × ℕ) : FillEvent where
  aggressorRef := order.orderRef
  restingRef := f.1.orderRef
  price := f.1.price
  quantity := UInt32.ofNat f.2

namespace Ledger

/-- What an order of the given quantity takes from its reach. -/
def fills (l : Ledger) (preventSelfTrade : Bool) (order : IncomingOrder) (quantity : ℕ) :
    List (Resting × ℕ) :=
  greedy Resting.weight quantity (l.reach preventSelfTrade order)

/-- The ledger with fills executed. -/
def consume (l : Ledger) (fs : List (Resting × ℕ)) : Ledger :=
  fs.foldl (fun l f => (l.reduce f.1.orderRef (UInt32.ofNat f.2)).2) l

end Ledger

/-- Executing fills one by one leads from `b` to `b'`: every one of them is against a
live order at its price, for some of its shares, and `execute_order` succeeds. -/
inductive Replays : OrderBook → List FillEvent → OrderBook → Prop where
  | nil (b : OrderBook) : Replays b [] b
  | cons {b b' b'' : OrderBook} {e : FillEvent} {es : List FillEvent} (r : Resting)
      (hlive : r ∈ b.liveOrders) (href : r.orderRef = e.restingRef) (hprice : r.price = e.price)
      (hpos : 0 < e.quantity) (hle : e.quantity ≤ r.shares)
      (hexec : b.executeOrder e.restingRef e.quantity = (true, b')) (hrest : Replays b' es b'') :
      Replays b (e :: es) b''

/-! ### Arithmetic of share counts -/

theorem toNat_min (a b : Shares) : (min a b).toNat = min a.toNat b.toNat := by
  change (if a ≤ b then a else b).toNat = _
  simp only [UInt32.le_iff_toNat_le]
  split
  · next h => exact (Nat.min_eq_left h).symm
  · next h => exact (Nat.min_eq_right (by omega)).symm

theorem ofNat_min (a b : Shares) : UInt32.ofNat (min a.toNat b.toNat) = min a b := by
  rw [← toNat_min]
  exact UInt32.ofNat_toNat

theorem toNat_sub_min (a b : Shares) : (a - min a b).toNat = a.toNat - b.toNat := by
  have hle : min a b ≤ a := by
    rw [UInt32.le_iff_toNat_le, toNat_min]
    omega
  rw [UInt32.toNat_sub_of_le a _ hle, toNat_min]
  omega

theorem toNat_pos {a : Shares} (h : a ≠ 0) : 0 < a.toNat :=
  Nat.pos_of_ne_zero fun e => h (UInt32.toNat_inj.mp e)

/-! ### The walks over a queue -/

section Walk

variable {preventSelfTrade : Bool} {b : OrderBook} {order : IncomingOrder}

/-- The loop that looks for an eligible order is a search of the queue. -/
theorem firstEligible_eq : ∀ {fuel : ℕ} {start : Option ℕ} {xs : List ℕ},
    walk (fun s => (b.orderPool.get s).next) fuel start = some xs →
    firstEligible preventSelfTrade b order fuel start =
      some (xs.find? fun s => eligible preventSelfTrade order (b.orderPool.get s).traderId) := by
  intro fuel
  induction fuel with
  | zero =>
    intro start xs h
    cases start with
    | none => rw [walk_none, Option.some.injEq] at h; subst h; rfl
    | some s => cases h
  | succ fuel ih =>
    intro start xs h
    cases start with
    | none => rw [walk_none, Option.some.injEq] at h; subst h; rfl
    | some s =>
      rw [walk_succ_some, Option.map_eq_some_iff] at h
      obtain ⟨ys, hys, rfl⟩ := h
      rw [firstEligible, List.find?_cons]
      split
      · next he => rw [he]
      · next he =>
        rw [Bool.not_eq_true] at he
        rw [he]
        exact ih hys

/-- The loop that adds up the eligible shares adds up those of the queue. -/
theorem sumEligible_eq : ∀ {fuel : ℕ} {start : Option ℕ} {xs : List ℕ} (total : Shares),
    walk (fun s => (b.orderPool.get s).next) fuel start = some xs →
    sumEligible preventSelfTrade b order fuel start total =
      some (total + ((xs.filter fun s =>
        eligible preventSelfTrade order (b.orderPool.get s).traderId).map
          fun s => (b.orderPool.get s).shares).sum) := by
  intro fuel
  induction fuel with
  | zero =>
    intro start xs total h
    cases start with
    | none => rw [walk_none, Option.some.injEq] at h; subst h; simp [sumEligible]
    | some s => cases h
  | succ fuel ih =>
    intro start xs total h
    cases start with
    | none => rw [walk_none, Option.some.injEq] at h; subst h; simp [sumEligible]
    | some s =>
      rw [walk_succ_some, Option.map_eq_some_iff] at h
      obtain ⟨ys, hys, rfl⟩ := h
      rw [sumEligible, List.filter_cons, ih _ hys]
      split
      · rw [List.map_cons, List.sum_cons, add_assoc]
      · rfl

end Walk

namespace OrderBook

variable {b : OrderBook} {l : Ledger} {preventSelfTrade : Bool} {order : IncomingOrder}
  {live free : List ℕ}

/-! ### The best level -/

theorem bestOppositeLevel_eq (b : OrderBook) (order : IncomingOrder) :
    bestOppositeLevel b order = (b.best !order.isBuy).bind b.levelForQuery := by
  unfold bestOppositeLevel bestAskLevel bestBidLevel best bestBid bestAsk
  cases order.isBuy with
  | true => cases b.hasBestAsk <;> simp
  | false => cases b.hasBestBid <;> simp

theorem oppositeQueue_eq (b : OrderBook) (order : IncomingOrder) (ptr : LevelPtr) :
    oppositeQueue b order ptr = (b.level (some ptr)).queue !order.isBuy := by
  unfold oppositeQueue
  cases order.isBuy <;> rfl

/-- A price with an order has a level. -/
theorem Shape.hasLevel (h : Shape b live free) {p : Price4} {side : Bool}
    (hq : (b.ledgerOf live).queue p side ≠ []) : b.HasLevel p := by
  obtain ⟨r, hr⟩ := List.exists_mem_of_ne_nil _ hq
  rw [Shape.queue_ledgerOf] at hr
  obtain ⟨s, hs, -⟩ := List.mem_map.mp hr
  obtain ⟨hlive, hrest⟩ := List.mem_filter.mp hs
  rw [restsAt_iff] at hrest
  exact hrest.1 ▸ (h.queued.order_level s hlive).2

/-- The walk from the head of a queue. -/
theorem Shape.walk_queue (h : Shape b live free) (p : Price4) (side : Bool) :
    walk (fun s => (b.orderPool.get s).next) b.orderPool.capacity
      ((b.level (some (b.ptrFor p))).queue side).head =
        some (live.filter (RestsAt b.orderPool p side)) :=
  (h.queued.queue p side).nodes_eq ((List.length_filter_le _ _).trans h.length_le)

namespace Refines

/-- **The walk over the best level** ends, and finds the order the ledger selects. -/
theorem selectResting (h : Refines b l) (preventSelfTrade : Bool) (order : IncomingOrder) :
    ∃ o : Option ℕ, MatchingEngine.selectResting preventSelfTrade b order = some o ∧
      o.map (fun s => (b.orderPool.get s).resting) = l.select preventSelfTrade order := by
  obtain ⟨live, free, hsh, rfl, hwf⟩ := h
  unfold MatchingEngine.selectResting Ledger.select
  rw [bestOppositeLevel_eq]
  change ∃ o, _ ∧ _ = (b.best !order.isBuy).bind _
  cases hb : b.best !order.isBuy with
  | none => exact ⟨none, rfl, rfl⟩
  | some p =>
    -- the cached price has an order, so its level is there
    have hhas := hsh.hasLevel (hwf.best_live _ p hb)
    have hprice : (b.level (some (b.ptrFor p))).price = p := hsh.queued.levels.levelAt_price hhas
    rw [Option.bind_some, hhas.levelForQuery]
    dsimp only [Option.bind_some]
    rw [hprice]
    by_cases hc : crosses order p = true
    · rw [hc, if_neg (by simp), if_pos rfl, oppositeQueue_eq, firstEligible_eq (hsh.walk_queue p _)]
      refine ⟨_, rfl, ?_⟩
      rw [Shape.queue_ledgerOf, List.find?_map]
      rfl
    · rw [if_pos (by simpa using hc), if_neg hc]
      exact ⟨none, rfl, rfl⟩

/-- One fill: the order is live, the execution succeeds. -/
theorem executeOrder (h : Refines b l) {r : Resting} (hr : r ∈ l.orders) {n : Shares}
    (hn : n ≠ 0) (hle : n ≤ r.shares) :
    ∃ b', b.executeOrder r.orderRef n = (true, b') ∧ Refines b' (l.reduce r.orderRef n).2 ∧
      (l.reduce r.orderRef n).2 =
        if n = r.shares then l.remove r else l.setShares r.orderRef (r.shares - n) := by
  have hag := h.reduceShares r.orderRef n
  rw [h.wf.reduce_eq hr hn hle] at hag ⊢
  exact ⟨_, Prod.ext hag.result rfl, hag.refines, rfl⟩

/-- The size of a fill: something, and no more than the order has. -/
theorem fill_size {remaining : Shares} (hz : remaining ≠ 0) {r : Resting} (hpos : r.shares ≠ 0) :
    min remaining r.shares ≠ 0 ∧ min remaining r.shares ≤ r.shares := by
  have hqpos := toNat_pos hz
  have hrpos := toNat_pos hpos
  rw [ne_eq, ← UInt32.toNat_inj, UInt32.le_iff_toNat_le, toNat_min, UInt32.toNat_zero]
  omega

/-- The first fill, as the source reports it. -/
theorem fillEvent_min (order : IncomingOrder) (r : Resting) (remaining : Shares) :
    fillEvent order (r, min remaining.toNat r.weight) =
      { aggressorRef := order.orderRef, restingRef := r.orderRef, price := r.price,
        quantity := min remaining r.shares } := by
  unfold fillEvent Resting.weight
  rw [ofNat_min]

/-- **After the first fill**: the fills that follow are those of the rest of the reach. -/
theorem fills_after_first (h : Refines b l) {r : Resting} {rs : List Resting}
    (hreach : l.reach preventSelfTrade order = r :: rs) (remaining : Shares) {l₁ : Ledger}
    (hl₁ : l₁ = if min remaining r.shares = r.shares then l.remove r
      else l.setShares r.orderRef (r.shares - min remaining r.shares)) :
    l₁.fills preventSelfTrade order (remaining - min remaining r.shares).toNat =
        greedy Resting.weight (remaining.toNat - r.weight) rs ∧
      (remaining - min remaining r.shares).toNat - sharesOf (l₁.reach preventSelfTrade order) =
        remaining.toNat - sharesOf (r :: rs) := by
  unfold Ledger.fills
  rw [toNat_sub_min, sharesOf_cons, Resting.weight]
  by_cases hall : min remaining r.shares = r.shares
  · -- the order is used up, and the next one is the first of the reach
    rw [if_pos hall] at hl₁
    rw [hl₁, h.wf.reach_remove hreach]
    exact ⟨rfl, by omega⟩
  · -- the order has something left, so the incoming one has not
    have hlt : remaining.toNat ≤ r.shares.toNat := by
      rw [← UInt32.toNat_inj, toNat_min] at hall
      omega
    rw [Nat.sub_eq_zero_of_le hlt, greedy_zero, greedy_zero]
    exact ⟨rfl, by omega⟩

/-- **The matching loop** ends, and consumes the reach greedily. -/
theorem executeMatchLoop (preventSelfTrade : Bool) (order : IncomingOrder) :
    ∀ {fuel : ℕ} {b : OrderBook} {l : Ledger} {remaining : Shares},
    Refines b l → remaining.toNat < fuel →
    ∃ left b', MatchingEngine.executeMatchLoop preventSelfTrade order fuel b remaining =
        some (left, (l.fills preventSelfTrade order remaining.toNat).map (fillEvent order), b') ∧
      left.toNat = remaining.toNat - sharesOf (l.reach preventSelfTrade order) ∧
      Refines b' (l.consume (l.fills preventSelfTrade order remaining.toNat)) ∧
      Replays b ((l.fills preventSelfTrade order remaining.toNat).map (fillEvent order)) b' := by
  -- every iteration fills something, so the shares still wanted bound the iterations
  intro fuel
  induction fuel with
  | zero => intro b l remaining _ hf; omega
  | succ fuel ih =>
    intro b l remaining h hf
    rw [MatchingEngine.executeMatchLoop]
    by_cases hz : remaining = 0
    · have hfills : l.fills preventSelfTrade order remaining.toNat = [] := by
        rw [hz]
        exact greedy_zero _ _
      rw [if_pos hz, hfills]
      refine ⟨remaining, b, rfl, ?_, h, .nil b⟩
      rw [hz]
      exact (Nat.zero_sub _).symm
    rw [if_neg hz]
    obtain ⟨o, hsel, ho⟩ := h.selectResting preventSelfTrade order
    rw [hsel, Option.bind_some]
    rw [h.wf.select_eq_head?] at ho
    unfold Ledger.fills
    cases hreach : l.reach preventSelfTrade order with
    | nil =>
      rw [hreach, List.head?_nil, Option.map_eq_none_iff] at ho
      rw [ho]
      exact ⟨remaining, b, rfl, rfl, h, .nil b⟩
    | cons r rs =>
      rw [hreach, List.head?_cons, Option.map_eq_some_iff] at ho
      obtain ⟨s, rfl, hs⟩ := ho
      have hr : r ∈ l.orders := (Ledger.mem_reach (hreach ▸ List.mem_cons_self)).1
      have href : (b.orderPool.get s).orderRef = r.orderRef := by rw [← hs]; rfl
      have hprice : (b.orderPool.get s).price = r.price := by rw [← hs]; rfl
      have hshares : (b.orderPool.get s).shares = r.shares := by rw [← hs]; rfl
      obtain ⟨hn, hle⟩ := fill_size hz (h.wf.positive r hr)
      obtain ⟨b₁, hexec, href₁, hl₁⟩ := h.executeOrder hr hn hle
      have hrem := toNat_sub_min remaining r.shares
      have hrpos := toNat_pos (h.wf.positive r hr)
      have hzero := toNat_pos hz
      obtain ⟨left, b', hloop, hleft, href', hreplay⟩ :=
        @ih b₁ _ (remaining - min remaining r.shares) href₁ (by omega)
      obtain ⟨hrest, hamount⟩ := h.fills_after_first hreach remaining hl₁
      rw [hrest] at hloop href' hreplay
      rw [hamount] at hleft
      dsimp only
      rw [href, hprice, hshares, greedy_cons _ hzero.ne', List.map_cons, fillEvent_min, hexec]
      dsimp only
      rw [hloop]
      refine ⟨left, b', rfl, hleft, ?_, ?_⟩
      · rw [Ledger.consume, List.foldl_cons]
        dsimp only
        rw [Resting.weight, ofNat_min]
        exact href'
      · refine .cons r (h.mem_liveOrders.mpr hr) rfl rfl ?_ hle hexec hreplay
        rw [UInt32.lt_iff_toNat_lt]
        exact toNat_pos hn

/-- **Matching consumes the reach greedily.** -/
theorem executeMatch (h : Refines b l) (preventSelfTrade : Bool) (order : IncomingOrder) :
    ∃ filled b', MatchingEngine.executeMatch preventSelfTrade b order =
        some (filled,
          (l.fills preventSelfTrade order order.quantity.toNat).map (fillEvent order), b') ∧
      (order.quantity - filled).toNat =
        order.quantity.toNat - sharesOf (l.reach preventSelfTrade order) ∧
      Refines b' (l.consume (l.fills preventSelfTrade order order.quantity.toNat)) ∧
      Replays b ((l.fills preventSelfTrade order order.quantity.toNat).map (fillEvent order)) b' := by
  obtain ⟨left, b', hloop, hleft, href, hreplay⟩ :=
    executeMatchLoop preventSelfTrade order h (Nat.lt_succ_self order.quantity.toNat)
  refine ⟨order.quantity - left, b', ?_, ?_, href, hreplay⟩
  · rw [MatchingEngine.executeMatch, hloop]
    rfl
  · rw [sub_sub_cancel, hleft]

end Refines
end OrderBook
end Liquibook
