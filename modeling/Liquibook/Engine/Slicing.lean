import Liquibook.Engine.FillOrKill

/-!
# Slicing an order that does not rest

An order that is matched at once and discarded can be cut in two: submitting its parts
one after the other leaves the book that submitting it whole leaves, fills the same
shares of every resting order, and kills the same number of shares.  The cut may fall
inside a resting order, between two of them, or behind the last one that is reached.
This holds in every state a book can be in, whether totals have wrapped or not.

## Main definitions

* `IncomingOrder.slice` — part of an order, under a reference of its own.
* `killedShares` — the shares that events report as killed.

## Main results

* `WF.slice` — **taking `m` and then `n` from a ledger is taking `m + n`.**
* `submit_sliced` — **submitting the parts is submitting the whole.**
-/

namespace Liquibook

open Lib OrderBook MatchingEngine

/-- Part of an order, under a reference of its own. -/
def IncomingOrder.slice (order : IncomingOrder) (ref : OrderRef) (n : Shares) : IncomingOrder :=
  { order with orderRef := ref, quantity := n }

/-- The shares that events report as killed. -/
def killedShares (events : List Event) : ℕ :=
  ((killsOf events).map fun e => e.unfilledQuantity.toNat).sum

namespace Ledger

variable {l : Ledger} {preventSelfTrade : Bool} {order : IncomingOrder} {r : Resting}
  {rs : List Resting} {m n q : ℕ}

/-! ### One fill -/

/-- Part of the shares of an order, as a share count. -/
theorem ofNat_lt_weight (hlt : q < r.weight) :
    (UInt32.ofNat q).toNat = q ∧ UInt32.ofNat q ≤ r.shares := by
  have hn : (UInt32.ofNat q).toNat = q :=
    UInt32.toNat_ofNat_of_lt' (hlt.trans r.shares.toNat_lt)
  rw [UInt32.le_iff_toNat_le, hn]
  exact ⟨rfl, hlt.le⟩

/-- **The first order is used up**, and the fills go on behind it. -/
theorem WF.consume_whole (h : WF l) (hreach : l.reach preventSelfTrade order = r :: rs)
    (hq : r.weight ≤ q) :
    l.fills preventSelfTrade order q =
        (r, r.weight) :: (l.remove r).fills preventSelfTrade order (q - r.weight) ∧
      l.consume (l.fills preventSelfTrade order q) =
        (l.remove r).consume ((l.remove r).fills preventSelfTrade order (q - r.weight)) := by
  have hr : r ∈ l.orders := (mem_reach (hreach ▸ List.mem_cons_self : r ∈ l.reach _ _)).1
  have hpos : 0 < r.weight := toNat_pos (h.positive r hr)
  have hfills : l.fills preventSelfTrade order q =
      (r, r.weight) :: (l.remove r).fills preventSelfTrade order (q - r.weight) := by
    unfold fills
    rw [hreach, h.reach_remove hreach, greedy_cons _ (by omega), Nat.min_eq_right hq]
  have hred := h.reduce_eq hr (h.positive r hr) (UInt32.le_refl _)
  rw [if_pos rfl] at hred
  refine ⟨hfills, ?_⟩
  rw [hfills, consume, List.foldl_cons]
  dsimp only
  rw [Resting.weight, UInt32.ofNat_toNat, hred]
  rfl

/-- **Part of the first order is taken**, and nothing else. -/
theorem WF.consume_part (h : WF l) (hreach : l.reach preventSelfTrade order = r :: rs)
    (hq : q ≠ 0) (hlt : q < r.weight) :
    l.fills preventSelfTrade order q = [(r, q)] ∧
      l.consume (l.fills preventSelfTrade order q) =
        l.setShares r.orderRef (r.shares - UInt32.ofNat q) := by
  have hr : r ∈ l.orders := (mem_reach (hreach ▸ List.mem_cons_self : r ∈ l.reach _ _)).1
  have hfills : l.fills preventSelfTrade order q = [(r, q)] := by
    unfold fills
    rw [hreach, greedy_cons _ hq, Nat.min_eq_left hlt.le, Nat.sub_eq_zero_of_le hlt.le, greedy_zero]
  obtain ⟨hn, hle⟩ := ofNat_lt_weight hlt
  have hn0 : UInt32.ofNat q ≠ 0 := by
    rw [ne_eq, ← UInt32.toNat_inj, hn]
    exact hq
  have hne : UInt32.ofNat q ≠ r.shares := by
    rw [ne_eq, ← UInt32.toNat_inj, hn]
    exact hlt.ne
  have hred := h.reduce_eq hr hn0 hle
  rw [if_neg hne] at hred
  refine ⟨hfills, ?_⟩
  rw [hfills, consume, List.foldl_cons]
  dsimp only
  rw [hred]
  rfl

/-- What is left of an order has the shares that are not taken. -/
theorem weight_sub (hlt : q < r.weight) :
    ({ r with shares := r.shares - UInt32.ofNat q } : Resting).weight = r.weight - q := by
  obtain ⟨hn, hle⟩ := ofNat_lt_weight hlt
  unfold Resting.weight
  dsimp only
  rw [UInt32.toNat_sub_of_le _ _ hle, hn]

/-! ### Two slices -/

/-- Executing the fills `fs` and then `gs` does what executing `hs` does: the ledger left
is the same, and so is what is taken of every order and altogether. -/
structure SameOutcome (l : Ledger) (fs gs hs : List (Resting × ℕ)) : Prop where
  consume_eq : (l.consume fs).consume gs = l.consume hs
  taken_eq : ∀ ref, taken fs ref + taken gs ref = taken hs ref
  amount_eq : amount fs + amount gs = amount hs

theorem amount_nil : amount [] = 0 := rfl

theorem amount_cons (f : Resting × ℕ) (fs : List (Resting × ℕ)) :
    amount (f :: fs) = f.2 + amount fs := by
  rw [amount, List.map_cons, List.sum_cons]
  rfl

/-- One more fill before both. -/
theorem SameOutcome.cons {l' : Ledger} {f : Resting × ℕ} {fs gs hs : List (Resting × ℕ)}
    (h : SameOutcome l' fs gs hs) (hl : (l.reduce f.1.orderRef (UInt32.ofNat f.2)).2 = l') :
    SameOutcome l (f :: fs) gs (f :: hs) where
  consume_eq := by
    subst hl
    exact h.consume_eq
  taken_eq := by
    intro ref
    rw [taken_cons, taken_cons, Nat.add_assoc, h.taken_eq]
  amount_eq := by
    rw [amount_cons, amount_cons, Nat.add_assoc, h.amount_eq]

/-- The first slice ends inside an order. -/
theorem WF.slice_part (h : WF l) (hreach : l.reach preventSelfTrade order = r :: rs) (hm : m ≠ 0)
    (hlt : m < r.weight) (hn : n ≠ 0) :
    SameOutcome l (l.fills preventSelfTrade order m)
      ((l.consume (l.fills preventSelfTrade order m)).fills preventSelfTrade order n)
      (l.fills preventSelfTrade order (m + n)) := by
  obtain ⟨hfills, hconsume⟩ := h.consume_part hreach hm hlt
  set r' : Resting := { r with shares := r.shares - UInt32.ofNat m } with hr'
  have hweight : r'.weight = r.weight - m := weight_sub hlt
  have hpos : r.shares - UInt32.ofNat m ≠ 0 := by
    intro e
    have hzero : r'.weight = 0 := by
      rw [Resting.weight, hr', e]
      rfl
    omega
  -- the second slice begins with what is left of it
  have hreach' : (l.setShares r.orderRef (r.shares - UInt32.ofNat m)).reach preventSelfTrade order =
      r' :: rs := h.reach_setShares hreach _
  have h' := @WF.setShares l r.orderRef h _ hpos
  rw [hconsume]
  by_cases hcut : r'.weight ≤ n
  · -- the second slice goes on behind the order
    obtain ⟨hfills₂, hconsume₂⟩ := h'.consume_whole hreach' hcut
    obtain ⟨hfills₃, hconsume₃⟩ :=
      @WF.consume_whole l preventSelfTrade order r rs (m + n) h hreach (by omega)
    rw [l.remove_setShares r _ _] at hfills₂ hconsume₂
    have hrest : n - r'.weight = m + n - r.weight := by omega
    rw [hrest] at hfills₂ hconsume₂
    refine ⟨?_, fun ref => ?_, ?_⟩
    · rw [hconsume, hconsume₂, hconsume₃]
    · rw [hfills, hfills₂, hfills₃, taken_cons, taken_nil, taken_cons, taken_cons, hweight]
      dsimp only
      split <;> omega
    · rw [hfills, hfills₂, hfills₃, amount_cons, amount_nil, amount_cons, amount_cons, hweight]
      dsimp only
      omega
  · -- both slices end inside the order
    obtain ⟨hfills₂, hconsume₂⟩ := h'.consume_part hreach' hn (by omega)
    obtain ⟨hfills₃, hconsume₃⟩ :=
      @WF.consume_part l preventSelfTrade order r rs (m + n) h hreach (by omega) (by omega)
    refine ⟨?_, fun ref => ?_, ?_⟩
    · rw [hconsume, hconsume₂, hconsume₃, hr']
      dsimp only
      rw [setShares_setShares, UInt32.ofNat_add, sub_sub]
    · rw [hfills, hfills₂, hfills₃, taken_cons, taken_cons, taken_cons, taken_nil, hr']
      dsimp only
      split <;> omega
    · rw [hfills, hfills₂, hfills₃, amount_cons, amount_cons, amount_cons, amount_nil]
      dsimp only
      omega

/-- **Taking `m` and then `n` from a ledger is taking `m + n`.** -/
theorem WF.slice (preventSelfTrade : Bool) (order : IncomingOrder) (n : ℕ) :
    ∀ {rs : List Resting} {l : Ledger} {m : ℕ}, WF l → l.reach preventSelfTrade order = rs →
      SameOutcome l (l.fills preventSelfTrade order m)
        ((l.consume (l.fills preventSelfTrade order m)).fills preventSelfTrade order n)
        (l.fills preventSelfTrade order (m + n)) := by
  have hzero : ∀ l : Ledger, l.fills preventSelfTrade order 0 = [] := fun l => greedy_zero _ _
  have hsame : ∀ l : Ledger, l.consume [] = l := fun l => rfl
  -- along the reach: an order that the first slice uses up comes first in both
  intro rs
  induction rs with
  | nil =>
    intro l m h hreach
    have hnone : ∀ q, l.fills preventSelfTrade order q = [] := by
      intro q
      rw [fills, hreach, greedy_nil]
    rw [hnone, hsame, hnone, hnone]
    exact ⟨rfl, fun _ => rfl, rfl⟩
  | cons r rs ih =>
    intro l m h hreach
    by_cases hm : m = 0
    · rw [hm, hzero, hsame, Nat.zero_add]
      exact ⟨rfl, fun _ => Nat.zero_add _, Nat.zero_add _⟩
    by_cases hn : n = 0
    · rw [hn, hzero, Nat.add_zero]
      exact ⟨hsame _, fun _ => Nat.add_zero _, Nat.add_zero _⟩
    by_cases hlt : m < r.weight
    · exact h.slice_part hreach hm hlt hn
    · have hr : r ∈ l.orders := (mem_reach (hreach ▸ List.mem_cons_self : r ∈ l.reach _ _)).1
      obtain ⟨hfills, hconsume⟩ := h.consume_whole hreach (Nat.not_lt.mp hlt)
      obtain ⟨hfills₃, -⟩ :=
        @WF.consume_whole l preventSelfTrade order r rs (m + n) h hreach (by omega)
      have hrest : m + n - r.weight = m - r.weight + n := by omega
      rw [hrest] at hfills₃
      rw [hconsume, hfills, hfills₃]
      refine (ih (h.remove hr) (h.reach_remove hreach)).cons ?_
      have hred := h.reduce_eq hr (h.positive r hr) (UInt32.le_refl _)
      rw [if_pos rfl] at hred
      dsimp only
      rw [Resting.weight, UInt32.ofNat_toNat, hred]

end Ledger

/-! ### Submitting the slices -/

variable {b : OrderBook} {l : Ledger} {preventSelfTrade : Bool} {order : IncomingOrder}

/-- What matching reaches depends neither on the reference nor on the quantity. -/
theorem Ledger.reach_slice (l : Ledger) (preventSelfTrade : Bool) (order : IncomingOrder)
    (ref : OrderRef) (n : Shares) :
    l.reach preventSelfTrade (order.slice ref n) = l.reach preventSelfTrade order := by
  have halong : ∀ (d : Depth) (ps : List Price4),
      d.reachAlong preventSelfTrade (order.slice ref n) ps =
        d.reachAlong preventSelfTrade order ps := by
    intro d ps
    induction ps with
    | nil => rfl
    | cons p ps ih =>
      rw [Depth.reachAlong, Depth.reachAlong, ih]
      rfl
  exact halong _ _

theorem Ledger.fills_slice (l : Ledger) (preventSelfTrade : Bool) (order : IncomingOrder)
    (ref : OrderRef) (n : Shares) (q : ℕ) :
    l.fills preventSelfTrade (order.slice ref n) q = l.fills preventSelfTrade order q := by
  rw [Ledger.fills, reach_slice]
  rfl

/-- The shares killed of an order that does not rest are those not filled. -/
theorem killedShares_events (hlimit : order.type ≠ .limit) (fs : List (Resting × ℕ)) {n : ℕ}
    (hn : n < 2 ^ 32) :
    killedShares ((fs.map (fillEvent order)).map .fill ++ remainderEvents order n) = n := by
  rw [killedShares, killsOf_events, remainderEvents, if_neg hlimit]
  by_cases hz : n = 0
  · rw [if_pos hz, hz]
    rfl
  · rw [if_neg hz]
    exact UInt32.toNat_ofNat_of_lt' hn

/-- **An order that does not rest** takes what it can of its reach, and the rest is
killed. -/
theorem OrderBook.Refines.submit_immediate (h : Refines b l) (preventSelfTrade : Bool)
    (hfok : order.type ≠ .fok) (hlimit : order.type ≠ .limit) {fs : List (Resting × ℕ)}
    (hfs : fs = l.fills preventSelfTrade order order.quantity.toNat) :
    ∃ events b', MatchingEngine.submit preventSelfTrade b order = some (events, b') ∧
      Refines b' (l.consume fs) ∧ (∀ ref, Event.filled events ref = taken fs ref) ∧
      killedShares events = order.quantity.toNat - amount fs := by
  have htaking : fs = l.taking preventSelfTrade order :=
    hfs.trans (l.taking_of_ne_fok preventSelfTrade hfok).symm
  have ht := h.wf.takes_taking preventSelfTrade order
  rw [← htaking] at ht
  obtain ⟨b₁, b', hsub, -, -, href, -⟩ := h.submit_seen preventSelfTrade order htaking
  refine ⟨_, b', hsub, ?_, ht.filled_events order _, ?_⟩
  · have hrested : l.rested preventSelfTrade order = [] := if_neg fun e => hlimit e.1
    rw [h.wf.submit_snd, hrested, ← htaking] at href
    exact href
  · have hlt := order.quantity.toNat_lt
    exact killedShares_events hlimit fs (by omega)

/-- **Submitting the parts of an order is submitting the whole**, for an order that does
not rest. -/
theorem submit_sliced (hb : Reachable b) (preventSelfTrade : Bool)
    (htype : order.type = .market ∨ order.type = .ioc) (ref₁ ref₂ : OrderRef) {m n : Shares}
    (hsum : m.toNat + n.toNat = order.quantity.toNat) :
    ∃ events b' events₁ b₁ events₂ b₂,
      submit preventSelfTrade b order = some (events, b') ∧
      submit preventSelfTrade b (order.slice ref₁ m) = some (events₁, b₁) ∧
      submit preventSelfTrade b₁ (order.slice ref₂ n) = some (events₂, b₂) ∧
      b₂.liveOrders.Perm b'.liveOrders ∧ (∀ p side, b₂.queueAt p side = b'.queueAt p side) ∧
      b₂.bestBid = b'.bestBid ∧ b₂.bestAsk = b'.bestAsk ∧ b₂.orderCount = b'.orderCount ∧
      (∀ ref, Event.filled events₁ ref + Event.filled events₂ ref = Event.filled events ref) ∧
      killedShares events₁ + killedShares events₂ = killedShares events := by
  obtain ⟨l, h⟩ := hb.refines
  have hfok : order.type ≠ .fok := by
    rcases htype with e | e <;> rw [e] <;> simp
  have hlimit : order.type ≠ .limit := by
    rcases htype with e | e <;> rw [e] <;> simp
  have hslice := @Ledger.WF.slice preventSelfTrade order n.toNat _ l m.toNat h.wf rfl
  rw [hsum] at hslice
  obtain ⟨events, b', hsub, href, hfilled, hkilled⟩ :=
    h.submit_immediate preventSelfTrade hfok hlimit rfl
  obtain ⟨events₁, b₁, hsub₁, href₁, hfilled₁, hkilled₁⟩ :=
    @OrderBook.Refines.submit_immediate b l (order.slice ref₁ m) h preventSelfTrade hfok hlimit _
      (l.fills_slice preventSelfTrade order ref₁ m _).symm
  obtain ⟨events₂, b₂, hsub₂, href₂, hfilled₂, hkilled₂⟩ :=
    @OrderBook.Refines.submit_immediate b₁ _ (order.slice ref₂ n) href₁ preventSelfTrade hfok hlimit
      _ (Ledger.fills_slice _ preventSelfTrade order ref₂ n _).symm
  -- both ways the book left is a book of the same ledger
  replace href₂ : Refines b₂ (l.consume (l.fills preventSelfTrade order order.quantity.toNat)) := by
    rw [← hslice.consume_eq]
    exact href₂
  refine ⟨events, b', events₁, b₁, events₂, b₂, hsub, hsub₁, hsub₂,
    href₂.liveOrders_perm.trans href.liveOrders_perm.symm, fun p side => ?_, ?_, ?_, ?_,
    fun ref => ?_, ?_⟩
  · rw [href₂.queueAt_eq, href.queueAt_eq]
  · rw [href₂.bestBid_eq, href.bestBid_eq]
  · rw [href₂.bestAsk_eq, href.bestAsk_eq]
  · rw [href₂.orderCount_eq, href.orderCount_eq]
  · rw [hfilled, hfilled₁, hfilled₂]
    exact hslice.taken_eq ref
  · -- what is not filled of the two parts is what is not filled of the whole
    have hle : ∀ (l' : Ledger) (q : ℕ), amount (l'.fills preventSelfTrade order q) ≤ q := by
      intro l' q
      rw [amount_fills]
      exact Nat.min_le_left _ _
    have hle₁ := hle l m.toNat
    have hle₂ := hle (l.consume (l.fills preventSelfTrade order m.toNat)) n.toNat
    have hamount := hslice.amount_eq
    rw [hkilled, hkilled₁, hkilled₂]
    dsimp only [IncomingOrder.slice]
    omega

/-- A sell order of 60 shares, cut inside the first of two bids of 50. -/
theorem submit_sliced_inside :
    ∃ b' b₁ b₂ events events₁ events₂,
      submit false ((OrderBook.new 1000 3 8).run [.add 1 1001 50 true 0, .add 2 1000 50 true 0])
        ⟨3, 0, 60, false, .market, 0⟩ = some (events, b') ∧
      submit false ((OrderBook.new 1000 3 8).run [.add 1 1001 50 true 0, .add 2 1000 50 true 0])
        ⟨4, 0, 20, false, .market, 0⟩ = some (events₁, b₁) ∧
      submit false b₁ ⟨5, 0, 40, false, .market, 0⟩ = some (events₂, b₂) ∧
      b₂.bestBid = b'.bestBid ∧ b₂.orderCount = b'.orderCount := by
  obtain ⟨events, b', events₁, b₁, events₂, b₂, hsub, hsub₁, hsub₂, -, -, hbid, -, hcount, -⟩ :=
    @submit_sliced _ ⟨3, 0, 60, false, .market, 0⟩ (reachable_run 1000 3 8 _) false (Or.inl rfl)
      4 5 20 40 (by decide)
  exact ⟨b', b₁, b₂, events, events₁, events₂, hsub, hsub₁, hsub₂, hbid, hcount⟩

end Liquibook
