import Liquibook.Engine.FillOrKill

/-!
# When a fill-or-kill order is killed

A fill-or-kill order is to be killed when the shares that cross fall short of its
quantity, and only then.  The dry run adds them up level by level in a 32-bit counter.
No level wraps by itself, but the sum over several levels may, and then the counter
falls back below the quantity and the order is killed although there is enough for it,
unless the levels behind bring the counter up to the quantity once more.

## Main definitions

* `upTo` — the shares that cross at a price or at a better one.
* `CountsEnough` — the sums up to the prices, modulo `2 ^ 32`, get to the quantity if
  all shares together do.
* `KilledIfShort` — the order is killed exactly when the shares fall short.

## Main results

* `Exact.covers_iff_upTo` — the dry run covers the quantity when a sum up to a price does.
* `fillOrKill_killedIfShort_iff` — **it is killed when it should be exactly when the
  counter gets to the quantity.**
* `fillOrKill_killed_by_wrap` — a book and an order that is killed with enough at rest.
-/

namespace Liquibook

open Lib OrderBook MatchingEngine

/-- Of the orders that cross, those at a price or at a better one. -/
def upTo (order : IncomingOrder) (p : Price4) (crossing : List Resting) : List Resting :=
  crossing.filter fun r => !better (!order.isBuy) p r.price

/-- Nothing is asked for, or more than there is, or at some price that crosses the
shares up to it, modulo `2 ^ 32`, are enough. -/
def CountsEnough (order : IncomingOrder) (crossing : List Resting) : Prop :=
  order.quantity = 0 ∨ sharesOf crossing < order.quantity.toNat ∨
    ∃ r ∈ crossing, order.quantity.toNat ≤ sharesOf (upTo order r.price crossing) % 2 ^ 32

/-- The order is killed exactly when the shares that cross fall short of its quantity. -/
def KilledIfShort (order : IncomingOrder) (crossing : List Resting) (events : List Event) : Prop :=
  killsOf events ≠ [] ↔ sharesOf crossing < order.quantity.toNat

/-! ### The sums up to a price -/

namespace Ledger

variable {l : Ledger} {preventSelfTrade : Bool} {order : IncomingOrder} {p : Price4}

/-- The levels up to one that crosses cross. -/
theorem crosses_of_levels {ps qs : List Price4}
    (hlevels : (l.depth !order.isBuy).levels = ps ++ p :: qs) (hc : crosses order p = true) :
    ∀ q ∈ ps ++ [p], crosses order q = true := by
  have hpw := pairwise_levels l !order.isBuy
  rw [hlevels, List.pairwise_append] at hpw
  intro q hq
  rcases List.mem_append.mp hq with hq | hq
  · exact crosses_of_better hc (hpw.2.2 q hq p List.mem_cons_self)
  · rw [List.mem_singleton.mp hq]
    exact hc

/-- What crosses up to a level is the queues of the levels up to it. -/
theorem WF.upTo_crossing (h : WF l) (hb : Bounded l) {ps qs : List Price4}
    (hlevels : (l.depth !order.isBuy).levels = ps ++ p :: qs) (hc : crosses order p = true) :
    upTo order p (l.crossing order) = (ps ++ [p]).flatMap fun q => l.queue q !order.isBuy := by
  have hpw := pairwise_levels l !order.isBuy
  rw [hlevels] at hpw
  have hfirst := (filter_split (ranking_better !order.isBuy) (fun _ => Iff.rfl) hpw).1
  have hcross : (ps ++ [p]).filter (crosses order) = ps ++ [p] :=
    List.filter_eq_self.mpr (crosses_of_levels hlevels hc)
  rw [upTo, crossing, priority, priorityOf, ← h.levels_eq hb, hlevels,
    filter_flatMap_queue l (crosses order),
    filter_flatMap_queue l (fun q => !better (!order.isBuy) p q), List.filter_comm, hfirst, hcross]

/-- **The dry run covers the quantity** exactly when the shares up to some price that
crosses do, modulo `2 ^ 32`. -/
theorem Exact.covers_iff_upTo (he : Exact l) (h : WF l) (hb : Bounded l)
    (hoff : StpOff preventSelfTrade order) (hq : order.quantity ≠ 0) :
    (l.depth !order.isBuy).Covers preventSelfTrade order ↔
      ∃ r ∈ l.crossing order, order.quantity.toNat ≤
        sharesOf (upTo order r.price (l.crossing order)) % 2 ^ 32 := by
  have helig : (fun p => (l.depth !order.isBuy).eligibleAt preventSelfTrade order p) =
      fun p => l.queue p !order.isBuy :=
    funext fun p => List.filter_eq_self.mpr fun r _ => hoff.eligibleFor r
  unfold Depth.Covers
  rw [helig, he.dryRoute_eq h hb]
  simp only [UInt32.le_iff_toNat_le, toNat_sum_shares]
  constructor
  · rintro ⟨ps, ⟨qs, hps⟩, hcr, hle⟩
    -- the counter starts at zero, so there is a last level
    rcases List.eq_nil_or_concat' ps with rfl | ⟨ps, p, rfl⟩
    · exact absurd hle (Nat.not_le.mpr (toNat_pos hq))
    · have hlevels : (l.depth !order.isBuy).levels = ps ++ p :: qs := by
        rw [← hps, List.append_assoc]
        rfl
      have hc := hcr p (List.mem_append_right _ List.mem_cons_self)
      have hp : p ∈ (l.depth !order.isBuy).levels :=
        hlevels ▸ List.mem_append_right _ List.mem_cons_self
      rw [mem_levels, h.total_ne_zero_iff hb] at hp
      obtain ⟨r, hr⟩ := List.exists_mem_of_ne_nil _ hp
      obtain ⟨hmem, rfl, hside⟩ := mem_queue.mp hr
      refine ⟨r, mem_crossing.mpr ⟨hmem, hside, hc⟩, ?_⟩
      rw [h.upTo_crossing hb hlevels hc]
      exact hle
  · rintro ⟨r, hr, hle⟩
    obtain ⟨hmem, hside, hc⟩ := mem_crossing.mp hr
    have hp : r.price ∈ (l.depth !order.isBuy).levels := by
      rw [mem_levels, h.total_ne_zero_iff hb, ← hside]
      exact List.ne_nil_of_mem (mem_queue_self hmem)
    obtain ⟨ps, qs, hlevels⟩ := List.append_of_mem hp
    rw [h.upTo_crossing hb hlevels hc] at hle
    exact ⟨ps ++ [r.price], ⟨qs, by rw [hlevels, List.append_assoc]; rfl⟩,
      crosses_of_levels hlevels hc, hle⟩

end Ledger

/-! ### The kill -/

variable {b : OrderBook} {l : Ledger} {preventSelfTrade : Bool} {order : IncomingOrder}

/-- Without self-trade prevention an order is killed exactly when the dry run does not
cover its quantity. -/
theorem killed_iff_not_covers (hoff : StpOff preventSelfTrade order) (htype : order.type = .fok)
    (hq : order.quantity ≠ 0) {fs : List (Resting × ℕ)}
    (hfs : fs = l.taking preventSelfTrade order) :
    killsOf ((fs.map (fillEvent order)).map .fill ++
        remainderEvents order (order.quantity.toNat - amount fs)) ≠ [] ↔
      ¬ (l.depth !order.isBuy).Covers preventSelfTrade order := by
  rw [killsOf_events, hfs]
  by_cases hc : (l.depth !order.isBuy).Covers preventSelfTrade order
  · -- matching reaches at least what the dry run counts, so all is filled
    have hall := Ledger.le_sharesOf_reach hoff hc
    rw [Ledger.taking_of_covers hc, amount_fills, Nat.min_eq_left hall, Nat.sub_self]
    exact ⟨fun e => absurd rfl e, fun e => absurd hc e⟩
  · rw [Ledger.taking_of_not_covers htype hc,
      remainderEvents_fok htype (show order.quantity.toNat - amount [] ≠ 0 from (toNat_pos hq).ne')]
    exact ⟨fun _ => hc, fun _ => List.cons_ne_nil _ _⟩

/-- **A fill-or-kill order is killed exactly when the shares that cross fall short of its
quantity, if and only if the counter gets to the quantity whenever they do not.** -/
theorem fillOrKill_killedIfShort_iff (hb : Reached (fun _ => True) LevelSumsBounded b)
    (hoff : StpOff preventSelfTrade order) (htype : order.type = .fok) :
    ∃ events b', submit preventSelfTrade b order = some (events, b') ∧
      (KilledIfShort order (b.crossing order) events ↔
        CountsEnough order (b.crossing order)) := by
  obtain ⟨l, h, hbound, hexact⟩ := hb.exact fun _ => id
  obtain ⟨b₁, b', hsub, -⟩ := h.submit_seen preventSelfTrade order rfl
  refine ⟨_, b', hsub, ?_⟩
  unfold KilledIfShort CountsEnough
  rw [h.crossing_eq]
  by_cases hq : order.quantity = 0
  · -- nothing is asked for, and nothing happens
    have hzero : order.quantity.toNat = 0 := by rw [hq]; rfl
    rw [killsOf_events, hzero, Nat.zero_sub]
    refine ⟨fun _ => Or.inl hq, fun _ => ⟨fun e => absurd rfl e, fun e => ?_⟩⟩
    exact absurd e (Nat.not_lt_zero _)
  have hcov := hexact.covers_iff_upTo h.wf hbound hoff hq
  have hreach : (l.depth !order.isBuy).Covers preventSelfTrade order →
      order.quantity.toNat ≤ sharesOf (l.crossing order) := fun hc =>
    hexact.reach_eq_crossing h.wf hbound hoff ▸ Ledger.le_sharesOf_reach hoff hc
  rw [killed_iff_not_covers hoff htype hq rfl, ← hcov]
  constructor
  · intro hiff
    by_cases hc : (l.depth !order.isBuy).Covers preventSelfTrade order
    · exact Or.inr (Or.inr hc)
    · exact Or.inr (Or.inl (hiff.mp hc))
  · rintro (hzero | hshort | hc)
    · exact absurd hzero hq
    · exact ⟨fun _ => hshort, fun _ hc => absurd hshort (Nat.not_lt.mpr (hreach hc))⟩
    · exact ⟨fun hno => absurd hc hno, fun hshort => absurd hshort (Nat.not_lt.mpr (hreach hc))⟩

/-- Asks of `2 ^ 32 - 2` shares at 1000 and of 2 shares at 1001. -/
def wrappingBook : OrderBook :=
  (OrderBook.new 1000 3 8).run [.add 1 1000 4294967294 false 0, .add 2 1001 2 false 0]

theorem reached_wrappingBook : Reached (fun _ => True) LevelSumsBounded wrappingBook := by
  have hone : LevelSumsBounded ((OrderBook.new 1000 3 8).run [.add 1 1000 4294967294 false 0]) :=
    levelSumsBounded_of_sharesOf (by decide +kernel)
  -- the two orders rest at different prices
  have htwo : LevelSumsBounded wrappingBook := by
    have hlive : wrappingBook.liveOrders =
        [⟨1, 1000, 4294967294, false, 0⟩, ⟨2, 1001, 2, false, 0⟩] := by decide +kernel
    intro p side
    rw [levelSum, hlive, List.filter_cons, List.filter_cons, List.filter_nil]
    split
    · next hfirst =>
      rw [if_neg fun hsecond => ?_]
      · exact (by decide : sharesOf [⟨1, 1000, 4294967294, false, 0⟩] < 2 ^ 32)
      · exact absurd ((of_decide_eq_true hfirst).1.trans (of_decide_eq_true hsecond).1.symm)
          (by decide)
    · split
      · exact (by decide : sharesOf [⟨2, 1001, 2, false, 0⟩] < 2 ^ 32)
      · exact (by decide : sharesOf [] < 2 ^ 32)
  exact .call (.book (.add 2 1001 2 false 0))
    (.call (.book (.add 1 1000 4294967294 false 0))
      (.new 1000 3 8 (levelSumsBounded_of_sharesOf (by decide +kernel))) trivial rfl hone)
    trivial rfl htwo

/-- **An order that is killed with enough at rest**: it buys `2 ^ 32 - 1` shares at up to
1001, where there are `2 ^ 32`.  The counter is one short of the quantity after the first
level, and zero after the second. -/
theorem fillOrKill_killed_by_wrap :
    Reached (fun _ => True) LevelSumsBounded wrappingBook ∧
      StpOff false ⟨3, 1001, 4294967295, true, .fok, 0⟩ ∧ ∃ events b',
        submit false wrappingBook ⟨3, 1001, 4294967295, true, .fok, 0⟩ = some (events, b') ∧
        killsOf events ≠ [] ∧
        4294967295 ≤ sharesOf (wrappingBook.crossing ⟨3, 1001, 4294967295, true, .fok, 0⟩) ∧
        ¬ KilledIfShort ⟨3, 1001, 4294967295, true, .fok, 0⟩
          (wrappingBook.crossing ⟨3, 1001, 4294967295, true, .fok, 0⟩) events := by
  have hevents : (submit false wrappingBook ⟨3, 1001, 4294967295, true, .fok, 0⟩).map Prod.fst =
      some [.kill ⟨3, 4294967295⟩] := by decide +kernel
  obtain ⟨⟨_, b'⟩, hsub, rfl⟩ := Option.map_eq_some_iff.mp hevents
  have hsum : sharesOf (wrappingBook.crossing ⟨3, 1001, 4294967295, true, .fok, 0⟩) =
      4294967296 := by decide +kernel
  refine ⟨reached_wrappingBook, Or.inl rfl, _, b', hsub, List.cons_ne_nil _ _, ?_, ?_⟩
  · rw [hsum]
    decide
  · intro hiff
    have hshort := hiff.mp (List.cons_ne_nil _ _)
    rw [hsum] at hshort
    exact absurd hshort (by decide)

/-- An order of one share less is filled: the first level has enough for it. -/
theorem fillOrKill_killedIfShort_first_level :
    ∃ events b', submit false wrappingBook ⟨3, 1001, 4294967294, true, .fok, 0⟩ =
        some (events, b') ∧ killsOf events = [] := by
  obtain ⟨events, b', hsub, hiff⟩ := @fillOrKill_killedIfShort_iff _ false
    ⟨3, 1001, 4294967294, true, .fok, 0⟩ reached_wrappingBook (Or.inl rfl) rfl
  have hsum : sharesOf (wrappingBook.crossing ⟨3, 1001, 4294967294, true, .fok, 0⟩) =
      4294967296 := by decide +kernel
  have hfirst : CountsEnough ⟨3, 1001, 4294967294, true, .fok, 0⟩
      (wrappingBook.crossing ⟨3, 1001, 4294967294, true, .fok, 0⟩) :=
    Or.inr (Or.inr ⟨⟨1, 1000, 4294967294, false, 0⟩, by decide +kernel, by decide +kernel⟩)
  refine ⟨events, b', hsub, not_not.mp fun hkill => ?_⟩
  have hshort := (hiff.mpr hfirst).mp hkill
  rw [hsum] at hshort
  exact absurd hshort (by decide)

end Liquibook
