import Liquibook.Engine.Matching

/-!
# The dry run

`available_liquidity` walks the levels of the opposite side without changing them.
It starts at the cached best price like matching does, but it goes on along
`next_level_after`, so it visits the levels that are strictly worse than the cached
price, and it passes levels at which orders are blocked.  It adds up the eligible
shares in a 32-bit counter and leaves as soon as the counter covers the quantity.

## Main definitions

* `Depth.dryRoute` — the prices in the order in which the dry run visits them.
* `Depth.dryRun` — what the dry run counts.
* `Depth.Covers` — some first levels that cross have eligible shares enough, as the
  counter adds them up.

## Main results

* `Refines.availableLiquidity` — **the dry run ends, and counts along its route.**
* `covers_iff` — the dry run covers the quantity exactly when some first levels do.
-/

namespace Liquibook

open Lib OrderBook MatchingEngine

namespace Depth

variable (preventSelfTrade : Bool) (order : IncomingOrder) (d : Depth)

/-- The prices in the order in which the dry run visits them. -/
def dryRoute : List Price4 :=
  match d.best with
  | none => []
  | some p => p :: d.levels.filter (better d.side p)

/-- The eligible orders at a price. -/
def eligibleAt (p : Price4) : List Resting :=
  (d.queue p).filter (eligibleFor preventSelfTrade order)

/-- What the dry run counts along a list of prices. -/
def dryRun : List Price4 → Shares → Shares
  | [], total => total
  | p :: ps, total =>
      if total < order.quantity then
        if crosses order p then
          dryRun ps (total + ((d.eligibleAt preventSelfTrade order p).map Resting.shares).sum)
        else total
      else total

/-- Some first levels of the dry run all cross, and the counter that adds up their
eligible shares modulo `2 ^ 32` covers the quantity. -/
def Covers : Prop :=
  ∃ ps, ps <+: d.dryRoute ∧ (∀ p ∈ ps, crosses order p = true) ∧
    order.quantity ≤
      ((ps.flatMap fun p => d.eligibleAt preventSelfTrade order p).map Resting.shares).sum

variable {preventSelfTrade order} {d}

/-- Along a list of prices the counter gets as far as the quantity exactly when it
does after some first prices. -/
theorem le_dryRun_iff : ∀ {ps : List Price4} {total : Shares},
    order.quantity ≤ d.dryRun preventSelfTrade order ps total ↔
      ∃ qs, qs <+: ps ∧ (∀ p ∈ qs, crosses order p = true) ∧
        order.quantity ≤ total +
          ((qs.flatMap fun p => d.eligibleAt preventSelfTrade order p).map Resting.shares).sum := by
  intro ps
  induction ps with
  | nil =>
    intro total
    constructor
    · intro h
      exact ⟨[], List.nil_prefix, by simp, by simpa [dryRun] using h⟩
    · rintro ⟨qs, hqs, -, h⟩
      rw [List.prefix_nil.mp hqs] at h
      simpa [dryRun] using h
  | cons p ps ih =>
    intro total
    by_cases ht : total < order.quantity
    · have hstop : ∀ qs : List Price4, qs <+: p :: ps → order.quantity ≤ total +
          ((qs.flatMap fun p => d.eligibleAt preventSelfTrade order p).map Resting.shares).sum →
          ∃ qs', qs = p :: qs' ∧ qs' <+: ps := by
        intro qs hqs hle
        cases qs with
        | nil =>
          have hle' : order.quantity ≤ total := by simpa using hle
          exact absurd ht (UInt32.not_lt.mpr hle')
        | cons q qs' =>
          obtain ⟨rfl, hqs'⟩ := List.cons_prefix_cons.mp hqs
          exact ⟨qs', rfl, hqs'⟩
      -- the dry run goes on behind a price that crosses, and ends at one that does not
      by_cases hc : crosses order p = true
      · rw [dryRun, if_pos ht, if_pos hc, ih]
        constructor
        · rintro ⟨qs, hqs, hcr, hle⟩
          refine ⟨p :: qs, List.cons_prefix_cons.mpr ⟨rfl, hqs⟩, ?_, ?_⟩
          · intro q hq
            rcases List.mem_cons.mp hq with rfl | hq
            · exact hc
            · exact hcr q hq
          · rw [List.flatMap_cons, List.map_append, List.sum_append, ← add_assoc]
            exact hle
        · rintro ⟨qs, hqs, hcr, hle⟩
          obtain ⟨qs', rfl, hqs'⟩ := hstop qs hqs hle
          refine ⟨qs', hqs', fun q hq => hcr q (List.mem_cons_of_mem _ hq), ?_⟩
          rw [List.flatMap_cons, List.map_append, List.sum_append, ← add_assoc] at hle
          exact hle
      · rw [dryRun, if_pos ht, if_neg hc]
        constructor
        · intro h
          exact absurd ht (UInt32.not_lt.mpr h)
        · rintro ⟨qs, hqs, hcr, hle⟩
          obtain ⟨qs', rfl, -⟩ := hstop qs hqs hle
          exact absurd (hcr p List.mem_cons_self) hc
    · rw [dryRun, if_neg ht]
      constructor
      · intro h
        exact ⟨[], List.nil_prefix, by simp, by simpa using h⟩
      · exact fun _ => UInt32.not_lt.mp ht

end Depth

namespace Ledger

/-- What the dry run counts. -/
def available (l : Ledger) (preventSelfTrade : Bool) (order : IncomingOrder) : Shares :=
  (l.depth !order.isBuy).dryRun preventSelfTrade order (l.depth !order.isBuy).dryRoute 0

theorem dryRoute_depth (l : Ledger) (side : Bool) : (l.depth side).dryRoute =
    match l.best side with
    | none => []
    | some p => p :: (l.depth side).levels.filter (better side p) := rfl

variable {l : Ledger} {preventSelfTrade : Bool} {order : IncomingOrder} {p : Price4} {side : Bool}

/-- **The dry run covers the quantity** exactly when some first levels do. -/
theorem covers_iff : order.quantity ≤ l.available preventSelfTrade order ↔
    (l.depth !order.isBuy).Covers preventSelfTrade order := by
  rw [available, Depth.le_dryRun_iff, Depth.Covers]
  simp only [zero_add]

/-- There are no more levels than prices. -/
theorem length_levels_le (l : Ledger) (side : Bool) : (l.depth side).levels.length ≤ 2 ^ 32 := by
  have hnd : ((l.depth side).levels.map UInt32.toNat).Nodup :=
    (nodup_levels l side).map fun p q h => UInt32.toNat_inj.mp h
  have hsub : (l.depth side).levels.map UInt32.toNat ⊆ List.range (2 ^ 32) := by
    intro n hn
    obtain ⟨p, -, rfl⟩ := List.mem_map.mp hn
    exact List.mem_range.mpr p.toNat_lt
  have := (hnd.subperm hsub).length_le
  rwa [List.length_map, List.length_range] at this

/-- Behind the first of the levels worse than a price are those worse than it. -/
theorem levels_filter_tail {q : Price4} {qs : List Price4}
    (h : (l.depth side).levels.filter (better side p) = q :: qs) :
    (l.depth side).levels.filter (better side q) = qs := by
  have hr := ranking_better side
  have hpw : ((l.depth side).levels.filter (better side p)).Pairwise
      fun a b => better side a b = true := (pairwise_levels l side).sublist List.filter_sublist
  have hq : q ∈ (l.depth side).levels.filter (better side p) := h ▸ List.mem_cons_self
  rw [h, List.pairwise_cons] at hpw
  refine eq_of_pairwise_better hr ((pairwise_levels l side).sublist List.filter_sublist) hpw.2
    fun x => ?_
  constructor
  · intro hx
    obtain ⟨hxl, hqx⟩ := List.mem_filter.mp hx
    have hpx : better side p x = true := hr.trans p q x (List.mem_filter.mp hq).2 hqx
    have hmem : x ∈ q :: qs := h ▸ List.mem_filter.mpr ⟨hxl, hpx⟩
    rcases List.mem_cons.mp hmem with rfl | hx
    · exact absurd hqx (hr.irrefl x)
    · exact hx
  · intro hx
    have hxl := (List.mem_filter.mp (h ▸ List.mem_cons_of_mem q hx)).1
    exact List.mem_filter.mpr ⟨hxl, hpw.1 x hx⟩

end Ledger

namespace OrderBook

variable {b : OrderBook} {l : Ledger} {preventSelfTrade : Bool} {order : IncomingOrder}
  {live free : List ℕ} {p : Price4} {side : Bool}

/-- `next_level_after` leads to the first of the levels worse than a price. -/
theorem Shape.nextLevelAfter_eq (h : Shape b live free) (p : Price4) (side : Bool) :
    b.nextLevelAfter p side =
      (((b.ledgerOf live).depth side).levels.filter (better side p)).head?.map b.ptrFor := by
  have hadm : (fun q => if side then decide (q < p) else decide (q > p)) = better side p := by
    funext q
    cases side <;> rfl
  -- `next_level_after` is the same scan, restricted to the worse prices
  have hscan : b.bestPriceWhere side (better side p) =
      (((b.ledgerOf live).depth side).levels.filter (better side p)).head? := by
    refine (h.queued.levels.isBest_bestPriceWhere side _).unique (ranking_better side) ?_
    refine (isBest_head? (ranking_better side)
      ((Ledger.pairwise_levels _ side).sublist List.filter_sublist)).congr fun q => ?_
    rw [List.mem_filter, Ledger.mem_levels, h.total_ledgerOf, and_comm]
  unfold nextLevelAfter
  rw [hadm, hscan]
  cases hq : (((b.ledgerOf live).depth side).levels.filter (better side p)).head? with
  | none => rfl
  | some q =>
    have hmem := (List.mem_filter.mp (List.mem_of_head? hq)).1
    have hqueue : (b.ledgerOf live).queue q side ≠ [] := fun e =>
      Ledger.mem_levels.mp hmem (Ledger.total_eq_zero_of_queue_eq_nil e)
    exact (h.hasLevel hqueue).levelForQuery

/-- The eligible shares of a level, counted from the total or along the queue. -/
theorem Shape.count_level (h : Shape b live free) (p : Price4) (total : Shares) :
    (if !preventSelfTrade || order.traderId == 0 then
      some (total + if order.isBuy then (b.level (some (b.ptrFor p))).totalAskShares
        else (b.level (some (b.ptrFor p))).totalBidShares)
    else sumEligible preventSelfTrade b order b.orderPool.capacity
      (oppositeQueue b order (b.ptrFor p)).head total) =
    some (total + ((((b.ledgerOf live).depth !order.isBuy).eligibleAt preventSelfTrade order p).map
      Resting.shares).sum) := by
  have hqueue : ((b.ledgerOf live).depth !order.isBuy).queue p =
      (live.filter (RestsAt b.orderPool p !order.isBuy)).map fun s => (b.orderPool.get s).resting :=
    Shape.queue_ledgerOf b live p _
  unfold Depth.eligibleAt
  rw [hqueue]
  by_cases hoff : (!preventSelfTrade || order.traderId == 0) = true
  · have hall : ∀ r, Depth.eligibleFor preventSelfTrade order r = true := by
      intro r
      rw [Depth.eligibleFor, eligible, if_pos hoff]
    have htotal : (if order.isBuy then (b.level (some (b.ptrFor p))).totalAskShares
        else (b.level (some (b.ptrFor p))).totalBidShares) = (b.levelAt p).total !order.isBuy := by
      cases order.isBuy <;> rfl
    rw [if_pos hoff, htotal, h.queued.total, List.filter_eq_self.mpr fun r _ => hall r,
      List.map_map]
    rfl
  · rw [if_neg hoff, oppositeQueue_eq, sumEligible_eq _ (h.walk_queue p _), List.filter_map,
      List.map_map]
    rfl

/-- The loop of the dry run, from a level on. -/
theorem Shape.availableLiquidityLoop (h : Shape b live free) : ∀ {fuel : ℕ} {p : Price4}
    {total : Shares}, b.HasLevel p →
    (((b.ledgerOf live).depth !order.isBuy).levels.filter (better (!order.isBuy) p)).length < fuel →
    MatchingEngine.availableLiquidityLoop preventSelfTrade b order fuel (some (b.ptrFor p)) total =
      some (((b.ledgerOf live).depth !order.isBuy).dryRun preventSelfTrade order
        (p :: ((b.ledgerOf live).depth !order.isBuy).levels.filter (better (!order.isBuy) p))
        total) := by
  intro fuel
  induction fuel with
  | zero => intro p total _ hf; omega
  | succ fuel ih =>
    intro p total hhas hf
    have hprice : (b.level (some (b.ptrFor p))).price = p := h.queued.levels.levelAt_price hhas
    rw [MatchingEngine.availableLiquidityLoop, Depth.dryRun]
    dsimp only
    rw [hprice]
    by_cases ht : total < order.quantity
    · rw [if_neg (not_not.mpr ht), if_pos ht]
      by_cases hc : crosses order p = true
      · rw [if_neg (by simp [hc]), if_pos hc, h.count_level, Option.bind_some, h.nextLevelAfter_eq]
        cases hl : ((b.ledgerOf live).depth !order.isBuy).levels.filter (better (!order.isBuy) p) with
        | nil =>
          rw [List.head?_nil, Option.map_none, Depth.dryRun]
          cases fuel <;> rfl
        | cons q qs =>
          have htail := Ledger.levels_filter_tail hl
          have hmem := (List.mem_filter.mp (hl ▸ List.mem_cons_self : q ∈ _)).1
          have hqueue : (b.ledgerOf live).queue q (!order.isBuy) ≠ [] := fun e =>
            Ledger.mem_levels.mp hmem (Ledger.total_eq_zero_of_queue_eq_nil e)
          rw [hl, List.length_cons] at hf
          rw [List.head?_cons, Option.map_some, ih (h.hasLevel hqueue) (by rw [htail]; omega), htail]
      · rw [if_pos (by simpa using hc), if_neg hc]
    · rw [if_pos ht, if_neg ht]

/-- **The dry run ends, and counts along its route.** -/
theorem Refines.availableLiquidity (h : Refines b l) (preventSelfTrade : Bool)
    (order : IncomingOrder) :
    MatchingEngine.availableLiquidity preventSelfTrade b order =
      some (l.available preventSelfTrade order) := by
  obtain ⟨live, free, hsh, rfl, hwf⟩ := h
  unfold MatchingEngine.availableLiquidity Ledger.available
  rw [bestOppositeLevel_eq]
  have hbest : (b.ledgerOf live).best (!order.isBuy) = b.best (!order.isBuy) := rfl
  rw [Ledger.dryRoute_depth, hbest]
  cases hb : b.best !order.isBuy with
  | none => rfl
  | some p =>
    have hhas := hsh.hasLevel (hwf.best_live _ p hb)
    have hlen := (List.length_filter_le (better (!order.isBuy) p) _).trans
      (Ledger.length_levels_le (b.ledgerOf live) !order.isBuy)
    rw [Option.bind_some, hhas.levelForQuery,
      hsh.availableLiquidityLoop hhas (Nat.lt_succ_of_le hlen)]

end OrderBook
end Liquibook
