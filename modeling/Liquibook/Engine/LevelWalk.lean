import Liquibook.Engine.Priority

/-!
# The walk over the levels

A reader that only looks starts at `best_bid_level()` or `best_ask_level()` and goes on
with `next_level_after(level->price, side)` until it gets a null pointer.  As long as no
total wraps this visits the prices at which the side has an order, from best to worst
and each once, although it starts from the cached price and every further step is a
scan of the flat array and of the map, which both keep the levels that have emptied.

## Main definitions

* `OrderBook.bestLevel`, `OrderBook.levelBehind` — where the walk starts and how it goes on.
* `OrderBook.LiveAt` — a side has an order at a price.

## Main results

* `Shape.walk_levels` — from the first level the walk visits all that have a total.
* `level_walk_complete` — **the walk visits the prices with an order**, and a step from any
  price leads to the next one.
-/

namespace Liquibook

open Lib OrderBook

namespace OrderBook

/-- The level a walk starts at: `best_bid_level()` or `best_ask_level()`. -/
def bestLevel (b : OrderBook) (side : Bool) : Option LevelPtr :=
  if side then b.bestBidLevel else b.bestAskLevel

/-- The price of a level, `level->price`. -/
def priceOf (b : OrderBook) (ptr : LevelPtr) : Price4 := (b.level (some ptr)).price

/-- One step of the walk: `next_level_after(level->price, side)`. -/
def levelBehind (b : OrderBook) (side : Bool) (ptr : LevelPtr) : Option LevelPtr :=
  b.nextLevelAfter (b.priceOf ptr) side

/-- The side has a live order at the price. -/
def LiveAt (b : OrderBook) (p : Price4) (side : Bool) : Prop :=
  ∃ r ∈ b.liveOrders, r.price = p ∧ r.isBuy = side

variable {b : OrderBook} {l : Ledger} {live free : List ℕ} {p : Price4} {side : Bool}

theorem bestLevel_eq (b : OrderBook) (side : Bool) :
    b.bestLevel side = (b.best side).bind b.levelForQuery := by
  unfold bestLevel bestAskLevel bestBidLevel best bestBid bestAsk
  cases side with
  | true => cases b.hasBestBid <;> simp
  | false => cases b.hasBestAsk <;> simp

theorem Refines.liveAt_iff (h : Refines b l) : b.LiveAt p side ↔ l.queue p side ≠ [] := by
  constructor
  · rintro ⟨r, hr, hat⟩
    exact List.ne_nil_of_mem (Ledger.mem_queue.mpr ⟨h.mem_liveOrders.mp hr, hat⟩)
  · intro hne
    obtain ⟨r, hr⟩ := List.exists_mem_of_ne_nil _ hne
    obtain ⟨hmem, hat⟩ := Ledger.mem_queue.mp hr
    exact ⟨r, h.mem_liveOrders.mpr hmem, hat⟩

/-! ### Levels with a total -/

/-- A price with a total has a level, and the level has the price. -/
theorem Shape.level_of_mem (h : Shape b live free)
    (hp : p ∈ ((b.ledgerOf live).depth side).levels) :
    b.levelForQuery p = some (b.ptrFor p) ∧ b.priceOf (b.ptrFor p) = p := by
  have hqueue : (b.ledgerOf live).queue p side ≠ [] := fun e =>
    Ledger.mem_levels.mp hp (Ledger.total_eq_zero_of_queue_eq_nil e)
  have hhas := h.hasLevel hqueue
  exact ⟨hhas.levelForQuery, h.queued.levels.levelAt_price hhas⟩

/-- The levels of some prices with a total have these prices. -/
theorem Shape.map_priceOf (h : Shape b live free) {ps : List Price4}
    (hps : ps ⊆ ((b.ledgerOf live).depth side).levels) : (ps.map b.ptrFor).map b.priceOf = ps := by
  rw [List.map_map]
  refine (List.map_congr_left fun p hp => ?_).trans (List.map_id ps)
  exact (h.level_of_mem (hps hp)).2

/-- **From the first level the walk visits all that have a total.** -/
theorem Shape.walk_levels (h : Shape b live free) (side : Bool) {n : ℕ}
    (hn : ((b.ledgerOf live).depth side).levels.length ≤ n) :
    walk (b.levelBehind side) n (((b.ledgerOf live).depth side).levels.head?.map b.ptrFor) =
      some (((b.ledgerOf live).depth side).levels.map b.ptrFor) := by
  rw [← List.head?_map]
  refine walk_of_next (fun as x bs hsplit => ?_) (by rwa [List.length_map])
  obtain ⟨ps, qs, hlevels, -, hqs⟩ := List.map_eq_append_iff.mp hsplit
  obtain ⟨p, qs, rfl, rfl, rfl⟩ := List.map_eq_cons_iff.mp hqs
  -- the levels behind `p` are the worse ones
  have hpw := Ledger.pairwise_levels (b.ledgerOf live) side
  rw [hlevels] at hpw
  have hworse := (filter_split (ranking_better side) (fun _ => Iff.rfl) hpw).2
  have hp : p ∈ ((b.ledgerOf live).depth side).levels :=
    hlevels ▸ List.mem_append_right _ List.mem_cons_self
  rw [levelBehind, (h.level_of_mem hp).2, h.nextLevelAfter_eq, hlevels, hworse, List.head?_map]

/-- **A step from any price** leads to the best level behind it. -/
theorem Shape.isBest_nextLevelAfter (h : Shape b live free) (p : Price4) (side : Bool) :
    IsBest (fun q q' => better side q q' = true)
        (fun q => (b.ledgerOf live).total q side ≠ 0 ∧ better side p q = true)
        ((b.nextLevelAfter p side).map b.priceOf) ∧
      ∀ ptr, b.nextLevelAfter p side = some ptr → b.levelForQuery (b.priceOf ptr) = some ptr := by
  have hsub : ((b.ledgerOf live).depth side).levels.filter (better side p) ⊆
      ((b.ledgerOf live).depth side).levels := List.filter_sublist.subset
  rw [h.nextLevelAfter_eq]
  constructor
  · rw [← List.head?_map, ← List.head?_map, h.map_priceOf hsub]
    refine (isBest_head? (ranking_better side)
      ((Ledger.pairwise_levels _ side).sublist List.filter_sublist)).congr fun q => ?_
    rw [List.mem_filter, Ledger.mem_levels]
  · intro ptr hptr
    obtain ⟨q, hq, rfl⟩ := Option.map_eq_some_iff.mp hptr
    obtain ⟨hlevel, hprice⟩ := h.level_of_mem (hsub (List.mem_of_head? hq))
    rw [hprice]
    exact hlevel

end OrderBook

variable {b : OrderBook}

/-- **The walk over the levels is complete.**  It ends, the prices of the levels it visits
worsen strictly and are those at which the side has an order, and every level it visits
is the one of its price.  A step from any price leads to the level of the best price with
an order that is strictly worse, or to none if there is no such price. -/
theorem level_walk_complete (hb : Reached (fun _ => True) LevelSumsBounded b) (side : Bool) :
    (∃ ptrs : List LevelPtr,
      (∀ n, ptrs.length ≤ n → walk (b.levelBehind side) n (b.bestLevel side) = some ptrs) ∧
      (ptrs.map b.priceOf).Pairwise (fun p q => better side p q = true) ∧
      (∀ p, p ∈ ptrs.map b.priceOf ↔ b.LiveAt p side) ∧
      ∀ ptr ∈ ptrs, b.levelForQuery (b.priceOf ptr) = some ptr) ∧
    ∀ p, IsBest (fun q q' => better side q q' = true)
        (fun q => b.LiveAt q side ∧ better side p q = true)
        ((b.nextLevelAfter p side).map b.priceOf) ∧
      ∀ ptr, b.nextLevelAfter p side = some ptr → b.levelForQuery (b.priceOf ptr) = some ptr := by
  obtain ⟨l, h, hbound, hexact⟩ := hb.exact fun _ => id
  have hlive : ∀ p, l.total p side ≠ 0 ↔ b.LiveAt p side := fun p =>
    (h.wf.total_ne_zero_iff hbound).trans h.liveAt_iff.symm
  have hbest := hexact.best_eq h.wf hbound side
  rw [← h.best_eq] at hbest
  obtain ⟨live, free, hsh, rfl, hwf⟩ := h
  refine ⟨⟨((b.ledgerOf live).depth side).levels.map b.ptrFor, fun n hn => ?_, ?_, fun p => ?_,
    fun ptr hptr => ?_⟩, fun p => ?_⟩
  · -- the cached price is the first of the levels
    have hstart : b.bestLevel side =
        ((b.ledgerOf live).depth side).levels.head?.map b.ptrFor := by
      rw [bestLevel_eq, hbest]
      cases hl : ((b.ledgerOf live).depth side).levels.head? with
      | none => rfl
      | some p => exact (hsh.level_of_mem (List.mem_of_head? hl)).1
    rw [hstart]
    exact hsh.walk_levels side (by rwa [List.length_map] at hn)
  · rw [hsh.map_priceOf (List.Subset.refl _)]
    exact Ledger.pairwise_levels _ side
  · rw [hsh.map_priceOf (List.Subset.refl _), Ledger.mem_levels, hlive]
  · obtain ⟨p, hp, rfl⟩ := List.mem_map.mp hptr
    obtain ⟨hlevel, hprice⟩ := hsh.level_of_mem hp
    rw [hprice]
    exact hlevel
  · obtain ⟨hnext, hlevel⟩ := hsh.isBest_nextLevelAfter p side
    exact ⟨hnext.congr fun q => by rw [hlive], hlevel⟩

/-- Bids at both sides of a narrow window and in it, one of them gone again. -/
def walkedBook : OrderBook :=
  (OrderBook.new 1000 3 8).run [.add 1 1001 30 true 0, .add 2 900 40 true 0, .add 3 2000 50 true 0,
    .add 4 999 10 true 0, .delete 4]

theorem reached_walkedBook : Reached (fun _ => True) LevelSumsBounded walkedBook :=
  reached_run_bounded (by decide +kernel)

/-- A walk over the bids gets to the level at 900, and nothing lies behind it. -/
theorem level_walk_complete_bids :
    (∃ ptrs n, walk (walkedBook.levelBehind true) n (walkedBook.bestLevel true) = some ptrs ∧
      900 ∈ ptrs.map walkedBook.priceOf) ∧ walkedBook.nextLevelAfter 900 true = none := by
  obtain ⟨⟨ptrs, hwalk, -, hmem, -⟩, hnext⟩ := level_walk_complete reached_walkedBook true
  have hlive : walkedBook.LiveAt 900 true := ⟨⟨2, 900, 40, true, 0⟩, by decide +kernel, rfl, rfl⟩
  refine ⟨⟨ptrs, ptrs.length, hwalk _ le_rfl, (hmem 900).mpr hlive⟩, ?_⟩
  have hbest := (hnext 900).1
  cases hn : walkedBook.nextLevelAfter 900 true with
  | none => rfl
  | some ptr =>
    rw [hn] at hbest
    obtain ⟨⟨r, hr, hprice, -⟩, hworse⟩ := hbest.1
    have hall : ∀ r ∈ walkedBook.liveOrders, better true 900 r.price = false := by decide +kernel
    rw [← hprice, hall r hr] at hworse
    cases hworse

end Liquibook
