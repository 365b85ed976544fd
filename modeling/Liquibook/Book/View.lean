import Liquibook.Book.Refinement
import Liquibook.Spec.Exact

/-!
# What can be seen of a book

The statements about the book speak of what a caller with full sight of its memory
can read: the orders in the acquired slots of the pool, and the queue of a price and
side, read by following the links from the head of the list.  In a book that refines
a ledger, they are the orders and the queues of the ledger.

## Main definitions

* `OrderBook.orderIn`, `OrderBook.liveOrders` — the orders in the pool.
* `OrderBook.queueAt` — a queue, read along its links.
* `OrderBook.depth` — one side of the book, as the matching engine meets it.
* `LevelSumsBounded` — no total wraps.

## Main results

* `Refines.liveOrders_perm`, `Refines.queueAt_eq`, `Refines.depth_eq` — **what is seen
  of the book is the ledger.**
-/

namespace Liquibook

namespace ObjectPool

/-- The slots of the free list are free. -/
theorem FreeChain.isFree {T : Type} {slots : ℕ → PoolSlot T} :
    ∀ {head : Option ℕ} {free : List ℕ}, FreeChain slots head free →
      ∀ i ∈ free, ∃ n, slots i = .nextFree n := by
  intro head free
  induction free generalizing head with
  | nil => intro _ i hi; cases hi
  | cons j js ih =>
    rintro ⟨-, n, hslot, hrest⟩ i hi
    rcases List.mem_cons.mp hi with rfl | hi
    · exact ⟨n, hslot⟩
    · exact ih hrest i hi

end ObjectPool

namespace OrderBook

/-- The order in a slot, if the slot is acquired. -/
def orderIn (b : OrderBook) (s : ℕ) : Option Order :=
  match b.orderPool.slots s with
  | .value o => some o
  | .nextFree _ => none

/-- The live orders: those in the acquired slots of the pool. -/
def liveOrders (b : OrderBook) : List Resting :=
  (List.range b.orderPool.capacity).filterMap fun s => (b.orderIn s).map Order.resting

/-- The slots queued at a level on one side, from the head along the links. -/
def slotsAt (b : OrderBook) (ptr : LevelPtr) (side : Bool) : List ℕ :=
  (((b.level (some ptr)).queue side).nodes b.orderPool b.orderPool.capacity).getD []

/-- The queue of a price and side. -/
def queueAt (b : OrderBook) (p : Price4) (side : Bool) : List Resting :=
  match b.levelForQuery p with
  | none => []
  | some ptr => (b.slotsAt ptr side).map fun s => (b.orderPool.get s).resting

/-- One side of the book. -/
def depth (b : OrderBook) (side : Bool) : Depth :=
  Depth.of side (b.best side) ((b.liveOrders.filter fun r => r.isBuy == side).map Resting.price)
    fun p => b.queueAt p side

/-- The shares that rest at a price and side, as natural numbers. -/
def levelSum (b : OrderBook) (p : Price4) (side : Bool) : ℕ :=
  sharesOf (b.liveOrders.filter fun r => decide (r.price = p ∧ r.isBuy = side))

/-- At every price and side the shares fit in a share count. -/
def LevelSumsBounded (b : OrderBook) : Prop := ∀ p side, b.levelSum p side < 2 ^ 32

/-! ### The orders -/

variable {b : OrderBook} {l : Ledger} {live free : List ℕ}

theorem Shape.orderIn_of_mem (h : Shape b live free) {s : ℕ} (hs : s ∈ live) :
    b.orderIn s = some (b.orderPool.get s) := by
  obtain ⟨o, ho⟩ := h.pool.values s hs
  rw [orderIn, ObjectPool.get, ho]

theorem Shape.orderIn_iff (h : Shape b live free) {s : ℕ} :
    s < b.orderPool.capacity ∧ (b.orderIn s).isSome ↔ s ∈ live := by
  constructor
  · rintro ⟨hlt, hsome⟩
    rcases List.mem_append.mp (h.pool.perm.mem_iff.mpr (List.mem_range.mpr hlt)) with hs | hs
    · exact hs
    · obtain ⟨n, hn⟩ := h.pool.chain.isFree s hs
      rw [orderIn, hn] at hsome
      cases hsome
  · intro hs
    exact ⟨h.pool.lt_capacity hs, by rw [h.orderIn_of_mem hs]; rfl⟩

theorem Shape.liveOrders_perm (h : Shape b live free) :
    b.liveOrders.Perm (b.ledgerOf live).orders := by
  have hperm := (h.pool.perm.filterMap fun s => (b.orderIn s).map Order.resting).symm
  refine hperm.trans (List.Perm.of_eq ?_)
  have hlive : live.filterMap (fun s => (b.orderIn s).map Order.resting) =
      live.map fun s => (b.orderPool.get s).resting := by
    rw [← List.filterMap_eq_map]
    refine List.filterMap_congr fun s hs => ?_
    rw [h.orderIn_of_mem hs]
    rfl
  have hfree : free.filterMap (fun s => (b.orderIn s).map Order.resting) = [] := by
    refine List.filterMap_eq_nil_iff.mpr fun s hs => ?_
    obtain ⟨n, hn⟩ := h.pool.chain.isFree s hs
    rw [orderIn, hn]
    rfl
  rw [List.filterMap_append, hlive, hfree, List.append_nil]
  rfl

theorem Shape.length_le (h : Shape b live free) : live.length ≤ b.orderPool.capacity := by
  have := h.pool.length_add
  omega

/-! ### The queues -/

/-- The walk over a queue visits the live orders that rest there, in order of
arrival. -/
theorem Shape.slotsAt_eq (h : Shape b live free) (p : Price4) (side : Bool) :
    b.slotsAt (b.ptrFor p) side = live.filter (RestsAt b.orderPool p side) := by
  have hlen : (live.filter (RestsAt b.orderPool p side)).length ≤ b.orderPool.capacity :=
    (List.length_filter_le _ _).trans h.length_le
  unfold slotsAt
  have := (h.queued.queue p side).nodes_eq hlen
  rw [levelAt] at this
  rw [this]
  rfl

theorem Shape.queueAt_eq (h : Shape b live free) (p : Price4) (side : Bool) :
    b.queueAt p side = (b.ledgerOf live).queue p side := by
  rw [Shape.queue_ledgerOf, ← h.slotsAt_eq, queueAt]
  by_cases hp : b.HasLevel p
  · rw [hp.levelForQuery]
  · have hnone : b.levelForQuery p = none := Option.not_isSome_iff_eq_none.mp hp
    have hempty : b.slotsAt (b.ptrFor p) side = [] := by
      rw [h.slotsAt_eq, List.filter_eq_nil_iff]
      intro s hs hrest
      rw [restsAt_iff] at hrest
      exact hp (hrest.1 ▸ (h.queued.order_level s hs).2)
    rw [hnone, hempty]
    rfl

namespace Refines

/-- **The live orders** of the book are those of the ledger. -/
theorem liveOrders_perm (h : Refines b l) : b.liveOrders.Perm l.orders := by
  obtain ⟨live, free, hsh, rfl, -⟩ := h
  exact hsh.liveOrders_perm

theorem mem_liveOrders (h : Refines b l) {r : Resting} : r ∈ b.liveOrders ↔ r ∈ l.orders :=
  h.liveOrders_perm.mem_iff

/-- **The queues** of the book are those of the ledger. -/
theorem queueAt_eq (h : Refines b l) (p : Price4) (side : Bool) :
    b.queueAt p side = l.queue p side := by
  obtain ⟨live, free, hsh, rfl, -⟩ := h
  exact hsh.queueAt_eq p side

theorem best_eq (h : Refines b l) (side : Bool) : b.best side = l.best side := by
  obtain ⟨live, free, hsh, rfl, -⟩ := h
  rfl

theorem bestBid_eq (h : Refines b l) : b.bestBid = l.best true := h.best_eq true

theorem bestAsk_eq (h : Refines b l) : b.bestAsk = l.best false := h.best_eq false

theorem capacity_eq (h : Refines b l) : b.orderPool.capacity = l.capacity := by
  obtain ⟨live, free, hsh, rfl, -⟩ := h
  rfl

theorem orderCount_eq (h : Refines b l) : b.orderCount = l.orders.length := by
  obtain ⟨live, free, hsh, rfl, -⟩ := h
  rw [orderCount, hsh.size_eq]
  exact (List.length_map _).symm

theorem sharesAt_eq (h : Refines b l) (p : Price4) (side : Bool) :
    b.sharesAt p side = l.total p side := by
  obtain ⟨live, free, hsh, rfl, -⟩ := h
  rw [OrderBook.sharesAt_eq, hsh.total_ledgerOf]

/-- **A side of the book** is the side of the ledger. -/
theorem depth_eq (h : Refines b l) (side : Bool) : b.depth side = l.depth side := by
  unfold depth Ledger.depth
  rw [h.best_eq, funext fun p => h.queueAt_eq p side]
  refine Depth.of_congr fun p => ?_
  exact ((h.liveOrders_perm.filter _).map _).mem_iff

theorem length_liveOrders (h : Refines b l) : b.liveOrders.length = l.orders.length :=
  h.liveOrders_perm.length_eq

theorem levelSum_eq (h : Refines b l) (p : Price4) (side : Bool) :
    b.levelSum p side = sharesOf (l.queue p side) :=
  ((h.liveOrders_perm.filter _).map _).sum_eq

theorem bounded_iff (h : Refines b l) : LevelSumsBounded b ↔ l.Bounded := by
  unfold LevelSumsBounded Ledger.Bounded
  simp only [h.levelSum_eq]

end Refines

/-- Shares that fit in one share count altogether fit at every price. -/
theorem liveOrders_new (referencePrice : Price4) (halfWidth capacity : ℕ) :
    (new referencePrice halfWidth capacity).liveOrders = [] :=
  (refines_new referencePrice halfWidth capacity).liveOrders_perm.eq_nil

theorem levelSumsBounded_of_sharesOf (h : sharesOf b.liveOrders < 2 ^ 32) : LevelSumsBounded b :=
  fun _ _ => (sharesOf_sublist List.filter_sublist).trans_lt h

end OrderBook
end Liquibook
