import Liquibook.Containers.HashMap
import Liquibook.Containers.IntrusiveList
import Liquibook.Containers.ObjectPool
import Liquibook.Lib.Best
import Mathlib.Data.UInt

/-!
# The order book

`book/order.hpp`, `book/price_level.hpp` and `book/order_book.cpp`: a limit order
book of one symbol.  Resting orders live in an object pool, are indexed by their
reference in an open-addressing hash map, and are queued in intrusive lists at
price levels.  The levels around a reference price are the slots of a flat array,
all others the nodes of a map; the best price of each side is cached.

Prices, share counts, references and trader ids have the fixed widths of the
source, so every subtraction and addition of share counts wraps as it does there.
An `Order*` is the index of a pool slot.  A `PriceLevel*` names a slot of the flat
array or a node of the map; nodes of a `std::map` do not move, so the name stays
valid.  The offsets of the flat array are computed in `std::int64_t`, where they
do not overflow for any array that fits in memory, and are integers here.

## Main definitions

* `Order`, `PriceLevel`, `LevelPtr`, `OrderBook` — the data of the source.
* `OrderBook.new` — the constructor.
* `addOrder`, `executeOrder`, `cancelOrder`, `deleteOrder`, `replaceOrder` — the
  operations, each with the value it returns and the book it leaves.
* `bestBid`, `bestAsk`, `sharesAt`, `orderCount`, `bestBidLevel`, `bestAskLevel`,
  `nextLevelAfter` — the queries.
* `Op`, `OrderBook.step`, `OrderBook.run` — operations as data, and runs of them.
-/

namespace Liquibook

abbrev OrderRef := UInt64
abbrev Price4 := UInt32
abbrev Shares := UInt32
abbrev TraderId := UInt32

instance : ToUInt64 OrderRef := ⟨id⟩

/-- A pointer to a price level: a slot of the flat array, or a node of the map
of outlier levels. -/
inductive LevelPtr where
  | flat (index : ℕ) : LevelPtr
  | outlier (price : Price4) : LevelPtr
  deriving DecidableEq, Repr, Inhabited

/-- `struct Order`: one resting order. -/
structure Order where
  orderRef : OrderRef := 0
  price : Price4 := 0
  /-- The remaining shares. -/
  shares : Shares := 0
  isBuy : Bool := false
  /-- `0` stands for no trader. -/
  traderId : TraderId := 0
  prev : Option ℕ := none
  next : Option ℕ := none
  level : Option LevelPtr := none
  deriving DecidableEq, Repr, Inhabited

/-- `struct PriceLevel`: all resting interest at one price. -/
structure PriceLevel where
  price : Price4 := 0
  bids : IntrusiveList := {}
  asks : IntrusiveList := {}
  totalBidShares : Shares := 0
  totalAskShares : Shares := 0
  deriving DecidableEq, Repr, Inhabited

/-- An order in a pool slot is a node of an intrusive list. -/
instance : NodeHeap (ObjectPool Order) where
  prev h i := (h.get i).prev
  next h i := (h.get i).next
  setPrev h i v := h.modify i fun o => { o with prev := v }
  setNext h i v := h.modify i fun o => { o with next := v }
  prev_setPrev := by intro h i v j; rw [ObjectPool.get_modify]; split <;> rfl
  next_setPrev := by
    intro h i v j; rw [ObjectPool.get_modify]; split
    · next e => rw [e]
    · rfl
  prev_setNext := by
    intro h i v j; rw [ObjectPool.get_modify]; split
    · next e => rw [e]
    · rfl
  next_setNext := by intro h i v j; rw [ObjectPool.get_modify]; split <;> rfl

/-- `class OrderBook` -/
structure OrderBook where
  referencePrice : Price4
  flatArrayHalfWidth : ℕ
  /-- The slots of the flat array; those from `2 * flatArrayHalfWidth + 1` on do
  not exist. -/
  flatLevels : ℕ → PriceLevel
  outlierLevels : Std.TreeMap Price4 PriceLevel
  orderPool : ObjectPool Order
  orderIndex : OpenAddressingHashMap OrderRef ℕ
  hasBestBid : Bool := false
  bestBidPrice : Price4 := 0
  hasBestAsk : Bool := false
  bestAskPrice : Price4 := 0

namespace OrderBook

/-- The price of a slot of the flat array.  A window that runs below price `0`
or above the largest price has slots whose price wraps. -/
def slotPrice (referencePrice : Price4) (halfWidth i : ℕ) : Price4 :=
  UInt32.ofInt ((referencePrice.toNat : ℤ) + ((i : ℤ) - (halfWidth : ℤ)))

/-- The constructor. -/
def new (referencePrice : Price4) (flatArrayHalfWidth orderCapacity : ℕ) : OrderBook where
  referencePrice := referencePrice
  flatArrayHalfWidth := flatArrayHalfWidth
  flatLevels i := { price := slotPrice referencePrice flatArrayHalfWidth i }
  outlierLevels := ∅
  orderPool := ObjectPool.new Order orderCapacity
  orderIndex := OpenAddressingHashMap.new OrderRef ℕ orderCapacity

/-- `flat_levels_.size()` -/
def flatSize (b : OrderBook) : ℕ := 2 * b.flatArrayHalfWidth + 1

/-- `flat_index_for`: the slot of a price inside the window. -/
def flatIndexFor (b : OrderBook) (price : Price4) : Option ℕ :=
  let offset : ℤ := (price.toNat : ℤ) - (b.referencePrice.toNat : ℤ)
  let halfWidth : ℤ := b.flatArrayHalfWidth
  if offset < -halfWidth ∨ offset > halfWidth then none
  else some (offset + halfWidth).toNat

/-- `*level`; junk at the null pointer. -/
def level (b : OrderBook) : Option LevelPtr → PriceLevel
  | some (.flat i) => b.flatLevels i
  | some (.outlier p) => b.outlierLevels.getD p {}
  | none => {}

/-- Write through a pointer to a level. -/
def setLevel (b : OrderBook) (ptr : Option LevelPtr) (lvl : PriceLevel) : OrderBook :=
  match ptr with
  | some (.flat i) => { b with flatLevels := Function.update b.flatLevels i lvl }
  | some (.outlier p) => { b with outlierLevels := b.outlierLevels.insert p lvl }
  | none => b

/-- `level_for_mutation`: the level of a price, created if it is a new outlier. -/
def levelForMutation (b : OrderBook) (price : Price4) : LevelPtr × OrderBook :=
  match b.flatIndexFor price with
  | some i => (.flat i, b)
  | none =>
      match b.outlierLevels[price]? with
      | some _ => (.outlier price, b)
      | none =>
          (.outlier price,
            { b with outlierLevels := b.outlierLevels.insert price { price := price } })

/-- `level_for_query`: the level of a price, if there is one. -/
def levelForQuery (b : OrderBook) (price : Price4) : Option LevelPtr :=
  match b.flatIndexFor price with
  | some i => some (.flat i)
  | none =>
      match b.outlierLevels[price]? with
      | some _ => some (.outlier price)
      | none => none

/-- `update_best_on_add` -/
def updateBestOnAdd (b : OrderBook) (price : Price4) (isBuy : Bool) : OrderBook :=
  if isBuy then
    if !b.hasBestBid || price > b.bestBidPrice then
      { b with bestBidPrice := price, hasBestBid := true }
    else b
  else
    if !b.hasBestAsk || price < b.bestAskPrice then
      { b with bestAskPrice := price, hasBestAsk := true }
    else b

/-- `is_buy ? p > q : p < q` -/
def better (isBuy : Bool) (p q : Price4) : Bool :=
  if isBuy then decide (p > q) else decide (p < q)

/-- The scan that `recompute_best_after_level_emptied` and `next_level_after` make:
the flat array from its good end, then the whole map of outliers, then the nearer
of the two, over the prices that `admits` lets through. -/
def bestPriceWhere (b : OrderBook) (isBuy : Bool) (admits : Price4 → Bool) : Option Price4 :=
  let bestInFlat : Option Price4 :=
    if isBuy then
      ((List.range b.flatSize).reverse.find? fun i =>
        admits (b.flatLevels i).price && decide ((b.flatLevels i).totalBidShares > 0)).map
          fun i => (b.flatLevels i).price
    else
      ((List.range b.flatSize).find? fun i =>
        admits (b.flatLevels i).price && decide ((b.flatLevels i).totalAskShares > 0)).map
          fun i => (b.flatLevels i).price
  let bestInOutliers : Option Price4 :=
    b.outlierLevels.foldl (fun best price level =>
      if !admits price then best
      else
        let shares := if isBuy then level.totalBidShares else level.totalAskShares
        if shares = 0 then best
        else if best.all (better isBuy price) then some price
        else best) none
  match bestInFlat, bestInOutliers with
  | some f, some o => some (if isBuy then max f o else min f o)
  | some f, none => some f
  | none, o => o

/-- `recompute_best_after_level_emptied` -/
def recomputeBestAfterLevelEmptied (b : OrderBook) (isBuy : Bool) : OrderBook :=
  let newBest := b.bestPriceWhere isBuy fun _ => true
  if isBuy then
    { b with hasBestBid := newBest.isSome, bestBidPrice := newBest.getD b.bestBidPrice }
  else
    { b with hasBestAsk := newBest.isSome, bestAskPrice := newBest.getD b.bestAskPrice }

/-- Write the members of an order. -/
def modifyOrder (b : OrderBook) (order : ℕ) (f : Order → Order) : OrderBook :=
  { b with orderPool := b.orderPool.modify order f }

/-- `push_back` the order at the level and add its shares to the level's total. -/
def enqueue (b : OrderBook) (order : ℕ) (ptr : Option LevelPtr) (isBuy : Bool) (shares : Shares) :
    OrderBook :=
  let level := b.level ptr
  if isBuy then
    let (pool, bids) := level.bids.pushBack b.orderPool order
    { b with orderPool := pool }.setLevel ptr
      { level with bids := bids, totalBidShares := level.totalBidShares + shares }
  else
    let (pool, asks) := level.asks.pushBack b.orderPool order
    { b with orderPool := pool }.setLevel ptr
      { level with asks := asks, totalAskShares := level.totalAskShares + shares }

/-- `remove` the order from the level and take its shares off the level's total. -/
def dequeue (b : OrderBook) (order : ℕ) (ptr : Option LevelPtr) (isBuy : Bool) (shares : Shares) :
    OrderBook :=
  let level := b.level ptr
  if isBuy then
    let (pool, bids) := level.bids.remove b.orderPool order
    { b with orderPool := pool }.setLevel ptr
      { level with bids := bids, totalBidShares := level.totalBidShares - shares }
  else
    let (pool, asks) := level.asks.remove b.orderPool order
    { b with orderPool := pool }.setLevel ptr
      { level with asks := asks, totalAskShares := level.totalAskShares - shares }

/-- `remove_order_fully` -/
def removeOrderFully (b : OrderBook) (order : ℕ) : OrderBook :=
  let o := b.orderPool.get order
  let b := b.dequeue order o.level o.isBuy o.shares
  let b := { b with orderIndex := (b.orderIndex.erase o.orderRef).2 }
  let b := { b with orderPool := b.orderPool.release order }
  let sideNowEmpty := if o.isBuy then (b.level o.level).bids.empty else (b.level o.level).asks.empty
  if !sideNowEmpty then b
  else
    let wasBest := if o.isBuy then b.hasBestBid && o.price == b.bestBidPrice
      else b.hasBestAsk && o.price == b.bestAskPrice
    if wasBest then b.recomputeBestAfterLevelEmptied o.isBuy else b

/-- `add_order` -/
def addOrder (b : OrderBook) (ref : OrderRef) (price : Price4) (shares : Shares) (isBuy : Bool)
    (traderId : TraderId) : Bool × OrderBook :=
  if shares = 0 then (false, b)
  else if (b.orderIndex.find ref).isSome then (false, b)
  else
    match b.orderPool.acquire {} with
    | none => (false, b)
    | some (order, pool) =>
        let b := { b with orderPool := pool }
        let (level, b) := b.levelForMutation price
        let b := b.modifyOrder order fun o =>
          { o with orderRef := ref, price := price, shares := shares, isBuy := isBuy,
                   traderId := traderId, level := some level }
        let b := b.enqueue order (some level) isBuy shares
        match b.orderIndex.insert ref order with
        | (false, _) =>
            -- hash map full: roll back
            let b := b.dequeue order (some level) isBuy shares
            (false, { b with orderPool := b.orderPool.release order })
        | (true, index) => (true, { b with orderIndex := index }.updateBestOnAdd price isBuy)

/-- Take `delta` shares off the level's total. -/
def reduceTotal (b : OrderBook) (ptr : Option LevelPtr) (isBuy : Bool) (delta : Shares) :
    OrderBook :=
  let level := b.level ptr
  if isBuy then b.setLevel ptr { level with totalBidShares := level.totalBidShares - delta }
  else b.setLevel ptr { level with totalAskShares := level.totalAskShares - delta }

/-- `reduce_shares` -/
def reduceShares (b : OrderBook) (ref : OrderRef) (delta : Shares) : Bool × OrderBook :=
  match b.orderIndex.find ref with
  | none => (false, b)
  | some order =>
      let o := b.orderPool.get order
      if delta = 0 ∨ delta > o.shares then (false, b)
      else
        let b := b.modifyOrder order fun o => { o with shares := o.shares - delta }
        let b := b.reduceTotal o.level o.isBuy delta
        if (b.orderPool.get order).shares = 0 then (true, b.removeOrderFully order) else (true, b)

/-- `execute_order` -/
def executeOrder (b : OrderBook) (ref : OrderRef) (executedShares : Shares) : Bool × OrderBook :=
  b.reduceShares ref executedShares

/-- `cancel_order` -/
def cancelOrder (b : OrderBook) (ref : OrderRef) (cancelledShares : Shares) : Bool × OrderBook :=
  b.reduceShares ref cancelledShares

/-- `delete_order` -/
def deleteOrder (b : OrderBook) (ref : OrderRef) : Bool × OrderBook :=
  match b.orderIndex.find ref with
  | none => (false, b)
  | some order => (true, b.removeOrderFully order)

/-- `replace_order`.  The new order is added with the default trader id `0`. -/
def replaceOrder (b : OrderBook) (oldRef newRef : OrderRef) (newShares : Shares)
    (newPrice : Price4) : Bool × OrderBook :=
  match b.orderIndex.find oldRef with
  | none => (false, b)
  | some oldOrder =>
      if newShares = 0 then (false, b)
      else if oldRef ≠ newRef ∧ (b.orderIndex.find newRef).isSome then (false, b)
      else
        let isBuy := (b.orderPool.get oldOrder).isBuy
        let b := b.removeOrderFully oldOrder
        b.addOrder newRef newPrice newShares isBuy 0

/-- `best_bid` -/
def bestBid (b : OrderBook) : Option Price4 := if b.hasBestBid then some b.bestBidPrice else none

/-- `best_ask` -/
def bestAsk (b : OrderBook) : Option Price4 := if b.hasBestAsk then some b.bestAskPrice else none

/-- `shares_at` -/
def sharesAt (b : OrderBook) (price : Price4) (isBuy : Bool) : Shares :=
  match b.levelForQuery price with
  | none => 0
  | some ptr =>
      if isBuy then (b.level (some ptr)).totalBidShares else (b.level (some ptr)).totalAskShares

/-- `order_count` -/
def orderCount (b : OrderBook) : ℕ := b.orderIndex.size

/-- `best_bid_level` -/
def bestBidLevel (b : OrderBook) : Option LevelPtr :=
  if b.hasBestBid then b.levelForQuery b.bestBidPrice else none

/-- `best_ask_level` -/
def bestAskLevel (b : OrderBook) : Option LevelPtr :=
  if b.hasBestAsk then b.levelForQuery b.bestAskPrice else none

/-- `next_level_after` -/
def nextLevelAfter (b : OrderBook) (price : Price4) (isBuy : Bool) : Option LevelPtr :=
  (b.bestPriceWhere isBuy fun p => if isBuy then decide (p < price) else decide (p > price)).bind
    b.levelForQuery

end OrderBook

/-! ### Operations as data -/

/-- A call of one of the five mutating operations of the book. -/
inductive Op where
  | add (ref : OrderRef) (price : Price4) (shares : Shares) (isBuy : Bool) (traderId : TraderId)
  | execute (ref : OrderRef) (shares : Shares)
  | cancel (ref : OrderRef) (shares : Shares)
  | delete (ref : OrderRef)
  | replace (oldRef newRef : OrderRef) (newShares : Shares) (newPrice : Price4)
  deriving DecidableEq, Repr

/-- The reference that a call gives to a new order if it succeeds. -/
def Op.creates : Op → Option OrderRef
  | .add ref .. => some ref
  | .replace _ newRef .. => some newRef
  | _ => none

namespace OrderBook

/-- Make one call. -/
def step (b : OrderBook) : Op → Bool × OrderBook
  | .add ref price shares isBuy traderId => b.addOrder ref price shares isBuy traderId
  | .execute ref shares => b.executeOrder ref shares
  | .cancel ref shares => b.cancelOrder ref shares
  | .delete ref => b.deleteOrder ref
  | .replace oldRef newRef newShares newPrice => b.replaceOrder oldRef newRef newShares newPrice

/-- Make a sequence of calls. -/
def run (b : OrderBook) (ops : List Op) : OrderBook := ops.foldl (fun b op => (b.step op).2) b

end OrderBook
end Liquibook
