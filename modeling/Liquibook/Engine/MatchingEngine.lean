import Liquibook.Book.OrderBook

/-!
# The matching engine

`engine/matching_engine.hpp`: an incoming order is matched against the resting
orders of the opposite side, best price first and in queue order within a price,
and its remainder rests or is discarded according to its type.  The event handler
is the list of the events it receives, in order.

The two loops of the source have no bound of their own.  Here they run with fuel:
`executeMatch` with one iteration for each share still to be filled and one to
leave the loop, `availableLiquidity` with one for each price there is and one to
leave the loop, and a walk over a queue with one for each slot of the pool.
Running out of fuel is `none`, which no state the book can be in produces.

## Main definitions

* `OrderType`, `IncomingOrder`, `FillEvent`, `RestEvent`, `KillEvent` — the data of
  `engine/order_types.hpp` and `engine/events.hpp`.
* `eligible`, `crosses`, `availableLiquidity`, `executeMatch`, `submit` — the engine.
-/

namespace Liquibook

/-- `enum class OrderType` -/
inductive OrderType where
  | limit
  | market
  | ioc
  | fok
  deriving DecidableEq, Repr, Inhabited

/-- `struct IncomingOrder` -/
structure IncomingOrder where
  orderRef : OrderRef
  /-- Ignored for market orders. -/
  price : Price4
  quantity : Shares
  isBuy : Bool
  type : OrderType
  traderId : TraderId := 0
  deriving DecidableEq, Repr, Inhabited

/-- `struct FillEvent` -/
structure FillEvent where
  aggressorRef : OrderRef
  restingRef : OrderRef
  /-- The price of the resting order. -/
  price : Price4
  quantity : Shares
  deriving DecidableEq, Repr, Inhabited

/-- `struct RestEvent` -/
structure RestEvent where
  orderRef : OrderRef
  price : Price4
  quantity : Shares
  isBuy : Bool
  deriving DecidableEq, Repr, Inhabited

/-- `struct KillEvent` -/
structure KillEvent where
  orderRef : OrderRef
  unfilledQuantity : Shares
  deriving DecidableEq, Repr, Inhabited

/-- A call of the event handler. -/
inductive Event where
  | fill (e : FillEvent)
  | rest (e : RestEvent)
  | kill (e : KillEvent)
  deriving DecidableEq, Repr

namespace MatchingEngine

/-- `eligible`: self-trade prevention does not block a candidate order of this
trader. -/
def eligible (preventSelfTrade : Bool) (order : IncomingOrder) (candidateTraderId : TraderId) :
    Bool :=
  if !preventSelfTrade || order.traderId == 0 then true
  else candidateTraderId != order.traderId

/-- `crosses` -/
def crosses (order : IncomingOrder) (levelPrice : Price4) : Bool :=
  if order.type = .market then true
  else if order.isBuy then decide (levelPrice ≤ order.price)
  else decide (levelPrice ≥ order.price)

/-- The level the source reads as `order.is_buy ? best_ask_level() : best_bid_level()`. -/
def bestOppositeLevel (b : OrderBook) (order : IncomingOrder) : Option LevelPtr :=
  if order.isBuy then b.bestAskLevel else b.bestBidLevel

/-- The queue the source reads as `order.is_buy ? level->asks : level->bids`. -/
def oppositeQueue (b : OrderBook) (order : IncomingOrder) (ptr : LevelPtr) : IntrusiveList :=
  if order.isBuy then (b.level (some ptr)).asks else (b.level (some ptr)).bids

/-- The loop over a queue that adds up the shares of the eligible candidates. -/
def sumEligible (preventSelfTrade : Bool) (b : OrderBook) (order : IncomingOrder) :
    ℕ → Option ℕ → Shares → Option Shares
  | _, none, total => some total
  | 0, some _, _ => none
  | fuel + 1, some candidate, total =>
      let c := b.orderPool.get candidate
      sumEligible preventSelfTrade b order fuel c.next
        (if eligible preventSelfTrade order c.traderId then total + c.shares else total)

/-- The loop of `available_liquidity`. -/
def availableLiquidityLoop (preventSelfTrade : Bool) (b : OrderBook) (order : IncomingOrder) :
    ℕ → Option LevelPtr → Shares → Option Shares
  | _, none, total => some total
  | 0, some _, _ => none
  | fuel + 1, some ptr, total =>
      let level := b.level (some ptr)
      if ¬ total < order.quantity then some total
      else if !crosses order level.price then some total
      else
        let newTotal :=
          if !preventSelfTrade || order.traderId == 0 then
            some (total + if order.isBuy then level.totalAskShares else level.totalBidShares)
          else
            sumEligible preventSelfTrade b order b.orderPool.capacity
              (oppositeQueue b order ptr).head total
        newTotal.bind fun total =>
          availableLiquidityLoop preventSelfTrade b order fuel
            (b.nextLevelAfter level.price !order.isBuy) total

/-- `available_liquidity` -/
def availableLiquidity (preventSelfTrade : Bool) (b : OrderBook) (order : IncomingOrder) :
    Option Shares :=
  availableLiquidityLoop preventSelfTrade b order (2 ^ 32 + 1) (bestOppositeLevel b order) 0

/-- The loop over a queue that stops at the first eligible candidate; `none`
inside is the null pointer. -/
def firstEligible (preventSelfTrade : Bool) (b : OrderBook) (order : IncomingOrder) :
    ℕ → Option ℕ → Option (Option ℕ)
  | _, none => some none
  | 0, some _ => none
  | fuel + 1, some candidate =>
      let c := b.orderPool.get candidate
      if eligible preventSelfTrade order c.traderId then some (some candidate)
      else firstEligible preventSelfTrade b order fuel c.next

/-- What one iteration of `execute_match` finds: the resting order to execute
against, or that the loop is left. -/
def selectResting (preventSelfTrade : Bool) (b : OrderBook) (order : IncomingOrder) :
    Option (Option ℕ) :=
  match bestOppositeLevel b order with
  | none => some none
  | some ptr =>
      if !crosses order (b.level (some ptr)).price then some none
      else
        firstEligible preventSelfTrade b order b.orderPool.capacity (oppositeQueue b order ptr).head

/-- The loop of `execute_match`: the shares left over, the fills reported and the
book. -/
def executeMatchLoop (preventSelfTrade : Bool) (order : IncomingOrder) :
    ℕ → OrderBook → Shares → Option (Shares × List FillEvent × OrderBook)
  | 0, _, _ => none
  | fuel + 1, b, remaining =>
      if remaining = 0 then some (remaining, [], b)
      else
        (selectResting preventSelfTrade b order).bind fun
          | none => some (remaining, [], b)
          | some resting =>
              let r := b.orderPool.get resting
              let fillQty := min remaining r.shares
              let b := (b.executeOrder r.orderRef fillQty).2
              (executeMatchLoop preventSelfTrade order fuel b (remaining - fillQty)).map
                fun (left, fills, b) =>
                  (left, { aggressorRef := order.orderRef, restingRef := r.orderRef,
                           price := r.price, quantity := fillQty } :: fills, b)

/-- `execute_match`: the quantity filled, the fills reported and the book. -/
def executeMatch (preventSelfTrade : Bool) (b : OrderBook) (order : IncomingOrder) :
    Option (Shares × List FillEvent × OrderBook) :=
  (executeMatchLoop preventSelfTrade order (order.quantity.toNat + 1) b order.quantity).map
    fun (remaining, fills, b) => (order.quantity - remaining, fills, b)

/-- What `submit` does once it goes on to match: the fills, then the remainder
rule of the order type. -/
def matchAndSettle (preventSelfTrade : Bool) (b : OrderBook) (order : IncomingOrder) :
    Option (List Event × OrderBook) :=
  (executeMatch preventSelfTrade b order).map fun (filled, fills, b) =>
    let remaining := order.quantity - filled
    if remaining = 0 then (fills.map .fill, b)
    else if order.type = .limit then
      -- the source ignores what `add_order` returns
      let b := (b.addOrder order.orderRef order.price remaining order.isBuy order.traderId).2
      (fills.map .fill ++ [.rest { orderRef := order.orderRef, price := order.price,
                                   quantity := remaining, isBuy := order.isBuy }], b)
    else
      (fills.map .fill ++ [.kill { orderRef := order.orderRef,
                                   unfilledQuantity := remaining }], b)

/-- `submit`: the events reported, in order, and the book. -/
def submit (preventSelfTrade : Bool) (b : OrderBook) (order : IncomingOrder) :
    Option (List Event × OrderBook) :=
  if order.quantity = 0 then some ([], b)
  else if order.type = .fok then
    (availableLiquidity preventSelfTrade b order).bind fun available =>
      if available < order.quantity then
        some ([.kill { orderRef := order.orderRef, unfilledQuantity := order.quantity }], b)
      else matchAndSettle preventSelfTrade b order
  else matchAndSettle preventSelfTrade b order

end MatchingEngine
end Liquibook
