import Liquibook.Book.OrderBook

/-!
# ITCH messages

`itch/types.hpp` and `itch/messages.hpp`: the ten message types of the NASDAQ
TotalView-ITCH 5.0 protocol that the project supports, and a decoded message, which
is the common header and one payload.

The payload is a union in the source.  Here it is a sum whose constructor is the
member that was written.  An accessor asserts that the type in the header is the one
of its member, and reads the member; it yields nothing if the assertion fails or if
another member was written.

## Main definitions

* `MessageType`, `MessageType.ofByte`, `wireLength` — the message types.
* `MessageHeader`, `Payload`, `DecodedMessage` — decoded messages.
* `DecodedMessage.asAddOrder` and its siblings — the checked accessors that
  `OrderBook::apply` uses.
-/

namespace Liquibook

abbrev Byte := UInt8
abbrev Timestamp := UInt64
abbrev StockLocate := UInt16
abbrev TrackingNumber := UInt16
abbrev MatchNumber := UInt64

/-- `enum class MessageType` -/
inductive MessageType where
  | systemEvent
  | stockDirectory
  | addOrder
  | addOrderMPID
  | orderExecuted
  | orderExecutedWithPrice
  | orderCancel
  | orderDelete
  | orderReplace
  | trade
  deriving DecidableEq, Repr, Inhabited

namespace MessageType

/-- The value of an enumerator: `'S'`, `'R'`, `'A'`, `'F'`, `'E'`, `'C'`, `'X'`,
`'D'`, `'U'`, `'P'`. -/
def code : MessageType → Byte
  | systemEvent => 83
  | stockDirectory => 82
  | addOrder => 65
  | addOrderMPID => 70
  | orderExecuted => 69
  | orderExecutedWithPrice => 67
  | orderCancel => 88
  | orderDelete => 68
  | orderReplace => 85
  | trade => 80

/-- The enumerator with a value, if there is one. -/
def ofByte (c : Byte) : Option MessageType :=
  if c = 83 then some systemEvent
  else if c = 82 then some stockDirectory
  else if c = 65 then some addOrder
  else if c = 70 then some addOrderMPID
  else if c = 69 then some orderExecuted
  else if c = 67 then some orderExecutedWithPrice
  else if c = 88 then some orderCancel
  else if c = 68 then some orderDelete
  else if c = 85 then some orderReplace
  else if c = 80 then some trade
  else none

@[simp] theorem ofByte_code (type : MessageType) : ofByte type.code = some type := by
  cases type <;> rfl

/-- One test of a chain that looks a value up. -/
theorem of_ite_some {α : Type} {p : Prop} [Decidable p] {a b : α} {o : Option α}
    (h : (if p then some a else o) = some b) : p ∧ a = b ∨ o = some b := by
  split at h
  · next hp => exact Or.inl ⟨hp, Option.some.inj h⟩
  · exact Or.inr h

theorem ofByte_eq_some_iff {c : Byte} {type : MessageType} :
    ofByte c = some type ↔ c = type.code := by
  constructor
  · intro h
    unfold ofByte at h
    iterate 10
      obtain ⟨rfl, rfl⟩ | h := of_ite_some h
      · rfl
    cases h
  · rintro rfl
    exact ofByte_code type

end MessageType

/-- `wire_length`; `0` for a value that is none of the enumerators. -/
def wireLength : Option MessageType → ℕ
  | some .systemEvent => 12
  | some .stockDirectory => 39
  | some .addOrder => 36
  | some .addOrderMPID => 40
  | some .orderExecuted => 31
  | some .orderExecutedWithPrice => 36
  | some .orderCancel => 23
  | some .orderDelete => 19
  | some .orderReplace => 35
  | some .trade => 44
  | none => 0

/-- `struct MessageHeader` -/
structure MessageHeader where
  type : MessageType
  stockLocate : StockLocate
  trackingNumber : TrackingNumber
  timestamp : Timestamp
  deriving DecidableEq, Inhabited

/-- `struct SystemEventPayload` -/
structure SystemEventPayload where
  eventCode : Byte
  deriving DecidableEq, Inhabited

/-- `struct StockDirectoryPayload` -/
structure StockDirectoryPayload where
  stock : Vector Byte 8
  marketCategory : Byte
  financialStatusIndicator : Byte
  roundLotSize : UInt32
  roundLotsOnly : Byte
  issueClassification : Byte
  issueSubtype : Vector Byte 2
  authenticity : Byte
  shortSaleThresholdIndicator : Byte
  ipoFlag : Byte
  luldReferencePriceTier : Byte
  etpFlag : Byte
  etpLeverageFactor : UInt32
  inverseIndicator : Byte
  deriving DecidableEq

/-- `struct AddOrderPayload`; `attribution` is zero for a plain `'A'` message. -/
structure AddOrderPayload where
  orderReferenceNumber : OrderRef
  buySellIndicator : Byte
  shares : Shares
  stock : Vector Byte 8
  price : Price4
  attribution : Vector Byte 4
  deriving DecidableEq

/-- `struct OrderExecutedPayload` -/
structure OrderExecutedPayload where
  orderReferenceNumber : OrderRef
  executedShares : Shares
  matchNumber : MatchNumber
  deriving DecidableEq, Inhabited

/-- `struct OrderExecutedWithPricePayload` -/
structure OrderExecutedWithPricePayload where
  orderReferenceNumber : OrderRef
  executedShares : Shares
  matchNumber : MatchNumber
  printable : Byte
  executionPrice : Price4
  deriving DecidableEq, Inhabited

/-- `struct OrderCancelPayload` -/
structure OrderCancelPayload where
  orderReferenceNumber : OrderRef
  cancelledShares : Shares
  deriving DecidableEq, Inhabited

/-- `struct OrderDeletePayload` -/
structure OrderDeletePayload where
  orderReferenceNumber : OrderRef
  deriving DecidableEq, Inhabited

/-- `struct OrderReplacePayload` -/
structure OrderReplacePayload where
  originalOrderReferenceNumber : OrderRef
  newOrderReferenceNumber : OrderRef
  shares : Shares
  price : Price4
  deriving DecidableEq, Inhabited

/-- `struct TradePayload` -/
structure TradePayload where
  orderReferenceNumber : OrderRef
  buySellIndicator : Byte
  shares : Shares
  stock : Vector Byte 8
  price : Price4
  matchNumber : MatchNumber
  deriving DecidableEq

/-- `union Payload`, with the member that was written. -/
inductive Payload where
  | systemEvent (p : SystemEventPayload)
  | stockDirectory (p : StockDirectoryPayload)
  | addOrder (p : AddOrderPayload)
  | orderExecuted (p : OrderExecutedPayload)
  | orderExecutedWithPrice (p : OrderExecutedWithPricePayload)
  | orderCancel (p : OrderCancelPayload)
  | orderDelete (p : OrderDeletePayload)
  | orderReplace (p : OrderReplacePayload)
  | trade (p : TradePayload)
  deriving DecidableEq

instance : Inhabited Payload := ⟨.systemEvent default⟩

/-- `struct DecodedMessage` -/
structure DecodedMessage where
  header : MessageHeader
  payload : Payload
  deriving DecidableEq, Inhabited

/-- The member belongs to a message of the type. -/
def Payload.belongsTo : Payload → MessageType → Bool
  | .systemEvent _, type => type == .systemEvent
  | .stockDirectory _, type => type == .stockDirectory
  | .addOrder _, type => type == .addOrder || type == .addOrderMPID
  | .orderExecuted _, type => type == .orderExecuted
  | .orderExecutedWithPrice _, type => type == .orderExecutedWithPrice
  | .orderCancel _, type => type == .orderCancel
  | .orderDelete _, type => type == .orderDelete
  | .orderReplace _, type => type == .orderReplace
  | .trade _, type => type == .trade

namespace DecodedMessage

/-- `as_add_order` -/
def asAddOrder (msg : DecodedMessage) : Option AddOrderPayload :=
  if msg.header.type = .addOrder ∨ msg.header.type = .addOrderMPID then
    match msg.payload with
    | .addOrder p => some p
    | _ => none
  else none

/-- `as_order_executed` -/
def asOrderExecuted (msg : DecodedMessage) : Option OrderExecutedPayload :=
  if msg.header.type = .orderExecuted then
    match msg.payload with
    | .orderExecuted p => some p
    | _ => none
  else none

/-- `as_order_executed_with_price` -/
def asOrderExecutedWithPrice (msg : DecodedMessage) : Option OrderExecutedWithPricePayload :=
  if msg.header.type = .orderExecutedWithPrice then
    match msg.payload with
    | .orderExecutedWithPrice p => some p
    | _ => none
  else none

/-- `as_order_cancel` -/
def asOrderCancel (msg : DecodedMessage) : Option OrderCancelPayload :=
  if msg.header.type = .orderCancel then
    match msg.payload with
    | .orderCancel p => some p
    | _ => none
  else none

/-- `as_order_delete` -/
def asOrderDelete (msg : DecodedMessage) : Option OrderDeletePayload :=
  if msg.header.type = .orderDelete then
    match msg.payload with
    | .orderDelete p => some p
    | _ => none
  else none

/-- `as_order_replace` -/
def asOrderReplace (msg : DecodedMessage) : Option OrderReplacePayload :=
  if msg.header.type = .orderReplace then
    match msg.payload with
    | .orderReplace p => some p
    | _ => none
  else none

end DecodedMessage
end Liquibook
