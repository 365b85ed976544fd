import Liquibook.Itch.Messages
import Liquibook.Lib.BigEndian

/-!
# Decoding a message

`itch/byteorder.hpp` and `itch/decode.cpp`: one raw message is decoded by reading its
fields at fixed offsets, as big-endian numbers of two, four, six and eight bytes and
as characters.

The source reads through a pointer that knows no bounds.  So a read here always gives
a byte, a made-up one past the end of the string, and leaves the index it read at in
a log.  That no read is past the end is a theorem about the log.

## Main definitions

* `Reads α` — a computation that reads bytes, with the indices it reads at.
* `readU16Be`, `readU32Be`, `readU48Be`, `readU64Be`, `readChar`, `readChars` — fields.
* `decode`, `decodeMessage`, `bytesRead` — the decoder, its result and its reads.

## Main results

* `readU16Be_eq`, `readU32Be_eq`, `readU48Be_eq`, `readU64Be_eq` — **a field is the
  number that its slice of the bytes stands for.**
-/

namespace Liquibook

open Lib

/-- A computation that reads bytes of a string through a pointer to its first byte:
its result, and the indices it reads at. -/
def Reads (α : Type) : Type := List Byte → α × List ℕ

namespace Reads

instance : Monad Reads where
  pure a := fun _ => (a, [])
  bind x f := fun raw => ((f (x raw).1 raw).1, (x raw).2 ++ (f (x raw).1 raw).2)

variable {α β : Type} {raw : List Byte}

@[simp] theorem pure_apply (a : α) : (pure a : Reads α) raw = (a, []) := rfl

@[simp] theorem bind_apply (x : Reads α) (f : α → Reads β) :
    (x >>= f) raw = ((f (x raw).1 raw).1, (x raw).2 ++ (f (x raw).1 raw).2) := rfl

@[simp] theorem map_apply (f : α → β) (x : Reads α) :
    (f <$> x) raw = (f (x raw).1, (x raw).2) := by
  change (x >>= fun a => pure (f a)) raw = _
  simp

/-- `p[i]` -/
def byteAt (i : ℕ) : Reads Byte := fun raw => (raw.getD i default, [i])

end Reads

open Reads

/-! ### Fields -/

/-- `read_u16_be` -/
def readU16Be (p : ℕ) : Reads UInt16 := do
  let b0 ← byteAt p
  let b1 ← byteAt (p + 1)
  return (b0.toUInt16 <<< 8) ||| b1.toUInt16

/-- `read_u32_be` -/
def readU32Be (p : ℕ) : Reads UInt32 := do
  let b0 ← byteAt p
  let b1 ← byteAt (p + 1)
  let b2 ← byteAt (p + 2)
  let b3 ← byteAt (p + 3)
  return (b0.toUInt32 <<< 24) ||| (b1.toUInt32 <<< 16) ||| (b2.toUInt32 <<< 8) ||| b3.toUInt32

/-- `read_u48_be` -/
def readU48Be (p : ℕ) : Reads UInt64 := do
  let b0 ← byteAt p
  let b1 ← byteAt (p + 1)
  let b2 ← byteAt (p + 2)
  let b3 ← byteAt (p + 3)
  let b4 ← byteAt (p + 4)
  let b5 ← byteAt (p + 5)
  return (b0.toUInt64 <<< 40) ||| (b1.toUInt64 <<< 32) ||| (b2.toUInt64 <<< 24) |||
    (b3.toUInt64 <<< 16) ||| (b4.toUInt64 <<< 8) ||| b5.toUInt64

/-- `read_u64_be` -/
def readU64Be (p : ℕ) : Reads UInt64 := do
  let b0 ← byteAt p
  let b1 ← byteAt (p + 1)
  let b2 ← byteAt (p + 2)
  let b3 ← byteAt (p + 3)
  let b4 ← byteAt (p + 4)
  let b5 ← byteAt (p + 5)
  let b6 ← byteAt (p + 6)
  let b7 ← byteAt (p + 7)
  return (b0.toUInt64 <<< 56) ||| (b1.toUInt64 <<< 48) ||| (b2.toUInt64 <<< 40) |||
    (b3.toUInt64 <<< 32) ||| (b4.toUInt64 <<< 24) ||| (b5.toUInt64 <<< 16) |||
    (b6.toUInt64 <<< 8) ||| b7.toUInt64

/-- `read_char` -/
def readChar (p : ℕ) : Reads Byte := byteAt p

/-- `read_chars` -/
def readChars (p n : ℕ) : Reads (Vector Byte n) := fun raw =>
  (Vector.ofFn fun i => (readChar (p + i) raw).1, (List.range n).map fun i => p + i)

/-! ### The decoders -/

/-- `decode_header` -/
def decodeHeader (type : MessageType) : Reads MessageHeader := do
  return { type := type
           stockLocate := ← readU16Be 1
           trackingNumber := ← readU16Be 3
           timestamp := ← readU48Be 5 }

/-- `decode_system_event` -/
def decodeSystemEvent : Reads DecodedMessage := do
  let header ← decodeHeader .systemEvent
  return { header, payload := .systemEvent { eventCode := ← readChar 11 } }

/-- `decode_stock_directory` -/
def decodeStockDirectory : Reads DecodedMessage := do
  let header ← decodeHeader .stockDirectory
  return { header, payload := .stockDirectory {
    stock := ← readChars 11 8
    marketCategory := ← readChar 19
    financialStatusIndicator := ← readChar 20
    roundLotSize := ← readU32Be 21
    roundLotsOnly := ← readChar 25
    issueClassification := ← readChar 26
    issueSubtype := ← readChars 27 2
    authenticity := ← readChar 29
    shortSaleThresholdIndicator := ← readChar 30
    ipoFlag := ← readChar 31
    luldReferencePriceTier := ← readChar 32
    etpFlag := ← readChar 33
    etpLeverageFactor := ← readU32Be 34
    inverseIndicator := ← readChar 38 } }

/-- `decode_add_order` -/
def decodeAddOrder (type : MessageType) : Reads DecodedMessage := do
  let header ← decodeHeader type
  return { header, payload := .addOrder {
    orderReferenceNumber := ← readU64Be 11
    buySellIndicator := ← readChar 19
    shares := ← readU32Be 20
    stock := ← readChars 24 8
    price := ← readU32Be 32
    attribution :=
      ← if type = .addOrderMPID then readChars 36 4 else pure (Vector.replicate 4 0) } }

/-- `decode_order_executed` -/
def decodeOrderExecuted : Reads DecodedMessage := do
  let header ← decodeHeader .orderExecuted
  return { header, payload := .orderExecuted {
    orderReferenceNumber := ← readU64Be 11
    executedShares := ← readU32Be 19
    matchNumber := ← readU64Be 23 } }

/-- `decode_order_executed_with_price` -/
def decodeOrderExecutedWithPrice : Reads DecodedMessage := do
  let header ← decodeHeader .orderExecutedWithPrice
  return { header, payload := .orderExecutedWithPrice {
    orderReferenceNumber := ← readU64Be 11
    executedShares := ← readU32Be 19
    matchNumber := ← readU64Be 23
    printable := ← readChar 31
    executionPrice := ← readU32Be 32 } }

/-- `decode_order_cancel` -/
def decodeOrderCancel : Reads DecodedMessage := do
  let header ← decodeHeader .orderCancel
  return { header, payload := .orderCancel {
    orderReferenceNumber := ← readU64Be 11
    cancelledShares := ← readU32Be 19 } }

/-- `decode_order_delete` -/
def decodeOrderDelete : Reads DecodedMessage := do
  let header ← decodeHeader .orderDelete
  return { header, payload := .orderDelete { orderReferenceNumber := ← readU64Be 11 } }

/-- `decode_order_replace` -/
def decodeOrderReplace : Reads DecodedMessage := do
  let header ← decodeHeader .orderReplace
  return { header, payload := .orderReplace {
    originalOrderReferenceNumber := ← readU64Be 11
    newOrderReferenceNumber := ← readU64Be 19
    shares := ← readU32Be 27
    price := ← readU32Be 31 } }

/-- `decode_trade` -/
def decodeTrade : Reads DecodedMessage := do
  let header ← decodeHeader .trade
  return { header, payload := .trade {
    orderReferenceNumber := ← readU64Be 11
    buySellIndicator := ← readChar 19
    shares := ← readU32Be 20
    stock := ← readChars 24 8
    price := ← readU32Be 32
    matchNumber := ← readU64Be 36 } }

/-- The switch of `decode`. -/
def decodeBody : MessageType → Reads DecodedMessage
  | .systemEvent => decodeSystemEvent
  | .stockDirectory => decodeStockDirectory
  | .addOrder => decodeAddOrder .addOrder
  | .addOrderMPID => decodeAddOrder .addOrderMPID
  | .orderExecuted => decodeOrderExecuted
  | .orderExecutedWithPrice => decodeOrderExecutedWithPrice
  | .orderCancel => decodeOrderCancel
  | .orderDelete => decodeOrderDelete
  | .orderReplace => decodeOrderReplace
  | .trade => decodeTrade

/-- `decode` of a string of `size` bytes. -/
def decode (size : ℕ) : Reads (Option DecodedMessage) :=
  if size = 0 then pure none
  else do
    let type := MessageType.ofByte (← readChar 0)
    let required := wireLength type
    if required = 0 ∨ size < required then return none
    match type with
    | some type => some <$> decodeBody type
    | none => return none

/-- The message that `decode` finds in a string. -/
def decodeMessage (raw : List Byte) : Option DecodedMessage := (decode raw.length raw).1

/-- The indices that `decode` reads at. -/
def bytesRead (raw : List Byte) : List ℕ := (decode raw.length raw).2

/-! ### What the fields are -/

section Fields

variable {raw : List Byte} {p : ℕ}

theorem slice_two (h : p + 2 ≤ raw.length) :
    slice raw p 2 = [raw.getD p default, raw.getD (p + 1) default] := by
  rw [slice_succ (by omega), slice_succ (by omega)]
  rfl

theorem slice_four (h : p + 4 ≤ raw.length) :
    slice raw p 4 = [raw.getD p default, raw.getD (p + 1) default, raw.getD (p + 2) default,
      raw.getD (p + 3) default] := by
  rw [slice_add raw p 2 2, slice_two (by omega), slice_two (by omega)]
  rfl

theorem slice_six (h : p + 6 ≤ raw.length) :
    slice raw p 6 = [raw.getD p default, raw.getD (p + 1) default, raw.getD (p + 2) default,
      raw.getD (p + 3) default, raw.getD (p + 4) default, raw.getD (p + 5) default] := by
  rw [slice_add raw p 4 2, slice_four (by omega), slice_two (by omega)]
  rfl

theorem slice_eight (h : p + 8 ≤ raw.length) :
    slice raw p 8 = [raw.getD p default, raw.getD (p + 1) default, raw.getD (p + 2) default,
      raw.getD (p + 3) default, raw.getD (p + 4) default, raw.getD (p + 5) default,
      raw.getD (p + 6) default, raw.getD (p + 7) default] := by
  rw [slice_add raw p 4 4, slice_four (by omega), slice_four (by omega)]
  rfl

theorem readU16Be_eq (h : p + 2 ≤ raw.length) :
    (readU16Be p raw).1 = UInt16.ofNat (bigEndian (slice raw p 2)) := by
  rw [slice_two h]
  exact or_shift_u16 _ _

theorem readU32Be_eq (h : p + 4 ≤ raw.length) :
    (readU32Be p raw).1 = UInt32.ofNat (bigEndian (slice raw p 4)) := by
  rw [slice_four h]
  exact or_shift_u32 _ _ _ _

theorem readU48Be_eq (h : p + 6 ≤ raw.length) :
    (readU48Be p raw).1 = UInt64.ofNat (bigEndian (slice raw p 6)) := by
  rw [slice_six h]
  exact or_shift_u48 _ _ _ _ _ _

theorem readU64Be_eq (h : p + 8 ≤ raw.length) :
    (readU64Be p raw).1 = UInt64.ofNat (bigEndian (slice raw p 8)) := by
  rw [slice_eight h]
  exact or_shift_u64 _ _ _ _ _ _ _ _

theorem readChar_eq (h : p + 1 ≤ raw.length) : [(readChar p raw).1] = slice raw p 1 := by
  rw [slice_succ (by omega)]
  rfl

theorem readChars_eq {n : ℕ} (h : p + n ≤ raw.length) :
    (readChars p n raw).1.toList = slice raw p n := by
  apply List.ext_getElem
  · rw [length_slice h, Vector.length_toList]
  · intro i hi hi'
    rw [Vector.length_toList] at hi
    have hlt : p + i < raw.length := by omega
    simp [readChars, readChar, byteAt, slice, List.getElem?_eq_getElem hlt]

end Fields
end Liquibook
