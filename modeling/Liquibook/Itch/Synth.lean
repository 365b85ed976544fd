import Liquibook.Itch.Wire

/-!
# Writing messages

The encoding half of `itch/synth.cpp`: a message is built by appending its fields to
a buffer one after the other, without any offsets.  The generator emits nine of the
ten message types; it never writes an execution with a price.

## Main definitions

* `appendU16`, `appendU32`, `appendU48`, `appendU64`, `appendChar`, `appendStrPadded`,
  `appendHeader` — the functions that append a field.
* `SynthMessage` — a message as the generator writes it, with the arguments of the
  `append_*` calls.
* `SynthMessage.bytes`, `SynthMessage.message` — its bytes, and what they decode to.

## Main results

* `SynthMessage.bytes_eq` — what is appended is the wire format.
* `decoding_loses_nothing` — **the fields tile the bytes, and what is written is read
  back.**
-/

namespace Liquibook

open Lib

/-- `append_u16` -/
def appendU16 (buf : List Byte) (v : UInt16) : List Byte :=
  buf ++ [((v >>> 8) &&& 0xFF).toUInt8] ++ [(v &&& 0xFF).toUInt8]

/-- `append_u32` -/
def appendU32 (buf : List Byte) (v : UInt32) : List Byte :=
  ([24, 16, 8, 0] : List UInt32).foldl
    (fun buf shift => buf ++ [((v >>> shift) &&& 0xFF).toUInt8]) buf

/-- `append_u48` -/
def appendU48 (buf : List Byte) (v : UInt64) : List Byte :=
  ([40, 32, 24, 16, 8, 0] : List UInt64).foldl
    (fun buf shift => buf ++ [((v >>> shift) &&& 0xFF).toUInt8]) buf

/-- `append_u64` -/
def appendU64 (buf : List Byte) (v : UInt64) : List Byte :=
  ([56, 48, 40, 32, 24, 16, 8, 0] : List UInt64).foldl
    (fun buf shift => buf ++ [((v >>> shift) &&& 0xFF).toUInt8]) buf

/-- `append_char` -/
def appendChar (buf : List Byte) (c : Byte) : List Byte := buf ++ [c]

/-- `append_str_padded`: the string, cut off or padded with blanks to the width. -/
def appendStrPadded (buf : List Byte) (s : List Byte) (width : ℕ) : List Byte :=
  (List.range width).foldl (fun buf i => buf ++ [if i < s.length then s.getD i default else 32]) buf

/-- `append_header` -/
def appendHeader (buf : List Byte) (type : Byte) (locate : StockLocate) (tracking : TrackingNumber)
    (ts : Timestamp) : List Byte :=
  appendU48 (appendU16 (appendU16 (appendChar buf type) locate) tracking) ts

/-- A message as the generator writes it. -/
inductive SynthMessage where
  | systemEvent (eventCode : Byte)
  | stockDirectory (stock : List Byte) (marketCategory financialStatusIndicator : Byte)
      (roundLotSize : UInt32) (roundLotsOnly issueClassification : Byte) (issueSubtype : List Byte)
      (authenticity shortSaleThresholdIndicator ipoFlag luldReferencePriceTier etpFlag : Byte)
      (etpLeverageFactor : UInt32) (inverseIndicator : Byte)
  | addOrder (ref : OrderRef) (side : Byte) (shares : Shares) (stock : List Byte) (price : Price4)
  | addOrderMPID (ref : OrderRef) (side : Byte) (shares : Shares) (stock : List Byte)
      (price : Price4) (attribution : List Byte)
  | orderExecuted (ref : OrderRef) (shares : Shares) (matchNumber : MatchNumber)
  | orderCancel (ref : OrderRef) (shares : Shares)
  | orderDelete (ref : OrderRef)
  | orderReplace (ref newRef : OrderRef) (shares : Shares) (price : Price4)
  | trade (ref : OrderRef) (side : Byte) (shares : Shares) (stock : List Byte) (price : Price4)
      (matchNumber : MatchNumber)
  deriving DecidableEq, Repr

namespace SynthMessage

def type : SynthMessage → MessageType
  | systemEvent .. => .systemEvent
  | stockDirectory .. => .stockDirectory
  | addOrder .. => .addOrder
  | addOrderMPID .. => .addOrderMPID
  | orderExecuted .. => .orderExecuted
  | orderCancel .. => .orderCancel
  | orderDelete .. => .orderDelete
  | orderReplace .. => .orderReplace
  | trade .. => .trade

/-- The `append_*` calls that follow the header. -/
def appendFields (buf : List Byte) : SynthMessage → List Byte
  | systemEvent eventCode => appendChar buf eventCode
  | stockDirectory stock marketCategory financialStatusIndicator roundLotSize roundLotsOnly
      issueClassification issueSubtype authenticity shortSaleThresholdIndicator ipoFlag
      luldReferencePriceTier etpFlag etpLeverageFactor inverseIndicator =>
      let msg := appendStrPadded buf stock 8
      let msg := appendChar msg marketCategory
      let msg := appendChar msg financialStatusIndicator
      let msg := appendU32 msg roundLotSize
      let msg := appendChar msg roundLotsOnly
      let msg := appendChar msg issueClassification
      let msg := appendStrPadded msg issueSubtype 2
      let msg := appendChar msg authenticity
      let msg := appendChar msg shortSaleThresholdIndicator
      let msg := appendChar msg ipoFlag
      let msg := appendChar msg luldReferencePriceTier
      let msg := appendChar msg etpFlag
      let msg := appendU32 msg etpLeverageFactor
      appendChar msg inverseIndicator
  | addOrder ref side shares stock price =>
      let msg := appendU64 buf ref
      let msg := appendChar msg side
      let msg := appendU32 msg shares
      let msg := appendStrPadded msg stock 8
      appendU32 msg price
  | addOrderMPID ref side shares stock price attribution =>
      let msg := appendU64 buf ref
      let msg := appendChar msg side
      let msg := appendU32 msg shares
      let msg := appendStrPadded msg stock 8
      let msg := appendU32 msg price
      appendStrPadded msg attribution 4
  | orderExecuted ref shares matchNumber =>
      let msg := appendU64 buf ref
      let msg := appendU32 msg shares
      appendU64 msg matchNumber
  | orderCancel ref shares =>
      let msg := appendU64 buf ref
      appendU32 msg shares
  | orderDelete ref => appendU64 buf ref
  | orderReplace ref newRef shares price =>
      let msg := appendU64 buf ref
      let msg := appendU64 msg newRef
      let msg := appendU32 msg shares
      appendU32 msg price
  | trade ref side shares stock price matchNumber =>
      let msg := appendU64 buf ref
      let msg := appendChar msg side
      let msg := appendU32 msg shares
      let msg := appendStrPadded msg stock 8
      let msg := appendU32 msg price
      appendU64 msg matchNumber

/-- The bytes of the message, with its header. -/
def bytes (m : SynthMessage) (locate : StockLocate) (tracking : TrackingNumber) (ts : Timestamp) :
    List Byte :=
  m.appendFields (appendHeader [] m.type.code locate tracking ts)

end SynthMessage

/-- A string, cut off or padded with blanks to the width. -/
def padded (s : List Byte) (width : ℕ) : Vector Byte width := Vector.ofFn fun i => s.getD i 32

namespace SynthMessage

/-- The fields that were written. -/
def payload : SynthMessage → Payload
  | systemEvent eventCode => .systemEvent { eventCode }
  | stockDirectory stock marketCategory financialStatusIndicator roundLotSize roundLotsOnly
      issueClassification issueSubtype authenticity shortSaleThresholdIndicator ipoFlag
      luldReferencePriceTier etpFlag etpLeverageFactor inverseIndicator =>
      .stockDirectory {
        stock := padded stock 8, marketCategory, financialStatusIndicator, roundLotSize,
        roundLotsOnly, issueClassification, issueSubtype := padded issueSubtype 2, authenticity,
        shortSaleThresholdIndicator, ipoFlag, luldReferencePriceTier, etpFlag, etpLeverageFactor,
        inverseIndicator }
  | addOrder ref side shares stock price =>
      .addOrder { orderReferenceNumber := ref, buySellIndicator := side, shares,
                  stock := padded stock 8, price, attribution := Vector.replicate 4 0 }
  | addOrderMPID ref side shares stock price attribution =>
      .addOrder { orderReferenceNumber := ref, buySellIndicator := side, shares,
                  stock := padded stock 8, price, attribution := padded attribution 4 }
  | orderExecuted ref shares matchNumber =>
      .orderExecuted { orderReferenceNumber := ref, executedShares := shares, matchNumber }
  | orderCancel ref shares =>
      .orderCancel { orderReferenceNumber := ref, cancelledShares := shares }
  | orderDelete ref => .orderDelete { orderReferenceNumber := ref }
  | orderReplace ref newRef shares price =>
      .orderReplace { originalOrderReferenceNumber := ref, newOrderReferenceNumber := newRef,
                      shares, price }
  | trade ref side shares stock price matchNumber =>
      .trade { orderReferenceNumber := ref, buySellIndicator := side, shares,
               stock := padded stock 8, price, matchNumber }

/-- The message that was written; the timestamp has 48 bits. -/
def message (m : SynthMessage) (locate : StockLocate) (tracking : TrackingNumber)
    (ts : Timestamp) : DecodedMessage where
  header := { type := m.type, stockLocate := locate, trackingNumber := tracking,
              timestamp := UInt64.ofNat (ts.toNat % 2 ^ 48) }
  payload := m.payload

end SynthMessage

/-! ### What is appended -/

/-- The byte that is cut out of a word by shifting and masking. -/
theorem and_255_mod (x : ℕ) : (x &&& 255) % 256 = x % 256 := by
  rw [show 255 = 2 ^ 8 - 1 from rfl, Nat.and_two_pow_sub_one_eq_mod, Nat.mod_mod]

theorem byte_of_u16 (v shift : UInt16) (h : shift.toNat < 16) :
    ((v >>> shift) &&& 0xFF).toUInt8 = UInt8.ofNat (v.toNat / 2 ^ shift.toNat) := by
  rw [← UInt8.toNat_inj]
  simp only [UInt16.toNat_toUInt8, UInt16.toNat_and, UInt16.toNat_shiftRight, UInt8.toNat_ofNat',
    UInt16.reduceToNat, Nat.mod_eq_of_lt h, Nat.shiftRight_eq_div_pow]
  exact and_255_mod _

theorem byte_of_u32 (v shift : UInt32) (h : shift.toNat < 32) :
    ((v >>> shift) &&& 0xFF).toUInt8 = UInt8.ofNat (v.toNat / 2 ^ shift.toNat) := by
  rw [← UInt8.toNat_inj]
  simp only [UInt32.toNat_toUInt8, UInt32.toNat_and, UInt32.toNat_shiftRight, UInt8.toNat_ofNat',
    UInt32.reduceToNat, Nat.mod_eq_of_lt h, Nat.shiftRight_eq_div_pow]
  exact and_255_mod _

theorem byte_of_u64 (v shift : UInt64) (h : shift.toNat < 64) :
    ((v >>> shift) &&& 0xFF).toUInt8 = UInt8.ofNat (v.toNat / 2 ^ shift.toNat) := by
  rw [← UInt8.toNat_inj]
  simp only [UInt64.toNat_toUInt8, UInt64.toNat_and, UInt64.toNat_shiftRight, UInt8.toNat_ofNat',
    UInt64.reduceToNat, Nat.mod_eq_of_lt h, Nat.shiftRight_eq_div_pow]
  exact and_255_mod _

section Append

variable (buf : List Byte)

theorem appendU16_eq (v : UInt16) : appendU16 buf v = buf ++ bytesOf 2 v.toNat := by
  have hlow : (v &&& 0xFF).toUInt8 = UInt8.ofNat v.toNat := by
    have := byte_of_u16 v 0 (by decide)
    simpa using this
  rw [appendU16, byte_of_u16 v 8 (by decide), hlow, List.append_assoc]
  rfl

theorem appendU32_eq (v : UInt32) : appendU32 buf v = buf ++ bytesOf 4 v.toNat := by
  simp only [appendU32, List.foldl]
  rw [byte_of_u32 v 24 (by decide), byte_of_u32 v 16 (by decide), byte_of_u32 v 8 (by decide),
    byte_of_u32 v 0 (by decide)]
  simp [bytesOf, Nat.div_div_eq_div_mul]

theorem appendU48_eq (v : UInt64) : appendU48 buf v = buf ++ bytesOf 6 v.toNat := by
  simp only [appendU48, List.foldl]
  rw [byte_of_u64 v 40 (by decide), byte_of_u64 v 32 (by decide), byte_of_u64 v 24 (by decide),
    byte_of_u64 v 16 (by decide), byte_of_u64 v 8 (by decide), byte_of_u64 v 0 (by decide)]
  simp [bytesOf, Nat.div_div_eq_div_mul]

theorem appendU64_eq (v : UInt64) : appendU64 buf v = buf ++ bytesOf 8 v.toNat := by
  simp only [appendU64, List.foldl]
  rw [byte_of_u64 v 56 (by decide), byte_of_u64 v 48 (by decide), byte_of_u64 v 40 (by decide),
    byte_of_u64 v 32 (by decide), byte_of_u64 v 24 (by decide), byte_of_u64 v 16 (by decide),
    byte_of_u64 v 8 (by decide), byte_of_u64 v 0 (by decide)]
  simp [bytesOf, Nat.div_div_eq_div_mul]

theorem appendStrPadded_eq (s : List Byte) (width : ℕ) :
    appendStrPadded buf s width = buf ++ (padded s width).toList := by
  have hfold : ∀ (is : List ℕ) (buf : List Byte) (f : ℕ → Byte),
      is.foldl (fun buf i => buf ++ [f i]) buf = buf ++ is.map f := by
    intro is
    induction is with
    | nil => simp
    | cons i is ih =>
      intro buf f
      rw [List.foldl_cons, ih]
      simp
  rw [appendStrPadded, hfold]
  congr 1
  apply List.ext_getElem
  · simp
  · intro i hi hi'
    have hget : s.getD i 32 = if i < s.length then s.getD i default else 32 := by
      split
      · next h => rw [List.getD_eq_getElem _ _ h, List.getD_eq_getElem _ _ h]
      · next h => exact List.getD_eq_default _ _ (by omega)
    simp only [padded, List.getElem_map, List.getElem_range, Vector.getElem_toList,
      Vector.getElem_ofFn]
    exact hget.symm

theorem toNat_timestamp (ts : Timestamp) :
    (UInt64.ofNat (ts.toNat % 2 ^ 48)).toNat = ts.toNat % 2 ^ 48 :=
  UInt64.toNat_ofNat_of_lt' (show _ < 2 ^ 64 by omega)

theorem appendHeader_eq (type : MessageType) (locate : StockLocate) (tracking : TrackingNumber)
    (ts : Timestamp) : appendHeader buf type.code locate tracking ts =
      buf ++ headerBytes { type := type, stockLocate := locate, trackingNumber := tracking,
                           timestamp := UInt64.ofNat (ts.toNat % 2 ^ 48) } := by
  -- the cut does not show in the six bytes that are written
  have hcut : bytesOf 6 (UInt64.ofNat (ts.toNat % 2 ^ 48)).toNat = bytesOf 6 ts.toNat := by
    rw [toNat_timestamp]
    exact bytesOf_mod 6 ts.toNat
  rw [appendHeader, appendU48_eq, appendU16_eq, appendU16_eq, appendChar, headerBytes, hcut]
  simp only [List.append_assoc]

end Append

/-! ### What is read back -/

namespace SynthMessage

theorem appendFields_eq (buf : List Byte) (m : SynthMessage) :
    m.appendFields buf = buf ++ payloadBytes m.type m.payload := by
  cases m <;>
    simp [appendFields, payload, payloadBytes, type, appendU32_eq, appendU64_eq, appendChar,
      appendStrPadded_eq]

/-- **What is appended is the wire format.** -/
theorem bytes_eq (m : SynthMessage) (locate : StockLocate) (tracking : TrackingNumber)
    (ts : Timestamp) : m.bytes locate tracking ts = wireBytes (m.message locate tracking ts) := by
  rw [bytes, appendFields_eq, appendHeader_eq]
  rfl

theorem message_wellFormed (m : SynthMessage) (locate : StockLocate) (tracking : TrackingNumber)
    (ts : Timestamp) : (m.message locate tracking ts).WellFormed where
  member := by cases m <;> rfl
  timestamp := by
    change (UInt64.ofNat (ts.toNat % 2 ^ 48)).toNat < 2 ^ 48
    rw [toNat_timestamp]
    omega
  attributed := by
    cases m with
    | addOrder ref side shares stock price => exact fun _ => rfl
    | addOrderMPID ref side shares stock price attribution => exact fun h => absurd rfl h
    | _ => trivial

theorem length_bytes (m : SynthMessage) (locate : StockLocate) (tracking : TrackingNumber)
    (ts : Timestamp) : (m.bytes locate tracking ts).length = wireLength (some m.type) := by
  rw [bytes_eq, (m.message_wellFormed locate tracking ts).length_wireBytes]
  rfl

theorem decodeMessage_bytes (m : SynthMessage) (locate : StockLocate) (tracking : TrackingNumber)
    (ts : Timestamp) :
    decodeMessage (m.bytes locate tracking ts) = some (m.message locate tracking ts) := by
  have := decodeMessage_wireBytes (m.message_wellFormed locate tracking ts) []
  rwa [List.append_nil, ← bytes_eq] at this

end SynthMessage

/-- **Decoding loses nothing**: two accepted strings that decode to the same message
agree on all its bytes, and the bytes of a message that the generator writes are as
many as its type says and decode to the fields that were written. -/
theorem decoding_loses_nothing :
    (∀ (raw raw' : List Byte) (msg : DecodedMessage),
      decodeMessage raw = some msg → decodeMessage raw' = some msg →
        raw.take (wireLength (some msg.header.type)) =
          raw'.take (wireLength (some msg.header.type))) ∧
    (∀ (m : SynthMessage) (locate : StockLocate) (tracking : TrackingNumber) (ts : Timestamp),
      (m.bytes locate tracking ts).length = wireLength (some m.type) ∧
        decodeMessage (m.bytes locate tracking ts) = some (m.message locate tracking ts)) := by
  refine ⟨fun raw raw' msg h h' => decoding_injective h h', fun m locate tracking ts => ?_⟩
  exact ⟨m.length_bytes locate tracking ts, m.decodeMessage_bytes locate tracking ts⟩

end Liquibook
