import Liquibook.Itch.Decode

/-!
# The wire format

What the bytes of a message are, said once for all fields: the code of the type, the
other fields of the header, and then the fields of the payload, one behind the other
without a gap.  The decoder reads at absolute offsets, and this is where the two are
compared.

A decoded message is well formed: its payload is the one of its type, its timestamp
has 48 bits, and a plain add order has no attribution.  The bytes of a well-formed
message decode to it, and every message that is accepted starts with the bytes of
what it decodes to.  So decoding neither loses nor invents anything.

## Main definitions

* `wireBytes msg` — the bytes of a message.
* `DecodedMessage.WellFormed` — what can be said of every decoded message.

## Main results

* `decodeMessage_eq_some` — **what an accepted string starts with.**
* `decodeMessage_wireBytes` — **the bytes of a message decode to it.**
* `decoding_injective` — **decoding loses nothing.**
-/

namespace Liquibook

open Lib

/-- The bytes of a header. -/
def headerBytes (h : MessageHeader) : List Byte :=
  [h.type.code] ++ bytesOf 2 h.stockLocate.toNat ++ bytesOf 2 h.trackingNumber.toNat ++
    bytesOf 6 h.timestamp.toNat

/-- The bytes of a payload, in a message of the type. -/
def payloadBytes (type : MessageType) : Payload → List Byte
  | .systemEvent p => [p.eventCode]
  | .stockDirectory p =>
      p.stock.toList ++ [p.marketCategory] ++ [p.financialStatusIndicator] ++
        bytesOf 4 p.roundLotSize.toNat ++ [p.roundLotsOnly] ++ [p.issueClassification] ++
        p.issueSubtype.toList ++ [p.authenticity] ++ [p.shortSaleThresholdIndicator] ++
        [p.ipoFlag] ++ [p.luldReferencePriceTier] ++ [p.etpFlag] ++
        bytesOf 4 p.etpLeverageFactor.toNat ++ [p.inverseIndicator]
  | .addOrder p =>
      bytesOf 8 p.orderReferenceNumber.toNat ++ [p.buySellIndicator] ++
        bytesOf 4 p.shares.toNat ++ p.stock.toList ++ bytesOf 4 p.price.toNat ++
        if type = .addOrderMPID then p.attribution.toList else []
  | .orderExecuted p =>
      bytesOf 8 p.orderReferenceNumber.toNat ++ bytesOf 4 p.executedShares.toNat ++
        bytesOf 8 p.matchNumber.toNat
  | .orderExecutedWithPrice p =>
      bytesOf 8 p.orderReferenceNumber.toNat ++ bytesOf 4 p.executedShares.toNat ++
        bytesOf 8 p.matchNumber.toNat ++ [p.printable] ++ bytesOf 4 p.executionPrice.toNat
  | .orderCancel p =>
      bytesOf 8 p.orderReferenceNumber.toNat ++ bytesOf 4 p.cancelledShares.toNat
  | .orderDelete p => bytesOf 8 p.orderReferenceNumber.toNat
  | .orderReplace p =>
      bytesOf 8 p.originalOrderReferenceNumber.toNat ++ bytesOf 8 p.newOrderReferenceNumber.toNat ++
        bytesOf 4 p.shares.toNat ++ bytesOf 4 p.price.toNat
  | .trade p =>
      bytesOf 8 p.orderReferenceNumber.toNat ++ [p.buySellIndicator] ++
        bytesOf 4 p.shares.toNat ++ p.stock.toList ++ bytesOf 4 p.price.toNat ++
        bytesOf 8 p.matchNumber.toNat

/-- The bytes of a message. -/
def wireBytes (msg : DecodedMessage) : List Byte :=
  headerBytes msg.header ++ payloadBytes msg.header.type msg.payload

/-- The attribution is that of a message of the type: only an `'F'` message has one. -/
def Payload.attributed (type : MessageType) : Payload → Prop
  | .addOrder p => type ≠ .addOrderMPID → p.attribution = Vector.replicate 4 0
  | _ => True

/-- What can be said of every decoded message. -/
structure DecodedMessage.WellFormed (msg : DecodedMessage) : Prop where
  member : msg.payload.belongsTo msg.header.type = true
  timestamp : msg.header.timestamp.toNat < 2 ^ 48
  attributed : msg.payload.attributed msg.header.type

/-! ### Slices put together -/

section Fields

variable {raw : List Byte} {p : ℕ}

/-- Adjacent slices make one slice, with the second offset as it is written. -/
theorem slice_join {off off' m n : ℕ} (h : off' = off + m) :
    slice raw off m ++ slice raw off' n = slice raw off (m + n) := by
  rw [h, slice_add]

theorem bytesOf_slice {n : ℕ} (h : p + n ≤ raw.length) :
    bytesOf n (bigEndian (slice raw p n)) = slice raw p n := by
  have := bytesOf_bigEndian (slice raw p n)
  rwa [length_slice h] at this

theorem bigEndian_slice_lt {n : ℕ} (h : p + n ≤ raw.length) :
    bigEndian (slice raw p n) < 256 ^ n := by
  have := bigEndian_lt (slice raw p n)
  rwa [length_slice h] at this

theorem bytesOf_readU16Be (h : p + 2 ≤ raw.length) :
    bytesOf 2 (readU16Be p raw).1.toNat = slice raw p 2 := by
  have hlt : bigEndian (slice raw p 2) < 2 ^ 16 := bigEndian_slice_lt h
  rw [readU16Be_eq h, UInt16.toNat_ofNat_of_lt' hlt, bytesOf_slice h]

theorem bytesOf_readU32Be (h : p + 4 ≤ raw.length) :
    bytesOf 4 (readU32Be p raw).1.toNat = slice raw p 4 := by
  have hlt : bigEndian (slice raw p 4) < 2 ^ 32 := bigEndian_slice_lt h
  rw [readU32Be_eq h, UInt32.toNat_ofNat_of_lt' hlt, bytesOf_slice h]

theorem toNat_readU48Be (h : p + 6 ≤ raw.length) :
    (readU48Be p raw).1.toNat = bigEndian (slice raw p 6) := by
  have hlt : bigEndian (slice raw p 6) < 2 ^ 48 := bigEndian_slice_lt h
  rw [readU48Be_eq h, UInt64.toNat_ofNat_of_lt' (show _ < 2 ^ 64 by omega)]

theorem bytesOf_readU48Be (h : p + 6 ≤ raw.length) :
    bytesOf 6 (readU48Be p raw).1.toNat = slice raw p 6 := by
  rw [toNat_readU48Be h, bytesOf_slice h]

theorem bytesOf_readU64Be (h : p + 8 ≤ raw.length) :
    bytesOf 8 (readU64Be p raw).1.toNat = slice raw p 8 := by
  have hlt : bigEndian (slice raw p 8) < 2 ^ 64 := bigEndian_slice_lt h
  rw [readU64Be_eq h, UInt64.toNat_ofNat_of_lt' hlt, bytesOf_slice h]

/-- The bytes of the header that is read. -/
theorem headerBytes_decodeHeader {type : MessageType} (h : 11 ≤ raw.length)
    (htype : [type.code] = slice raw 0 1) :
    headerBytes (decodeHeader type raw).1 = slice raw 0 11 := by
  change [type.code] ++ bytesOf 2 (readU16Be 1 raw).1.toNat ++
    bytesOf 2 (readU16Be 3 raw).1.toNat ++ bytesOf 6 (readU48Be 5 raw).1.toNat = _
  rw [htype, bytesOf_readU16Be (by omega), bytesOf_readU16Be (by omega),
    bytesOf_readU48Be (by omega), slice_join rfl, slice_join rfl, slice_join rfl]

end Fields

/-! ### What an accepted string starts with -/

section Accepted

variable {raw : List Byte} {type : MessageType}

theorem wireLength_ge (type : MessageType) : 12 ≤ wireLength (some type) := by
  cases type <;> decide

/-- The header of what the switch returns. -/
theorem decodeBody_header (raw : List Byte) (type : MessageType) :
    (decodeBody type raw).1.header = (decodeHeader type raw).1 := by
  cases type <;> rfl

/-- The switch writes the member of the type. -/
theorem decodeBody_wellFormed (h : wireLength (some type) ≤ raw.length) :
    (decodeBody type raw).1.WellFormed where
  member := by cases type <;> rfl
  timestamp := by
    have hge := wireLength_ge type
    rw [decodeBody_header]
    change (readU48Be 5 raw).1.toNat < 2 ^ 48
    rw [toNat_readU48Be (by omega)]
    exact bigEndian_slice_lt (by omega)
  attributed := by
    cases type with
    | addOrder => exact fun _ => rfl
    | addOrderMPID => exact fun hne => absurd rfl hne
    | _ => trivial

/-! The fields of every message tile its bytes. -/

theorem payloadBytes_systemEvent (h : 12 ≤ raw.length) :
    payloadBytes .systemEvent (decodeSystemEvent raw).1.payload = slice raw 11 1 := by
  exact readChar_eq h

theorem payloadBytes_stockDirectory (h : 39 ≤ raw.length) :
    payloadBytes .stockDirectory (decodeStockDirectory raw).1.payload = slice raw 11 28 := by
  change (readChars 11 8 raw).1.toList ++ [(readChar 19 raw).1] ++ [(readChar 20 raw).1] ++
    bytesOf 4 (readU32Be 21 raw).1.toNat ++ [(readChar 25 raw).1] ++ [(readChar 26 raw).1] ++
    (readChars 27 2 raw).1.toList ++ [(readChar 29 raw).1] ++ [(readChar 30 raw).1] ++
    [(readChar 31 raw).1] ++ [(readChar 32 raw).1] ++ [(readChar 33 raw).1] ++
    bytesOf 4 (readU32Be 34 raw).1.toNat ++ [(readChar 38 raw).1] = slice raw 11 28
  rw [readChars_eq (by omega), readChar_eq (by omega), readChar_eq (by omega),
    bytesOf_readU32Be (by omega), readChar_eq (by omega), readChar_eq (by omega),
    readChars_eq (by omega), readChar_eq (by omega), readChar_eq (by omega),
    readChar_eq (by omega), readChar_eq (by omega), readChar_eq (by omega),
    bytesOf_readU32Be (by omega), readChar_eq (by omega)]
  simp only [slice_join]

theorem payloadBytes_addOrder (h : 36 ≤ raw.length) :
    payloadBytes .addOrder (decodeAddOrder .addOrder raw).1.payload = slice raw 11 25 := by
  change bytesOf 8 (readU64Be 11 raw).1.toNat ++ [(readChar 19 raw).1] ++
    bytesOf 4 (readU32Be 20 raw).1.toNat ++ (readChars 24 8 raw).1.toList ++
    bytesOf 4 (readU32Be 32 raw).1.toNat ++ [] = slice raw 11 25
  rw [bytesOf_readU64Be (by omega), readChar_eq (by omega), bytesOf_readU32Be (by omega),
    readChars_eq (by omega), bytesOf_readU32Be (by omega), List.append_nil]
  simp only [slice_join]

theorem payloadBytes_addOrderMPID (h : 40 ≤ raw.length) :
    payloadBytes .addOrderMPID (decodeAddOrder .addOrderMPID raw).1.payload = slice raw 11 29 := by
  change bytesOf 8 (readU64Be 11 raw).1.toNat ++ [(readChar 19 raw).1] ++
    bytesOf 4 (readU32Be 20 raw).1.toNat ++ (readChars 24 8 raw).1.toList ++
    bytesOf 4 (readU32Be 32 raw).1.toNat ++ (readChars 36 4 raw).1.toList = slice raw 11 29
  rw [bytesOf_readU64Be (by omega), readChar_eq (by omega), bytesOf_readU32Be (by omega),
    readChars_eq (by omega), bytesOf_readU32Be (by omega), readChars_eq (by omega)]
  simp only [slice_join]

theorem payloadBytes_orderExecuted (h : 31 ≤ raw.length) :
    payloadBytes .orderExecuted (decodeOrderExecuted raw).1.payload = slice raw 11 20 := by
  change bytesOf 8 (readU64Be 11 raw).1.toNat ++ bytesOf 4 (readU32Be 19 raw).1.toNat ++
    bytesOf 8 (readU64Be 23 raw).1.toNat = slice raw 11 20
  rw [bytesOf_readU64Be (by omega), bytesOf_readU32Be (by omega), bytesOf_readU64Be (by omega)]
  simp only [slice_join]

theorem payloadBytes_orderExecutedWithPrice (h : 36 ≤ raw.length) :
    payloadBytes .orderExecutedWithPrice (decodeOrderExecutedWithPrice raw).1.payload =
      slice raw 11 25 := by
  change bytesOf 8 (readU64Be 11 raw).1.toNat ++ bytesOf 4 (readU32Be 19 raw).1.toNat ++
    bytesOf 8 (readU64Be 23 raw).1.toNat ++ [(readChar 31 raw).1] ++
    bytesOf 4 (readU32Be 32 raw).1.toNat = slice raw 11 25
  rw [bytesOf_readU64Be (by omega), bytesOf_readU32Be (by omega), bytesOf_readU64Be (by omega),
    readChar_eq (by omega), bytesOf_readU32Be (by omega)]
  simp only [slice_join]

theorem payloadBytes_orderCancel (h : 23 ≤ raw.length) :
    payloadBytes .orderCancel (decodeOrderCancel raw).1.payload = slice raw 11 12 := by
  change bytesOf 8 (readU64Be 11 raw).1.toNat ++ bytesOf 4 (readU32Be 19 raw).1.toNat =
    slice raw 11 12
  rw [bytesOf_readU64Be (by omega), bytesOf_readU32Be (by omega)]
  simp only [slice_join]

theorem payloadBytes_orderDelete (h : 19 ≤ raw.length) :
    payloadBytes .orderDelete (decodeOrderDelete raw).1.payload = slice raw 11 8 := by
  change bytesOf 8 (readU64Be 11 raw).1.toNat = slice raw 11 8
  exact bytesOf_readU64Be (by omega)

theorem payloadBytes_orderReplace (h : 35 ≤ raw.length) :
    payloadBytes .orderReplace (decodeOrderReplace raw).1.payload = slice raw 11 24 := by
  change bytesOf 8 (readU64Be 11 raw).1.toNat ++ bytesOf 8 (readU64Be 19 raw).1.toNat ++
    bytesOf 4 (readU32Be 27 raw).1.toNat ++ bytesOf 4 (readU32Be 31 raw).1.toNat =
    slice raw 11 24
  rw [bytesOf_readU64Be (by omega), bytesOf_readU64Be (by omega), bytesOf_readU32Be (by omega),
    bytesOf_readU32Be (by omega)]
  simp only [slice_join]

theorem payloadBytes_trade (h : 44 ≤ raw.length) :
    payloadBytes .trade (decodeTrade raw).1.payload = slice raw 11 33 := by
  change bytesOf 8 (readU64Be 11 raw).1.toNat ++ [(readChar 19 raw).1] ++
    bytesOf 4 (readU32Be 20 raw).1.toNat ++ (readChars 24 8 raw).1.toList ++
    bytesOf 4 (readU32Be 32 raw).1.toNat ++ bytesOf 8 (readU64Be 36 raw).1.toNat =
    slice raw 11 33
  rw [bytesOf_readU64Be (by omega), readChar_eq (by omega), bytesOf_readU32Be (by omega),
    readChars_eq (by omega), bytesOf_readU32Be (by omega), bytesOf_readU64Be (by omega)]
  simp only [slice_join]

/-- **The fields of a message tile its bytes.** -/
theorem payloadBytes_decodeBody (h : wireLength (some type) ≤ raw.length) :
    payloadBytes type (decodeBody type raw).1.payload =
      slice raw 11 (wireLength (some type) - 11) := by
  cases type with
  | systemEvent => exact payloadBytes_systemEvent h
  | stockDirectory => exact payloadBytes_stockDirectory h
  | addOrder => exact payloadBytes_addOrder h
  | addOrderMPID => exact payloadBytes_addOrderMPID h
  | orderExecuted => exact payloadBytes_orderExecuted h
  | orderExecutedWithPrice => exact payloadBytes_orderExecutedWithPrice h
  | orderCancel => exact payloadBytes_orderCancel h
  | orderDelete => exact payloadBytes_orderDelete h
  | orderReplace => exact payloadBytes_orderReplace h
  | trade => exact payloadBytes_trade h

/-- What `decode` does, by cases on the first byte. -/
theorem decode_cons (c : Byte) (rest : List Byte) : decode (c :: rest).length (c :: rest) =
    match MessageType.ofByte c with
    | none => (none, [0])
    | some type =>
        if (c :: rest).length < wireLength (some type) then (none, [0])
        else (some (decodeBody type (c :: rest)).1, 0 :: (decodeBody type (c :: rest)).2) := by
  have hread : readChar 0 (c :: rest) = (c, [0]) := rfl
  rw [decode, if_neg (by simp)]
  rw [Reads.bind_apply, hread]
  dsimp only
  cases htype : MessageType.ofByte c with
  | none => rfl
  | some type =>
    have hge := wireLength_ge type
    by_cases hlen : (c :: rest).length < wireLength (some type)
    · rw [if_pos (Or.inr hlen)]
      dsimp only
      rw [if_pos hlen]
      rfl
    · have hcond : ¬ (wireLength (some type) = 0 ∨ (c :: rest).length < wireLength (some type)) := by
        omega
      rw [if_neg hcond]
      dsimp only
      rw [if_neg hlen, Reads.map_apply]
      rfl

/-- **What a string decodes to**: it has the code of a supported type and is long
enough for it, and then it is the message of the switch. -/
theorem decodeMessage_eq_some_iff {msg : DecodedMessage} : decodeMessage raw = some msg ↔
    ∃ type, slice raw 0 1 = [type.code] ∧ wireLength (some type) ≤ raw.length ∧
      (decodeBody type raw).1 = msg := by
  cases raw with
  | nil =>
    refine ⟨fun h => ?_, fun h => ?_⟩
    · cases h
    · obtain ⟨type, h, -⟩ := h
      cases h
  | cons c rest =>
    rw [decodeMessage, decode_cons]
    have hslice : slice (c :: rest) 0 1 = [c] := rfl
    rw [hslice]
    cases htype : MessageType.ofByte c with
    | none =>
      refine ⟨fun h => (by cases h), ?_⟩
      rintro ⟨type, hc, -⟩
      rw [List.singleton_inj.mp hc, MessageType.ofByte_code] at htype
      cases htype
    | some type =>
      have hc := MessageType.ofByte_eq_some_iff.mp htype
      constructor
      · intro h
        dsimp only at h
        split at h
        · cases h
        · next hlen => exact ⟨type, by rw [hc], by omega, Option.some.inj h⟩
      · rintro ⟨type', hc', hlen, rfl⟩
        rw [List.singleton_inj.mp hc', MessageType.ofByte_code, Option.some.injEq] at htype
        subst htype
        dsimp only
        rw [if_neg (by omega)]

/-- **What an accepted string starts with**: the bytes of the message it decodes to. -/
theorem decodeMessage_eq_some {msg : DecodedMessage} (h : decodeMessage raw = some msg) :
    msg.WellFormed ∧ wireLength (some msg.header.type) ≤ raw.length ∧
      wireBytes msg = raw.take (wireLength (some msg.header.type)) := by
  obtain ⟨type, hcode, hlen, rfl⟩ := decodeMessage_eq_some_iff.mp h
  have htype : (decodeBody type raw).1.header.type = type := by
    rw [decodeBody_header]
    rfl
  have hge := wireLength_ge type
  refine ⟨decodeBody_wellFormed hlen, by rwa [htype], ?_⟩
  rw [wireBytes, htype, payloadBytes_decodeBody hlen, decodeBody_header,
    headerBytes_decodeHeader (by omega) hcode.symm, slice_join rfl, Nat.add_sub_cancel' (by omega),
    slice_zero_eq_take]

/-- **Decoding loses nothing**: two accepted strings of a type that decode to the same
message agree on all bytes of the message. -/
theorem decoding_injective {raw' : List Byte} {msg : DecodedMessage}
    (h : decodeMessage raw = some msg) (h' : decodeMessage raw' = some msg) :
    raw.take (wireLength (some msg.header.type)) =
      raw'.take (wireLength (some msg.header.type)) := by
  rw [← (decodeMessage_eq_some h).2.2, ← (decodeMessage_eq_some h').2.2]

end Accepted

/-! ### The bytes of a message decode to it -/

theorem length_headerBytes (h : MessageHeader) : (headerBytes h).length = 11 := by
  simp [headerBytes]

/-- A well-formed message has as many bytes as its type says. -/
theorem DecodedMessage.WellFormed.length_wireBytes {msg : DecodedMessage} (h : msg.WellFormed) :
    (wireBytes msg).length = wireLength (some msg.header.type) := by
  obtain ⟨header, payload⟩ := msg
  have hmember := h.member
  rw [wireBytes, List.length_append, length_headerBytes]
  dsimp only at hmember ⊢
  cases payload with
  | addOrder p =>
    simp only [Payload.belongsTo, Bool.or_eq_true, beq_iff_eq] at hmember
    rcases hmember with htype | htype
    · simp [htype, payloadBytes, wireLength]
    · simp [htype, payloadBytes, wireLength]
  | _ =>
    simp only [Payload.belongsTo, beq_iff_eq] at hmember
    simp [hmember, payloadBytes, wireLength]

section Injective

variable {xs ys : List Byte}

theorem bytesOf_append_inj {n v v' : ℕ} (hv : v < 256 ^ n) (hv' : v' < 256 ^ n) :
    bytesOf n v ++ xs = bytesOf n v' ++ ys ↔ v = v' ∧ xs = ys := by
  constructor
  · intro h
    obtain ⟨h1, h2⟩ := List.append_inj h (by simp)
    have := congrArg bigEndian h1
    rw [bigEndian_bytesOf, bigEndian_bytesOf, Nat.mod_eq_of_lt hv, Nat.mod_eq_of_lt hv'] at this
    exact ⟨this, h2⟩
  · rintro ⟨rfl, rfl⟩
    rfl

@[simp] theorem u16_append_inj {v v' : UInt16} :
    bytesOf 2 v.toNat ++ xs = bytesOf 2 v'.toNat ++ ys ↔ v = v' ∧ xs = ys := by
  rw [bytesOf_append_inj v.toNat_lt v'.toNat_lt, UInt16.toNat_inj]

@[simp] theorem u32_append_inj {v v' : UInt32} :
    bytesOf 4 v.toNat ++ xs = bytesOf 4 v'.toNat ++ ys ↔ v = v' ∧ xs = ys := by
  rw [bytesOf_append_inj v.toNat_lt v'.toNat_lt, UInt32.toNat_inj]

@[simp] theorem u64_append_inj {v v' : UInt64} :
    bytesOf 8 v.toNat ++ xs = bytesOf 8 v'.toNat ++ ys ↔ v = v' ∧ xs = ys := by
  rw [bytesOf_append_inj v.toNat_lt v'.toNat_lt, UInt64.toNat_inj]

@[simp] theorem vector_append_inj {n : ℕ} {v v' : Vector Byte n} :
    v.toList ++ xs = v'.toList ++ ys ↔ v = v' ∧ xs = ys := by
  constructor
  · intro h
    obtain ⟨h1, h2⟩ := List.append_inj h (by simp)
    exact ⟨Vector.toList_inj.mp h1, h2⟩
  · rintro ⟨rfl, rfl⟩
    rfl

@[simp] theorem u32_bytes_inj {v v' : UInt32} :
    bytesOf 4 v.toNat = bytesOf 4 v'.toNat ↔ v = v' := by
  simpa using @u32_append_inj [] [] v v'

@[simp] theorem u64_bytes_inj {v v' : UInt64} :
    bytesOf 8 v.toNat = bytesOf 8 v'.toNat ↔ v = v' := by
  simpa using @u64_append_inj [] [] v v'

end Injective

theorem MessageType.code_injective {t t' : MessageType} (h : t.code = t'.code) : t = t' := by
  have := congrArg MessageType.ofByte h
  rw [MessageType.ofByte_code, MessageType.ofByte_code] at this
  exact Option.some.inj this

/-- The header can be read off the bytes. -/
theorem headerBytes_append_inj {h h' : MessageHeader} {xs ys : List Byte}
    (ht : h.timestamp.toNat < 2 ^ 48) (ht' : h'.timestamp.toNat < 2 ^ 48) :
    headerBytes h ++ xs = headerBytes h' ++ ys ↔ h = h' ∧ xs = ys := by
  obtain ⟨type, locate, tracking, ts⟩ := h
  obtain ⟨type', locate', tracking', ts'⟩ := h'
  constructor
  · intro he
    simp only [headerBytes, List.append_assoc, List.cons_append, List.nil_append,
      List.cons.injEq, u16_append_inj] at he
    obtain ⟨hcode, rfl, rfl, he⟩ := he
    obtain ⟨hts, rfl⟩ := (bytesOf_append_inj ht ht').mp he
    rw [MessageType.code_injective hcode, UInt64.toNat_inj.mp hts]
    exact ⟨rfl, rfl⟩
  · rintro ⟨he, rfl⟩
    rw [he]

/-- The payload can be read off the bytes, given the type. -/
theorem payloadBytes_injective {type : MessageType} {p q : Payload}
    (hp : p.belongsTo type = true) (hq : q.belongsTo type = true) (hpa : p.attributed type)
    (hqa : q.attributed type) (h : payloadBytes type p = payloadBytes type q) : p = q := by
  cases p with
  | addOrder a =>
    obtain ⟨ref, side, shares, stock, price, attribution⟩ := a
    cases q with
    | addOrder b =>
      obtain ⟨ref', side', shares', stock', price', attribution'⟩ := b
      by_cases htype : type = .addOrderMPID
      · simpa [payloadBytes, htype, Vector.toList_inj] using h
      · have hattr : attribution = attribution' := (hpa htype).trans (hqa htype).symm
        simpa [payloadBytes, htype, hattr] using h
    | _ => cases type <;> simp [Payload.belongsTo] at hp hq
  | systemEvent a =>
    cases a
    cases q with
    | systemEvent b =>
      cases b
      simpa [payloadBytes] using h
    | _ => cases type <;> simp [Payload.belongsTo] at hp hq
  | stockDirectory a =>
    cases a
    cases q with
    | stockDirectory b =>
      cases b
      simpa [payloadBytes] using h
    | _ => cases type <;> simp [Payload.belongsTo] at hp hq
  | orderExecuted a =>
    cases a
    cases q with
    | orderExecuted b =>
      cases b
      simpa [payloadBytes] using h
    | _ => cases type <;> simp [Payload.belongsTo] at hp hq
  | orderExecutedWithPrice a =>
    cases a
    cases q with
    | orderExecutedWithPrice b =>
      cases b
      simpa [payloadBytes] using h
    | _ => cases type <;> simp [Payload.belongsTo] at hp hq
  | orderCancel a =>
    cases a
    cases q with
    | orderCancel b =>
      cases b
      simpa [payloadBytes] using h
    | _ => cases type <;> simp [Payload.belongsTo] at hp hq
  | orderDelete a =>
    cases a
    cases q with
    | orderDelete b =>
      cases b
      simpa [payloadBytes] using h
    | _ => cases type <;> simp [Payload.belongsTo] at hp hq
  | orderReplace a =>
    cases a
    cases q with
    | orderReplace b =>
      cases b
      simpa [payloadBytes] using h
    | _ => cases type <;> simp [Payload.belongsTo] at hp hq
  | trade a =>
    cases a
    cases q with
    | trade b =>
      cases b
      simpa [payloadBytes] using h
    | _ => cases type <;> simp [Payload.belongsTo] at hp hq

theorem wireBytes_injective {msg msg' : DecodedMessage} (h : msg.WellFormed)
    (h' : msg'.WellFormed) (he : wireBytes msg = wireBytes msg') : msg = msg' := by
  obtain ⟨header, payload⟩ := msg
  obtain ⟨header', payload'⟩ := msg'
  obtain ⟨hheader, hpayload⟩ := (headerBytes_append_inj h.timestamp h'.timestamp).mp he
  dsimp only at hheader hpayload
  subst hheader
  apply congrArg (DecodedMessage.mk header)
  exact payloadBytes_injective h.member h'.member h.attributed h'.attributed hpayload

/-- **The bytes of a message decode to it**, whatever follows them. -/
theorem decodeMessage_wireBytes {msg : DecodedMessage} (h : msg.WellFormed) (rest : List Byte) :
    decodeMessage (wireBytes msg ++ rest) = some msg := by
  have hlen := h.length_wireBytes
  have hle : wireLength (some msg.header.type) ≤ (wireBytes msg ++ rest).length := by
    rw [List.length_append]
    omega
  obtain ⟨msg', hmsg⟩ : ∃ msg', decodeMessage (wireBytes msg ++ rest) = some msg' :=
    ⟨_, decodeMessage_eq_some_iff.mpr ⟨msg.header.type, rfl, hle, rfl⟩⟩
  have htype : msg'.header.type = msg.header.type := by
    obtain ⟨type, hcode, -, rfl⟩ := decodeMessage_eq_some_iff.mp hmsg
    rw [decodeBody_header]
    exact (MessageType.code_injective (List.singleton_inj.mp hcode)).symm
  obtain ⟨hwf, -, hbytes⟩ := decodeMessage_eq_some hmsg
  rw [htype, ← hlen, List.take_left] at hbytes
  rw [hmsg, wireBytes_injective hwf h hbytes]

end Liquibook
