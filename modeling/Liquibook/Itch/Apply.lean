import Liquibook.Itch.Wire

/-!
# Feeding messages to a book

`OrderBook::apply`: a decoded message becomes a call of the book, or none if its type
says nothing about displayed orders.  The switch reads the payload through the
checked accessors, so here it yields nothing when an assertion fails or a member is
read that was not written.  On a message that `decode` returns neither happens.

## Main definitions

* `DecodedMessage.operation` — the call that `apply` makes for a message.
* `OrderBook.apply`, `OrderBook.applyAll` — feeding one message, or several in order.

## Main results

* `apply_of_wellFormed` — a decoded message never fails an assertion.
* `decode_accepts_exactly` — **`decode` accepts exactly the supported messages, and
  reads nothing but their bytes.**
-/

namespace Liquibook

open Lib

/-- The call that `apply` makes for a message; `none` inside for the types that do not
affect the book, and outside for a failed assertion. -/
def DecodedMessage.operation (msg : DecodedMessage) : Option (Option Op) :=
  match msg.header.type with
  | .addOrder | .addOrderMPID =>
      msg.asAddOrder.map fun ao =>
        some (.add ao.orderReferenceNumber ao.price ao.shares (ao.buySellIndicator == 66) 0)
  | .orderExecuted =>
      msg.asOrderExecuted.map fun oe => some (.execute oe.orderReferenceNumber oe.executedShares)
  | .orderExecutedWithPrice =>
      msg.asOrderExecutedWithPrice.map fun oe =>
        some (.execute oe.orderReferenceNumber oe.executedShares)
  | .orderCancel =>
      msg.asOrderCancel.map fun oc => some (.cancel oc.orderReferenceNumber oc.cancelledShares)
  | .orderDelete => msg.asOrderDelete.map fun od => some (.delete od.orderReferenceNumber)
  | .orderReplace =>
      msg.asOrderReplace.map fun orep =>
        some (.replace orep.originalOrderReferenceNumber orep.newOrderReferenceNumber orep.shares
          orep.price)
  | .systemEvent | .stockDirectory | .trade => some none

namespace OrderBook

/-- `apply` -/
def apply (b : OrderBook) (msg : DecodedMessage) : Option OrderBook :=
  msg.operation.map fun
    | some op => (b.step op).2
    | none => b

/-- Feed messages to the book in order. -/
def applyAll (b : OrderBook) (msgs : List DecodedMessage) : Option OrderBook :=
  msgs.foldlM apply b

theorem applyAll_concat {b b' b'' : OrderBook} {msgs : List DecodedMessage} {msg : DecodedMessage}
    (h : b.applyAll msgs = some b') (h' : b'.apply msg = some b'') :
    b.applyAll (msgs ++ [msg]) = some b'' := by
  rw [applyAll, List.foldlM_append, ← applyAll, h]
  simp [h']

end OrderBook

variable {msg : DecodedMessage}

/-- No assertion fails on a well-formed message. -/
theorem DecodedMessage.WellFormed.isSome_operation (h : msg.WellFormed) :
    msg.operation.isSome = true := by
  obtain ⟨⟨type, locate, tracking, ts⟩, payload⟩ := msg
  have hmember := h.member
  cases payload with
  | addOrder p =>
    simp only [Payload.belongsTo, Bool.or_eq_true, beq_iff_eq] at hmember
    rcases hmember with rfl | rfl
    · rfl
    · rfl
  | _ =>
    simp only [Payload.belongsTo, beq_iff_eq] at hmember
    subst hmember
    rfl

theorem OrderBook.apply_of_wellFormed (h : msg.WellFormed) (b : OrderBook) :
    ∃ b', b.apply msg = some b' := by
  obtain ⟨op, hop⟩ := Option.isSome_iff_exists.mp h.isSome_operation
  rw [OrderBook.apply, hop]
  exact ⟨_, rfl⟩

/-! ### The reads of the decoder -/

/-- **The switch reads the bytes behind the first one in order**, whatever they are. -/
theorem decodeBody_reads (raw : List Byte) (type : MessageType) :
    (decodeBody type raw).2 = List.range' 1 (wireLength (some type) - 1) := by
  cases type <;> rfl

/-- `decode` reads the first byte, and goes on only inside a message that is all
there. -/
theorem bytesRead_cases (raw : List Byte) : raw = [] ∧ bytesRead raw = [] ∨
    raw ≠ [] ∧ (bytesRead raw = [0] ∨
      ∃ type, raw.head? = some type.code ∧ wireLength (some type) ≤ raw.length ∧
        ∀ i ∈ bytesRead raw, i < wireLength (some type)) := by
  cases raw with
  | nil => exact Or.inl ⟨rfl, rfl⟩
  | cons c rest =>
    refine Or.inr ⟨by simp, ?_⟩
    rw [bytesRead, decode_cons]
    cases htype : MessageType.ofByte c with
    | none => exact Or.inl rfl
    | some type =>
      dsimp only
      by_cases hlen : (c :: rest).length < wireLength (some type)
      · rw [if_pos hlen]
        exact Or.inl rfl
      · rw [if_neg hlen]
        refine Or.inr ⟨type, ?_, by omega, fun i hi => ?_⟩
        · rw [MessageType.ofByte_eq_some_iff.mp htype]
          rfl
        · have hge := wireLength_ge type
          rcases List.mem_cons.mp hi with rfl | hi
          · omega
          · rw [decodeBody_reads, List.mem_range'_1] at hi
            omega

/-- The first bytes decide what a string decodes to. -/
theorem decodeMessage_congr {raw raw' : List Byte} (h : decodeMessage raw = some msg)
    (hsame : raw'.take (wireLength (some msg.header.type)) =
      raw.take (wireLength (some msg.header.type))) : decodeMessage raw' = some msg := by
  obtain ⟨hwf, -, hbytes⟩ := decodeMessage_eq_some h
  rw [← List.take_append_drop (wireLength (some msg.header.type)) raw', hsame, ← hbytes]
  exact decodeMessage_wireBytes hwf _

/-- **`decode` accepts exactly the supported messages**: the strings that start with the
code of a type and have at least its length.  It reads inside the string, and if its
first byte is the code of a type, inside the bytes of a message of the type; the other
bytes do not matter.  The message it returns is of the type of the first byte, with
the payload that belongs to it, so no assertion fails when it is applied to a book. -/
theorem decode_accepts_exactly (raw : List Byte) :
    ((decodeMessage raw).isSome = true ↔
      ∃ type : MessageType, raw.head? = some type.code ∧
        wireLength (some type) ≤ raw.length) ∧
    (∀ i ∈ bytesRead raw, i < raw.length) ∧
    (∀ type : MessageType, raw.head? = some type.code →
      ∀ i ∈ bytesRead raw, i < wireLength (some type)) ∧
    (∀ msg, decodeMessage raw = some msg →
      raw.head? = some msg.header.type.code ∧
      msg.payload.belongsTo msg.header.type = true ∧
      (∀ raw', raw'.take (wireLength (some msg.header.type)) =
        raw.take (wireLength (some msg.header.type)) → decodeMessage raw' = some msg) ∧
      (∀ extra, decodeMessage (raw ++ extra) = some msg) ∧
      ∀ b : OrderBook, ∃ b', b.apply msg = some b') := by
  have hhead : ∀ type : MessageType, slice raw 0 1 = [type.code] ↔
      raw.head? = some type.code := by
    intro type
    cases raw with
    | nil => simp [slice]
    | cons c rest => simp [slice]
  refine ⟨?_, ?_, ?_, ?_⟩
  · rw [Option.isSome_iff_exists]
    constructor
    · rintro ⟨msg, hmsg⟩
      obtain ⟨type, hcode, hlen, -⟩ := decodeMessage_eq_some_iff.mp hmsg
      exact ⟨type, (hhead type).mp hcode, hlen⟩
    · rintro ⟨type, hcode, hlen⟩
      exact ⟨_, decodeMessage_eq_some_iff.mpr ⟨type, (hhead type).mpr hcode, hlen, rfl⟩⟩
  · intro i hi
    rcases bytesRead_cases raw with ⟨-, hnone⟩ | ⟨hne, hfirst | ⟨type, -, hlen, hin⟩⟩
    · rw [hnone] at hi
      cases hi
    · rw [hfirst, List.mem_singleton] at hi
      rw [hi]
      exact List.length_pos_of_ne_nil hne
    · exact (hin i hi).trans_le hlen
  · intro type hcode i hi
    rcases bytesRead_cases raw with ⟨-, hnone⟩ | ⟨hne, hfirst | ⟨type', hcode', -, hin⟩⟩
    · rw [hnone] at hi
      cases hi
    · have hge := wireLength_ge type
      rw [hfirst, List.mem_singleton] at hi
      omega
    · rw [hcode, Option.some.injEq] at hcode'
      rw [MessageType.code_injective hcode']
      exact hin i hi
  · intro msg hmsg
    obtain ⟨hwf, hlen, hbytes⟩ := decodeMessage_eq_some hmsg
    refine ⟨?_, hwf.member, fun raw' hsame => decodeMessage_congr hmsg hsame, fun extra => ?_,
      fun b => OrderBook.apply_of_wellFormed hwf b⟩
    · obtain ⟨type, hcode, -, rfl⟩ := decodeMessage_eq_some_iff.mp hmsg
      rw [decodeBody_header]
      exact (hhead type).mp hcode
    · apply decodeMessage_congr hmsg
      exact List.take_append_of_le_length hlen

end Liquibook
