import Liquibook.Itch.Synth

/-!
# Length-prefixed framing

A stream is a sequence of frames, each a message behind its length in two big-endian
bytes.  The source walks it in two places that know nothing of each other: the file
reader of `itch/file_reader.cpp`, which keeps its offset between two calls, and the
producer of `pipeline/itch_pipeline.hpp`, which has it in a local variable.  Both
compute offsets and sizes in 64 bits, where an addition wraps.

What the frames of a byte string are is said by recursion on the string: `frames`.
The two walkers find these frames, at places inside the string, as long as its size is
so far from `2 ^ 64` that no offset wraps.

## Main definitions

* `nextFrame`, `frames`, `decodedMessages` — the frames of a byte string, and the messages
  among them.
* `writeFramed` — a message behind its length.
* `Frame` — the place of a frame, as a walker finds it.
* `ItchFileReader`, `nextRawMessage`, `nextMessage` — the file reader.
* `producerFrame`, `producerFrames` — the framing half of the producer loop.

## Main results

* `producerFrame_cases` — **one iteration takes the next frame off.**
* `nextRawMessage_eq` — **the two walkers take the same step.**
* `framing_round_trips` — **what is framed is found again, and the walkers agree.**
-/

namespace Liquibook

open Lib

/-! ### The frames of a byte string -/

/-- The first frame and what is left behind it; `none` if it is not complete. -/
def nextFrame : List Byte → Option (List Byte × List Byte)
  | b0 :: b1 :: rest =>
      if bigEndian [b0, b1] ≤ rest.length then
        some (rest.take (bigEndian [b0, b1]), rest.drop (bigEndian [b0, b1]))
      else none
  | _ => none

theorem length_of_nextFrame {raw frame rest : List Byte} (h : nextFrame raw = some (frame, rest)) :
    raw.length = frame.length + rest.length + 2 := by
  match raw with
  | [] => cases h
  | [_] => cases h
  | b0 :: b1 :: tail =>
    rw [nextFrame] at h
    split at h
    · next hle =>
      simp only [Option.some.injEq, Prod.mk.injEq] at h
      rw [← h.1, ← h.2, List.length_take, List.length_drop, List.length_cons, List.length_cons]
      omega
    · cases h

/-- The complete frames at the start of a byte string. -/
def frames (raw : List Byte) : List (List Byte) :=
  match _h : nextFrame raw with
  | none => []
  | some (frame, rest) => frame :: frames rest
termination_by raw.length
decreasing_by
  have := length_of_nextFrame _h
  omega

theorem frames_of_none {raw : List Byte} (h : nextFrame raw = none) : frames raw = [] := by
  rw [frames]
  split
  · rfl
  · next h' => rw [h] at h'; cases h'

theorem frames_of_some {raw frame rest : List Byte} (h : nextFrame raw = some (frame, rest)) :
    frames raw = frame :: frames rest := by
  rw [frames]
  split
  · next h' => rw [h] at h'; cases h'
  · next h' =>
    rw [h] at h'
    cases h'
    rfl

/-- The messages that can be decoded among the complete frames, in order. -/
def decodedMessages (raw : List Byte) : List DecodedMessage := (frames raw).filterMap decodeMessage

theorem decodedMessages_of_none {rest : List Byte} (h : nextFrame rest = none) :
    decodedMessages rest = [] := by
  rw [decodedMessages, frames_of_none h, List.filterMap_nil]

theorem decodedMessages_of_some {rest frame rest' : List Byte}
    (h : nextFrame rest = some (frame, rest')) :
    decodedMessages rest = (decodeMessage frame).toList ++ decodedMessages rest' := by
  rw [decodedMessages, frames_of_some h, List.filterMap_cons]
  cases decodeMessage frame <;> rfl

/-- `write_u16_be` -/
def writeU16Be (v : UInt16) : List Byte := [((v >>> 8) &&& 0xFF).toUInt8, (v &&& 0xFF).toUInt8]

/-- `write_framed` -/
def writeFramed (out msg : List Byte) : List Byte :=
  out ++ writeU16Be (UInt16.ofNat msg.length) ++ msg

/-- No frame is complete: there is no room for a length, or it announces more bytes
than follow. -/
def Incomplete (tail : List Byte) : Prop :=
  tail.length < 2 ∨ ∃ b0 b1 rest, tail = b0 :: b1 :: rest ∧ rest.length < bigEndian [b0, b1]

theorem Incomplete.nextFrame_eq {tail : List Byte} (h : Incomplete tail) :
    nextFrame tail = none := by
  rcases h with h | ⟨b0, b1, rest, rfl, h⟩
  · match tail with
    | [] => rfl
    | [_] => rfl
    | b0 :: b1 :: rest =>
      rw [List.length_cons, List.length_cons] at h
      omega
  · rw [nextFrame, if_neg (by omega)]

/-- **A framed message is the next frame.** -/
theorem nextFrame_framed {msg : List Byte} (h : msg.length < 65536) (rest : List Byte) :
    nextFrame (writeFramed [] msg ++ rest) = some (msg, rest) := by
  have hlen : bigEndian (writeU16Be (UInt16.ofNat msg.length)) = msg.length := by
    have happ := appendU16_eq [] (UInt16.ofNat msg.length)
    have hbytes : writeU16Be (UInt16.ofNat msg.length) =
        bytesOf 2 (UInt16.ofNat msg.length).toNat := by simpa [appendU16, writeU16Be] using happ
    rw [hbytes, bigEndian_bytesOf, UInt16.toNat_ofNat_of_lt' h]
    exact Nat.mod_eq_of_lt h
  change nextFrame (_ :: _ :: (msg ++ rest)) = _
  unfold writeU16Be at hlen
  rw [nextFrame, hlen, if_pos (by simp), List.take_left, List.drop_left]

/-- The frames of framed messages and an incomplete tail are the messages. -/
theorem frames_framed {tail : List Byte} (htail : Incomplete tail) {msgs : List (List Byte)}
    (h : ∀ m ∈ msgs, m.length < 65536) :
    frames (msgs.flatMap (writeFramed []) ++ tail) = msgs := by
  induction msgs with
  | nil => exact frames_of_none htail.nextFrame_eq
  | cons m msgs ih =>
    have hnext := nextFrame_framed (h m List.mem_cons_self)
      (msgs.flatMap (writeFramed []) ++ tail)
    rw [List.flatMap_cons, List.append_assoc, frames_of_some hnext,
      ih fun x hx => h x (List.mem_cons_of_mem _ hx)]

theorem foldl_writeFramed (out : List Byte) (msgs : List (List Byte)) :
    msgs.foldl writeFramed out = out ++ msgs.flatMap (writeFramed []) := by
  induction msgs generalizing out with
  | nil => simp
  | cons m msgs ih => simp [ih, writeFramed]

/-! ### The walkers -/

/-- The place of a frame: where its message starts, and its length. -/
structure Frame where
  start : UInt64
  length : UInt16
  deriving DecidableEq, Repr

/-- The message at the place. -/
def Frame.bytes (f : Frame) (raw : List Byte) : List Byte :=
  slice raw f.start.toNat f.length.toNat

/-- The place is inside the string, and so is the length in front of it. -/
def Frame.Within (f : Frame) (raw : List Byte) : Prop :=
  2 ≤ f.start.toNat ∧ f.start.toNat + f.length.toNat ≤ raw.length

/-- `class ItchFileReader`; `data` is `none` for the null pointer. -/
structure ItchFileReader where
  data : Option (List Byte) := none
  size : UInt64 := 0
  offset : UInt64 := 0

namespace ItchFileReader

/-- The constructor, for a file with these contents.  An empty file is not mapped. -/
def new (contents : List Byte) : ItchFileReader :=
  if UInt64.ofNat contents.length = 0 then {}
  else { data := some contents, size := UInt64.ofNat contents.length }

/-- `next_raw_message` -/
def nextRawMessage (r : ItchFileReader) : Option Frame × ItchFileReader :=
  match r.data with
  | none => (none, r)
  | some data =>
      if r.offset + 2 > r.size then (none, r)
      else
        let msgLen := (readU16Be r.offset.toNat data).1
        let msgStart := r.offset + 2
        if msgStart + msgLen.toUInt64 > r.size then (none, r)
        else (some { start := msgStart, length := msgLen },
          { r with offset := msgStart + msgLen.toUInt64 })

/-- The results of the first `n` calls of `next_raw_message`. -/
def calls : ℕ → ItchFileReader → List (Option Frame)
  | 0, _ => []
  | n + 1, r => r.nextRawMessage.1 :: calls n r.nextRawMessage.2

/-- `next_message` -/
def nextMessage (r : ItchFileReader) : Option DecodedMessage × ItchFileReader :=
  match r.nextRawMessage with
  | (none, r') => (none, r')
  | (some raw, r') => (decodeMessage (raw.bytes (r.data.getD [])), r')

end ItchFileReader

/-- One iteration of the producer loop of `run_itch_pipeline`, up to the call of
`decode`: the subspan it is called on and the offset the iteration ends with; `none`
when the loop is left. -/
def producerFrame (raw : List Byte) (offset : UInt64) : Option (Frame × UInt64) :=
  let size := UInt64.ofNat raw.length
  if offset + 2 ≤ size then
    let len := (((raw.getD offset.toNat default).toUInt32 <<< 8) |||
      (raw.getD (offset + 1).toNat default).toUInt32).toUInt16
    let msgStart := offset + 2
    if msgStart + len.toUInt64 > size then none
    else some ({ start := msgStart, length := len }, msgStart + len.toUInt64)
  else none

/-- The subspans of the iterations from an offset on; `none` when the fuel runs out. -/
def producerFrames (raw : List Byte) : ℕ → UInt64 → Option (List Frame)
  | 0, _ => none
  | fuel + 1, offset =>
      match producerFrame raw offset with
      | none => some []
      | some (f, offset') => (producerFrames raw fuel offset').map fun fs => f :: fs

/-! ### One step -/

section Step

variable {raw : List Byte} {o : UInt64}

/-- Sizes at which no offset wraps. -/
def Walkable (raw : List Byte) : Prop := raw.length < 2 ^ 64 - 65537

/-- The offsets of the two bytes of a length, and of the byte behind them. -/
theorem Walkable.toNat_offset (h : Walkable raw) (ho : o.toNat ≤ raw.length) :
    (o + 1).toNat = o.toNat + 1 ∧ (o + 2).toNat = o.toNat + 2 := by
  unfold Walkable at h
  constructor
  · rw [UInt64.toNat_add]
    exact Nat.mod_eq_of_lt (show o.toNat + 1 < 2 ^ 64 by omega)
  · rw [UInt64.toNat_add]
    exact Nat.mod_eq_of_lt (show o.toNat + 2 < 2 ^ 64 by omega)

theorem toNat_or_shift (b0 b1 : Byte) :
    ((b0.toUInt32 <<< 8) ||| b1.toUInt32).toUInt16 = UInt16.ofNat (bigEndian [b0, b1]) := by
  have e := or_shift_byte b0 8 32 b1.toNat_lt (by omega)
  rw [← UInt16.toNat_inj]
  simp only [UInt32.toNat_toUInt16, UInt32.toNat_or, UInt32.toNat_shiftLeft, UInt8.toNat_toUInt32,
    UInt32.reduceToNat, Nat.reduceMod]
  rw [e.1, UInt16.toNat_ofNat']
  simp [bigEndian]

/-- **One iteration takes the next frame off** what is left behind the offset. -/
theorem producerFrame_cases (hraw : Walkable raw) (ho : o.toNat ≤ raw.length) :
    (producerFrame raw o = none ∧ nextFrame (raw.drop o.toNat) = none) ∨
      ∃ f o', producerFrame raw o = some (f, o') ∧ f.Within raw ∧ o'.toNat ≤ raw.length ∧
        o.toNat < o'.toNat ∧
        nextFrame (raw.drop o.toNat) = some (f.bytes raw, raw.drop o'.toNat) := by
  obtain ⟨hone, htwo⟩ := hraw.toNat_offset ho
  unfold Walkable at hraw
  have hsize : (UInt64.ofNat raw.length).toNat = raw.length :=
    UInt64.toNat_ofNat_of_lt' (show _ < 2 ^ 64 by omega)
  unfold producerFrame
  dsimp only
  by_cases hroom : o.toNat + 2 ≤ raw.length
  · rw [if_pos (by rw [UInt64.le_iff_toNat_le, htwo, hsize]; exact hroom), hone, toNat_or_shift]
    -- the two bytes in front of the frame
    obtain ⟨b0, hb0⟩ : ∃ b0, raw.getD o.toNat default = b0 := ⟨_, rfl⟩
    obtain ⟨b1, hb1⟩ : ∃ b1, raw.getD (o.toNat + 1) default = b1 := ⟨_, rfl⟩
    have hdrop : raw.drop o.toNat = b0 :: b1 :: raw.drop (o.toNat + 2) := by
      rw [List.drop_eq_getElem_cons (by omega), List.drop_eq_getElem_cons (by omega), ← hb0, ← hb1,
        List.getD_eq_getElem _ _ (by omega), List.getD_eq_getElem _ _ (by omega)]
    obtain ⟨n, hndef⟩ : ∃ n, bigEndian [b0, b1] = n := ⟨_, rfl⟩
    have hn : n < 2 ^ 16 := by
      rw [← hndef]
      simpa using bigEndian_lt [b0, b1]
    rw [hb0, hb1, hndef]
    have hlen : (UInt16.ofNat n).toNat = n := UInt16.toNat_ofNat_of_lt' hn
    have hend : (o + 2 + (UInt16.ofNat n).toUInt64).toNat = o.toNat + 2 + n := by
      rw [UInt64.toNat_add, htwo, UInt16.toNat_toUInt64, hlen]
      exact Nat.mod_eq_of_lt (show o.toNat + 2 + n < 2 ^ 64 by omega)
    rw [hdrop, nextFrame, hndef, List.length_drop]
    by_cases hfits : o.toNat + 2 + n ≤ raw.length
    · right
      rw [if_neg (by rw [gt_iff_lt, UInt64.lt_iff_toNat_lt, hend, hsize]; omega),
        if_pos (by omega)]
      refine ⟨_, _, rfl, ⟨?_, ?_⟩, ?_, ?_, ?_⟩
      · rw [htwo]
        omega
      · rw [htwo, hlen]
        exact hfits
      · rw [hend]
        exact hfits
      · rw [hend]
        omega
      · rw [Frame.bytes, hend, htwo, hlen, List.drop_drop]
        rfl
    · left
      rw [if_pos (by rw [gt_iff_lt, UInt64.lt_iff_toNat_lt, hend, hsize]; omega),
        if_neg (by omega)]
      exact ⟨rfl, rfl⟩
  · left
    rw [if_neg (by rw [UInt64.le_iff_toNat_le, htwo, hsize]; exact hroom)]
    refine ⟨rfl, ?_⟩
    have hshort : (raw.drop o.toNat).length < 2 := by
      rw [List.length_drop]
      omega
    exact Incomplete.nextFrame_eq (Or.inl hshort)

/-- **The two walkers take the same step.** -/
theorem nextRawMessage_eq (hraw : Walkable raw) (ho : o.toNat ≤ raw.length) {r : ItchFileReader}
    (hdata : r.data = some raw) (hsize : r.size = UInt64.ofNat raw.length) (hoff : r.offset = o) :
    (producerFrame raw o = none → r.nextRawMessage = (none, r)) ∧
      ∀ f o', producerFrame raw o = some (f, o') →
        r.nextRawMessage = (some f, { r with offset := o' }) := by
  obtain ⟨hone, htwo⟩ := hraw.toNat_offset ho
  unfold Walkable at hraw
  -- the reader takes the length from `read_u16_be`, the producer puts it together itself
  have hlen : o + 2 ≤ UInt64.ofNat raw.length →
      (((raw.getD o.toNat default).toUInt32 <<< 8) |||
        (raw.getD (o + 1).toNat default).toUInt32).toUInt16 = (readU16Be o.toNat raw).1 := by
    intro hle
    rw [UInt64.le_iff_toNat_le, htwo,
      UInt64.toNat_ofNat_of_lt' (show _ < 2 ^ 64 by omega)] at hle
    rw [hone, toNat_or_shift, readU16Be_eq hle, slice_two hle]
  unfold producerFrame ItchFileReader.nextRawMessage
  rw [hdata, hsize, hoff]
  dsimp only
  by_cases hroom : o + 2 ≤ UInt64.ofNat raw.length
  · rw [if_pos hroom, if_neg (UInt64.not_lt.mpr hroom), hlen hroom]
    split
    · exact ⟨fun _ => rfl, fun f o' h => (by cases h)⟩
    · refine ⟨fun h => (by cases h), fun f o' h => ?_⟩
      cases h
      rfl
  · rw [if_neg hroom, if_pos (UInt64.not_le.mp hroom)]
    exact ⟨fun _ => rfl, fun f o' h => (by cases h)⟩

end Step

/-! ### Whole strings -/

section Walk

variable {raw : List Byte}

/-- From an offset on, the producer finds the frames of what is left, and so does the
reader, which then returns nothing any more. -/
structure Walk (raw : List Byte) (o : UInt64) (fs : List Frame) : Prop where
  within : ∀ f ∈ fs, f.Within raw
  bytes_eq : fs.map (fun f => f.bytes raw) = frames (raw.drop o.toNat)
  producer : ∀ fuel, raw.length - o.toNat < fuel → producerFrames raw fuel o = some fs
  reader : ∀ r : ItchFileReader, r.data = some raw → r.size = UInt64.ofNat raw.length →
    r.offset = o → ∀ n, r.calls n = (fs.map some).take n ++ List.replicate (n - fs.length) none

theorem Walk.stop (hraw : Walkable raw) {o : UInt64} (ho : o.toNat ≤ raw.length)
    (hp : producerFrame raw o = none) (hn : nextFrame (raw.drop o.toNat) = none) :
    Walk raw o [] where
  within f hf := by simp at hf
  bytes_eq := by rw [frames_of_none hn, List.map_nil]
  producer fuel hfuel := by
    obtain ⟨fuel, rfl⟩ := Nat.exists_eq_succ_of_ne_zero (Nat.ne_of_gt (Nat.zero_lt_of_lt hfuel))
    simp only [producerFrames, hp]
  reader r hdata hsize hoff n := by
    have hstep := (nextRawMessage_eq hraw ho hdata hsize hoff).1 hp
    induction n with
    | zero => rfl
    | succ n ih =>
      simp only [ItchFileReader.calls, hstep, ih]
      simp [List.replicate_succ]

theorem Walk.step (hraw : Walkable raw) {o o' : UInt64} {f : Frame} {fs : List Frame}
    (ho : o.toNat ≤ raw.length) (hp : producerFrame raw o = some (f, o')) (hf : f.Within raw)
    (ho' : o'.toNat ≤ raw.length) (hlt : o.toNat < o'.toNat)
    (hn : nextFrame (raw.drop o.toNat) = some (f.bytes raw, raw.drop o'.toNat))
    (hw : Walk raw o' fs) : Walk raw o (f :: fs) where
  within g hg := by
    obtain rfl | hg := List.mem_cons.mp hg
    · exact hf
    · exact hw.within g hg
  bytes_eq := by rw [frames_of_some hn, List.map_cons, hw.bytes_eq]
  producer fuel hfuel := by
    obtain ⟨fuel, rfl⟩ := Nat.exists_eq_succ_of_ne_zero (Nat.ne_of_gt (Nat.zero_lt_of_lt hfuel))
    simp only [producerFrames, hp, hw.producer fuel (by omega), Option.map_some]
  reader r hdata hsize hoff n := by
    have hstep := (nextRawMessage_eq hraw ho hdata hsize hoff).2 f o' hp
    cases n with
    | zero => simp [ItchFileReader.calls]
    | succ n =>
      simp only [ItchFileReader.calls, hstep]
      rw [hw.reader { r with offset := o' } hdata hsize rfl n]
      simp

/-- **Both loops walk over the whole string.**  The induction is on the bytes behind the
offset, of which every frame takes two at least. -/
theorem exists_walk (hraw : Walkable raw) {o : UInt64} (ho : o.toNat ≤ raw.length) :
    ∃ fs, Walk raw o fs := by
  obtain ⟨k, hk⟩ : ∃ k, raw.length - o.toNat ≤ k := ⟨_, le_rfl⟩
  induction k generalizing o with
  | zero =>
    obtain ⟨hp, hn⟩ | ⟨f, o', hp, hf, ho', hlt, hn⟩ := producerFrame_cases hraw ho
    · exact ⟨[], Walk.stop hraw ho hp hn⟩
    · omega
  | succ k ih =>
    obtain ⟨hp, hn⟩ | ⟨f, o', hp, hf, ho', hlt, hn⟩ := producerFrame_cases hraw ho
    · exact ⟨[], Walk.stop hraw ho hp hn⟩
    · obtain ⟨fs, hw⟩ := ih ho' (by omega)
      exact ⟨f :: fs, hw.step hraw ho hp hf ho' hlt hn⟩

/-- A reader that has just been constructed stands at the start of the file. -/
theorem Walk.calls_new {fs : List Frame} (hraw : Walkable raw) (hw : Walk raw 0 fs) (n : ℕ) :
    (ItchFileReader.new raw).calls n =
      (fs.map some).take n ++ List.replicate (n - fs.length) none := by
  unfold Walkable at hraw
  unfold ItchFileReader.new
  split
  next hempty =>
    -- an empty file is not mapped, and has no frames
    have hzero : raw.length = 0 := by
      have h := congrArg UInt64.toNat hempty
      rwa [UInt64.toNat_ofNat_of_lt' (show _ < 2 ^ 64 by omega), UInt64.toNat_zero] at h
    have hnil : fs = [] := by
      have h := hw.bytes_eq
      rw [List.length_eq_zero_iff.mp hzero, List.drop_nil,
        frames_of_none (Incomplete.nextFrame_eq (Or.inl (by simp)))] at h
      exact List.map_eq_nil_iff.mp h
    rw [hnil]
    induction n with
    | zero => rfl
    | succ n ih =>
      simp only [ItchFileReader.calls, ItchFileReader.nextRawMessage, ih]
      simp [List.replicate_succ]
  next => exact hw.reader _ rfl rfl rfl n

end Walk

/-! ### The main result -/

/-- **Framing round-trips and the two walkers agree.**  Reading back what `write_framed`
wrote, with any incomplete tail behind it, gives the messages and then nothing any more; and
on any bytes the reader and the producer loop find the same frames, all of them inside,
and stop. -/
theorem framing_round_trips :
    (∀ (msgs : List (List Byte)) (tail : List Byte), (∀ m ∈ msgs, m.length < 65536) →
      Incomplete tail → Walkable (msgs.foldl writeFramed [] ++ tail) →
      ∃ fs : List Frame, fs.map (fun f => f.bytes (msgs.foldl writeFramed [] ++ tail)) = msgs ∧
        ∀ n, (ItchFileReader.new (msgs.foldl writeFramed [] ++ tail)).calls n =
          (fs.map some).take n ++ List.replicate (n - fs.length) none) ∧
    ∀ raw : List Byte, Walkable raw →
      ∃ fs : List Frame, (∀ f ∈ fs, f.Within raw) ∧
        (∀ n, (ItchFileReader.new raw).calls n =
          (fs.map some).take n ++ List.replicate (n - fs.length) none) ∧
        ∀ fuel, raw.length < fuel → producerFrames raw fuel 0 = some fs := by
  have hstart : ∀ raw : List Byte, (0 : UInt64).toNat ≤ raw.length := fun raw => Nat.zero_le _
  constructor
  · intro msgs tail hmsgs htail hraw
    obtain ⟨fs, hw⟩ := exists_walk hraw (hstart _)
    refine ⟨fs, ?_, hw.calls_new hraw⟩
    rw [hw.bytes_eq, UInt64.toNat_zero, List.drop_zero, foldl_writeFramed, List.nil_append]
    exact frames_framed htail hmsgs
  · intro raw hraw
    obtain ⟨fs, hw⟩ := exists_walk hraw (hstart _)
    exact ⟨fs, hw.within, hw.calls_new hraw, fun fuel hfuel => hw.producer fuel (by simpa)⟩

end Liquibook
