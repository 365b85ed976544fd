import Liquibook.Pipeline.ItchPipeline
import Mathlib.Data.List.ReduceOption

/-!
# Draining a file with `next_message`

`next_message` is what its comment says, `next_raw_message` followed by `decode`.  Both may
come back empty-handed, the first at the end of the file and the second on a frame of a
type that is not supported or that is too short, and the caller is not told which it was.
The pipeline keeps the two apart: it leaves such a frame out and goes on behind it.

So a caller who stops at the first empty answer has seen what the pipeline pushes up to
the first frame that does not decode.  The reader itself has gone past that frame, and a
caller who goes on calling sees everything.

## Main definitions

* `ItchFileReader.messages`, `ItchFileReader.drain` — the answers of a number of calls, and
  the messages up to the first empty one.
* `leading` — the entries of a list in front of its first empty one.
* `NothingBehind` — no frame that decodes stands behind one that does not.

## Main results

* `messages_new`, `drain_new` — **what `next_message` returns** on a whole file.
* `drain_until_undecodable` — **draining a file and the pipeline compared.**
-/

namespace Liquibook

namespace ItchFileReader

/-- The results of the first `n` calls of `next_message`. -/
def messages : ℕ → ItchFileReader → List (Option DecodedMessage)
  | 0, _ => []
  | n + 1, r => r.nextMessage.1 :: messages n r.nextMessage.2

/-- Call `next_message` until it first returns nothing, and collect the messages; `none`
when the fuel runs out before that. -/
def drain : ℕ → ItchFileReader → Option (List DecodedMessage)
  | 0, _ => none
  | fuel + 1, r =>
      match r.nextMessage with
      | (none, _) => some []
      | (some msg, r') => (drain fuel r').map fun msgs => msg :: msgs

end ItchFileReader

section Leading

variable {α : Type}

/-- The entries in front of the first empty one. -/
def leading : List (Option α) → List α
  | [] => []
  | none :: _ => []
  | some a :: os => a :: leading os

theorem leading_append_none (os rest : List (Option α)) :
    leading (os ++ none :: rest) = leading os := by
  induction os with
  | nil => rfl
  | cons o os ih =>
    cases o with
    | none => rfl
    | some a => exact congrArg (a :: ·) ih

theorem leading_prefix_reduceOption (os : List (Option α)) : leading os <+: os.reduceOption := by
  induction os with
  | nil => exact List.nil_prefix
  | cons o os ih =>
    cases o with
    | none => exact List.nil_prefix
    | some a =>
      rw [List.reduceOption_cons_of_some]
      exact List.cons_prefix_cons.mpr ⟨rfl, ih⟩

/-- Nothing is missing in front of the first empty entry exactly when all entries behind
an empty one are empty. -/
theorem leading_eq_reduceOption_iff (os : List (Option α)) :
    leading os = os.reduceOption ↔ os.Pairwise fun x y => x = none → y = none := by
  induction os with
  | nil => simp [leading]
  | cons o os ih =>
    rw [List.pairwise_cons]
    cases o with
    | none =>
      rw [List.reduceOption_cons_of_none]
      simp only [leading, forall_const]
      constructor
      · intro hnil
        have hall : ∀ y ∈ os, y = none := by
          intro y hy
          cases y with
          | none => rfl
          | some a =>
            have := List.reduceOption_mem_iff.mpr hy
            rw [← hnil] at this
            cases this
        exact ⟨hall, List.pairwise_iff_forall_sublist.mpr fun hsub _ =>
          hall _ (hsub.subset (by simp))⟩
      · rintro ⟨hall, -⟩
        rw [eq_comm, List.eq_nil_iff_forall_not_mem]
        intro a ha
        cases hall _ (List.reduceOption_mem_iff.mp ha)
    | some a =>
      rw [List.reduceOption_cons_of_some, leading, List.cons.injEq, ih]
      simp

end Leading

/-- No frame that decodes stands behind one that does not. -/
def NothingBehind (raw : List Byte) : Prop :=
  (frames raw).Pairwise fun f g => decodeMessage f = none → decodeMessage g = none

/-- The messages of the frames in front of the first that does not decode. -/
def leadingMessages (raw : List Byte) : List DecodedMessage :=
  leading ((frames raw).map decodeMessage)

theorem decodedMessages_eq (raw : List Byte) :
    decodedMessages raw = ((frames raw).map decodeMessage).reduceOption := by
  rw [decodedMessages, List.reduceOption, List.filterMap_map]
  rfl

/-! ### The reader -/

namespace ItchFileReader

variable {raw : List Byte}

theorem nextRawMessage_data (r : ItchFileReader) : r.nextRawMessage.2.data = r.data := by
  unfold nextRawMessage
  cases hdata : r.data with
  | none => exact hdata
  | some data =>
    dsimp only
    split
    · exact hdata
    · split
      · exact hdata
      · rfl

/-- `next_message` reads what `next_raw_message` finds. -/
theorem nextMessage_eq (r : ItchFileReader) :
    r.nextMessage = (r.nextRawMessage.1.bind fun f => decodeMessage (f.bytes (r.data.getD [])),
      r.nextRawMessage.2) := by
  rw [nextMessage]
  rcases r.nextRawMessage with ⟨_ | f, r'⟩ <;> rfl

theorem messages_eq (r : ItchFileReader) (n : ℕ) :
    r.messages n =
      (r.calls n).map fun o => o.bind fun f => decodeMessage (f.bytes (r.data.getD [])) := by
  induction n generalizing r with
  | zero => rfl
  | succ n ih =>
    rw [messages, calls, List.map_cons, nextMessage_eq, ih, nextRawMessage_data]

/-- Draining is reading the answers up to the first empty one. -/
theorem drain_eq (r : ItchFileReader) (fuel : ℕ) (hnone : none ∈ r.messages fuel) :
    r.drain fuel = some (leading (r.messages fuel)) := by
  induction fuel generalizing r with
  | zero => cases hnone
  | succ fuel ih =>
    rw [messages] at hnone ⊢
    rw [drain]
    rcases hnext : r.nextMessage with ⟨_ | msg, r'⟩
    · rfl
    · rw [hnext] at hnone
      have hrest : none ∈ r'.messages fuel := by simpa using hnone
      simp only [ih r' hrest, Option.map_some, leading]

/-- The reader of a file with frames in it has mapped the file. -/
theorem data_new (hraw : Walkable raw) (hne : frames raw ≠ []) : (new raw).data = some raw := by
  unfold Walkable at hraw
  unfold new
  split
  · next hempty =>
    have hzero : raw.length = 0 := by
      have h := congrArg UInt64.toNat hempty
      rwa [UInt64.toNat_ofNat_of_lt' (show _ < 2 ^ 64 by omega), UInt64.toNat_zero] at h
    rw [List.length_eq_zero_iff.mp hzero,
      frames_of_none (Incomplete.nextFrame_eq (Or.inl (by simp)))] at hne
    exact absurd rfl hne
  · rfl

/-- **What `next_message` returns on a whole file**: the frames decoded one by one, and
then nothing any more. -/
theorem messages_new (hraw : Walkable raw) (n : ℕ) :
    (new raw).messages n = ((frames raw).map decodeMessage).take n ++
      List.replicate (n - (frames raw).length) none := by
  have hstart : (0 : UInt64).toNat ≤ raw.length := Nat.zero_le _
  obtain ⟨fs, hw⟩ := exists_walk hraw hstart
  have hframes : fs.map (fun f => f.bytes raw) = frames raw := by
    simpa using hw.bytes_eq
  have hlen : fs.length = (frames raw).length := by rw [← hframes, List.length_map]
  rw [messages_eq, hw.calls_new hraw, List.map_append, List.map_replicate, hlen]
  congr 1
  by_cases hne : frames raw = []
  · have hnil : fs = [] := by
      rw [hne] at hframes
      exact List.map_eq_nil_iff.mp hframes
    rw [hnil, hne]
    simp
  · rw [data_new hraw hne, ← hframes, List.map_take, List.map_map, List.map_map]
    rfl

/-- **Draining a whole file** ends in front of the first frame that does not decode. -/
theorem drain_new (hraw : Walkable raw) {fuel : ℕ} (hfuel : raw.length < fuel) :
    (new raw).drain fuel = some (leadingMessages raw) := by
  have hlen : (frames raw).length ≤ raw.length := Pipeline.length_frames_le raw
  obtain ⟨k, hk⟩ : ∃ k, fuel - (frames raw).length = k + 1 :=
    ⟨fuel - (frames raw).length - 1, by omega⟩
  have hmsgs : (new raw).messages fuel =
      (frames raw).map decodeMessage ++ none :: List.replicate k none := by
    rw [messages_new hraw, hk, List.take_of_length_le (by rw [List.length_map]; omega),
      List.replicate_succ]
  rw [drain_eq _ _ (by rw [hmsgs]; simp), hmsgs, leading_append_none, leadingMessages]

end ItchFileReader

/-! ### The reader and the pipeline -/

open Pipeline in
/-- When the producer has left its loop it has pushed all the messages there are. -/
theorem pushed_of_exited {raw : Span} {b₀ : OrderBook} {ringBufferCapacity : UInt64}
    {threads : List Thread} {s : Pipeline}
    (hrun : (Pipeline.new b₀ ringBufferCapacity).run raw.bytes threads = some s)
    (hexit : s.producer = .exited) : s.ring.pushed = decodedMessages raw.bytes := by
  obtain ⟨s', applied, hrun', h⟩ :=
    (inv_new raw.bytes b₀ ringBufferCapacity).run raw.walkable threads
  rw [hrun] at hrun'
  cases hrun'
  have hproducer := h.producer
  rw [hexit] at hproducer
  exact hproducer

/-- **Draining a file and the pipeline compared.**  Called until it first returns nothing,
`next_message` gives the messages of the frames in front of the first one that does not
decode.  They are the first of those the producer pushes for the same bytes, and all of
them exactly when no frame that decodes stands behind one that does not.  Called on, it
gives them all. -/
theorem drain_until_undecodable (raw : Span) :
    (∀ fuel, raw.bytes.length < fuel →
      (ItchFileReader.new raw.bytes).drain fuel = some (leadingMessages raw.bytes)) ∧
    ∀ (b₀ : OrderBook) (ringBufferCapacity : UInt64) (threads : List Thread) (s : Pipeline),
      (Pipeline.new b₀ ringBufferCapacity).run raw.bytes threads = some s →
      s.producer = .exited →
      leadingMessages raw.bytes <+: s.ring.pushed ∧
      (leadingMessages raw.bytes = s.ring.pushed ↔ NothingBehind raw.bytes) ∧
      ∀ n, (frames raw.bytes).length ≤ n →
        ((ItchFileReader.new raw.bytes).messages n).reduceOption = s.ring.pushed := by
  refine ⟨fun fuel hfuel => ItchFileReader.drain_new raw.walkable hfuel, ?_⟩
  intro b₀ ringBufferCapacity threads s hrun hexit
  rw [pushed_of_exited hrun hexit, decodedMessages_eq]
  refine ⟨leading_prefix_reduceOption _, ?_, fun n hn => ?_⟩
  · rw [leadingMessages, leading_eq_reduceOption_iff, List.pairwise_map, NothingBehind]
  · rw [ItchFileReader.messages_new raw.walkable, List.take_of_length_le (by simpa using hn),
      List.reduceOption_append, List.reduceOption_replicate_none, List.append_nil]

/-- A message of a type that is not supported, and an Order Delete behind it. -/
def unsupportedFirst : List Byte :=
  [0, 1, 90, 0, 19, 68, 0, 0, 0, 0, 0, 0, 0, 0, 0, 0, 0, 0, 0, 0, 0, 0, 0, 1]

/-- Drained up to the first empty answer the file has no message, while the producer
pushes one. -/
theorem drain_misses_message :
    (ItchFileReader.new unsupportedFirst).drain 25 = some [] ∧
      ((Pipeline.new (OrderBook.new 1000 2 4) 1).run unsupportedFirst
        (List.replicate 9 Thread.producer)).map (fun s => (s.producer, s.ring.pushed.length)) =
          some (.exited, 1) := by
  refine ⟨by rfl, by rfl⟩

/-- The pipeline pushes the message that stands behind the other one, and draining the
file does not find it. -/
theorem drain_until_undecodable_first :
    ∃ s, (Pipeline.new (OrderBook.new 1000 2 4) 1).run unsupportedFirst
        (List.replicate 9 Thread.producer) = some s ∧
      leadingMessages unsupportedFirst <+: s.ring.pushed ∧
      ((ItchFileReader.new unsupportedFirst).messages 24).reduceOption = s.ring.pushed := by
  have hwalk : Walkable unsupportedFirst := by
    unfold Walkable
    decide
  obtain ⟨s, hrun, hexit⟩ : ∃ s, (Pipeline.new (OrderBook.new 1000 2 4) 1).run unsupportedFirst
      (List.replicate 9 Thread.producer) = some s ∧ s.producer = .exited := ⟨_, rfl, rfl⟩
  obtain ⟨hpre, -, hall⟩ := (drain_until_undecodable ⟨unsupportedFirst, hwalk⟩).2 _ _ _ s hrun hexit
  exact ⟨s, hrun, hpre, hall 24 (Pipeline.length_frames_le _)⟩

end Liquibook
