import Liquibook.Lib.Fairness
import Liquibook.Pipeline.ItchPipeline

/-!
# The pipeline comes to its end

Both threads of `run_itch_pipeline` wait in loops: the producer calls `push` again as long as
the buffer is full, and the consumer calls `pop` again as long as it is empty and the flag
is not set.  A scheduler that never lets one of them run keeps the other waiting for ever.
One that lets both run again and again brings the pipeline to its end, wherever it
takes turns.

What is left to do is a number: of the bytes the producer has not walked over, of the
messages in the buffer, and of what the consumer holds in its hands.  A step that waits
leaves it as it is.  The thread that need not wait is the helpful one, and it is a few
accesses away from a step that makes the number smaller.

## Main definitions

* `Pipeline.work` — what is left to do.
* `Pipeline.helpful` — the thread that need not wait.
* `Pipeline.rank` — what is left to do, and how far the helpful thread is from doing it.

## Main results

* `Pipeline.producerStep_rank`, `Pipeline.consumerStep_rank` — what the steps do to the rank.
* `pipeline_terminates` — **every fair scheduler brings the pipeline to its end.**
-/

namespace Liquibook

open Lib

/-! ### What is left to do -/

/-- What is left to do for the producer, in a byte string of length `n`. -/
def ProducerAt.work (n : ℕ) (push : PushCall DecodedMessage) : ProducerAt → ℕ
  | .loop offset => 16 * (n - offset.toNat) + 2
  | .pushing _ offset =>
      match push with
      | .returned true => 16 * (n - offset.toNat) + 3
      | _ => 16 * (n - offset.toNat) + 10
  | .leaving => 1
  | .exited => 0

/-- What is left to do for the consumer with the message that it holds. -/
def ConsumerAt.work (pop : PopCall DecodedMessage) : ConsumerAt → ℕ
  | .popping _ =>
      match pop with
      | .returned (some _) => 2
      | _ => 0
  | .applying _ => 1
  | _ => 0

/-- How many accesses a call of `push` is away from its store, when there is room. -/
def PushCall.position : PushCall DecodedMessage → ℕ
  | .returned false => 4
  | .entered _ => 3
  | .loaded _ _ => 2
  | .room _ _ => 1
  | _ => 0

/-- A call of `push` that has not seen room yet. -/
def PushCall.waiting : PushCall DecodedMessage → Bool
  | .entered _ => true
  | .loaded _ _ => true
  | .returned false => true
  | _ => false

def ProducerAt.position (push : PushCall DecodedMessage) : ProducerAt → ℕ
  | .pushing _ _ => push.position
  | _ => 0

/-- How many accesses the consumer is away from the next store of `pop`, or from its end
when `nothing` is left to pop and nothing will be pushed. -/
def ConsumerAt.position (pop : PopCall DecodedMessage) (nothing : Bool) : ConsumerAt → ℕ
  | .popping last =>
      match pop with
      | .entered => if nothing && !last then 8 else 4
      | .loaded _ => if nothing && !last then 7 else 3
      | .ready _ => 2
      | .taken _ _ => 1
      | .returned none => if last then 2 else 6
      | .returned (some _) => 0
  | .checking => 5
  | _ => 0

namespace Pipeline

/-- The producer cannot go on before a message is popped. -/
def blocked (s : Pipeline) : Bool :=
  match s.producer with
  | .pushing _ _ => s.ring.push.waiting &&
      decide (s.ring.pushed.length = s.ring.popped.length + s.ring.buf.capacity.toNat)
  | _ => false

/-- The thread that need not wait: the producer unless it is blocked or at its end. -/
def helpful (s : Pipeline) : Thread :=
  if s.producer = .exited ∨ s.blocked = true then .consumer else .producer

/-- Everything that has been pushed has been popped. -/
def nothing (s : Pipeline) : Bool := decide (s.ring.pushed.length = s.ring.popped.length)

/-- What is left to do. -/
def work (raw : List Byte) (s : Pipeline) : ℕ :=
  s.producer.work raw.length s.ring.push + 4 * (s.ring.pushed.length - s.ring.popped.length) +
    s.consumer.work s.ring.pop

/-- How far the helpful thread is from a step that does some of the work. -/
def position (s : Pipeline) : ℕ :=
  match s.helpful with
  | .producer => s.producer.position s.ring.push
  | .consumer => s.consumer.position s.ring.pop s.nothing

def rank (raw : List Byte) (s : Pipeline) : ℕ := 10 * s.work raw + s.position

variable {raw : List Byte} {b₀ : OrderBook} {s s' : Pipeline} {applied : List DecodedMessage}

theorem position_le (s : Pipeline) : s.position ≤ 8 := by
  unfold position
  cases s.helpful with
  | producer =>
    dsimp only
    unfold ProducerAt.position PushCall.position
    repeat' split
    all_goals omega
  | consumer =>
    dsimp only
    unfold ConsumerAt.position
    repeat' split
    all_goals omega

/-- Work that is done lowers the rank, wherever it leaves the threads. -/
theorem rank_lt_of_work (h : s'.work raw < s.work raw) : s'.rank raw < s.rank raw := by
  have := s'.position_le
  unfold rank
  omega

/-- What a step that does not do any of the work does to the rank. -/
theorem rank_of_position (hwork : s'.work raw = s.work raw) (hpos : s'.position < s.position) :
    s'.rank raw < s.rank raw := by
  unfold rank
  omega

theorem rank_of_same (hwork : s'.work raw = s.work raw) (hpos : s'.position = s.position) :
    s'.rank raw = s.rank raw := by
  unfold rank
  rw [hwork, hpos]

theorem helpful_of_exited (h : s.producer = .exited) : s.helpful = .consumer := if_pos (Or.inl h)

/-- Only the producer's own state and the two lengths say who is helpful. -/
theorem helpful_congr (hproducer : s'.producer = s.producer) (hpush : s'.ring.push = s.ring.push)
    (hpushed : s'.ring.pushed = s.ring.pushed) (hpopped : s'.ring.popped = s.ring.popped)
    (hcapacity : s'.ring.buf.capacity = s.ring.buf.capacity) : s'.helpful = s.helpful := by
  unfold helpful blocked
  rw [hproducer, hpush, hpushed, hpopped, hcapacity]

/-- The consumer is helpful when there is something to pop, or the producer is at its end. -/
theorem exited_or_full (h : s.helpful = .consumer) : s.producer = .exited ∨
    s.ring.pushed.length = s.ring.popped.length + s.ring.buf.capacity.toNat := by
  unfold helpful at h
  split at h
  · next hc =>
    refine hc.imp_right fun hblocked => ?_
    unfold blocked at hblocked
    split at hblocked
    · rw [Bool.and_eq_true, decide_eq_true_eq] at hblocked
      exact hblocked.2
    · cases hblocked
  · cases h

/-! ### The producer -/

/-- An access of `push` that does none of the work: it leads on towards the store, or the
producer is blocked and stays so. -/
theorem producer_waits {decoded : DecodedMessage} {offset offset' : UInt64}
    (hs : s.producer = .pushing decoded offset) (hs' : s'.producer = .pushing decoded offset')
    (hconsumer : s'.consumer = s.consumer) (hpop : s'.ring.pop = s.ring.pop)
    (hpushed : s'.ring.pushed = s.ring.pushed) (hpopped : s'.ring.popped = s.ring.popped)
    (hwork : s'.producer.work raw.length s'.ring.push = s.producer.work raw.length s.ring.push)
    (hblocked : s'.blocked = s.blocked)
    (hpos : s.blocked = false → s'.ring.push.position < s.ring.push.position) :
    s'.rank raw < s.rank raw ∨
      s'.rank raw = s.rank raw ∧ s'.helpful = s.helpful ∧ s.helpful = .consumer := by
  have hwork' : s'.work raw = s.work raw := by
    unfold work
    rw [hwork, hconsumer, hpop, hpushed, hpopped]
  have hnot : s.producer ≠ .exited := by
    rw [hs]
    simp
  have hnot' : s'.producer ≠ .exited := by
    rw [hs']
    simp
  have hhelpful : s'.helpful = s.helpful := by
    unfold helpful
    rw [hblocked]
    simp only [hnot, hnot']
  cases hb : s.blocked with
  | true =>
    have hc : s.helpful = .consumer := if_pos (Or.inr hb)
    refine Or.inr ⟨rank_of_same hwork' ?_, hhelpful, hc⟩
    unfold position nothing
    rw [hhelpful, hc, hconsumer, hpop, hpushed, hpopped]
  | false =>
    have hp : s.helpful = .producer := by
      unfold helpful
      rw [hb]
      simp only [hnot]
      rfl
    refine Or.inl (rank_of_position hwork' ?_)
    unfold position
    rw [hhelpful, hp, hs, hs']
    exact hpos hb

/-- **A step of the producer** lowers the rank, or leaves it and the consumer is helpful. -/
theorem producerStep_rank (hraw : Walkable raw) (h : s.Inv raw b₀ applied) :
    (s.producerStep raw).rank raw < s.rank raw ∨
      (s.producerStep raw).rank raw = s.rank raw ∧ (s.producerStep raw).helpful = s.helpful ∧
        s.helpful = .consumer := by
  obtain ⟨ring, done, processed, book, producer, consumer⟩ := s
  cases producer with
  | loop offset =>
    obtain ⟨hoff, -⟩ : offset.toNat ≤ raw.length ∧ _ := h.producer
    refine Or.inl (rank_lt_of_work ?_)
    obtain ⟨hp, -⟩ | ⟨f, offset', hp, -, hoff', hlt, -⟩ := producerFrame_cases hraw hoff
    · simp only [Pipeline.producerStep, hp, work, ProducerAt.work]
      omega
    · cases hd : decodeMessage (f.bytes raw) with
      | none =>
        simp only [Pipeline.producerStep, hp, hd, work, ProducerAt.work]
        omega
      | some decoded =>
        simp only [Pipeline.producerStep, hp, hd, work, ProducerAt.work, callPush]
        omega
  | pushing decoded offset =>
    obtain ⟨buf, push, pop, pushed, popped⟩ := ring
    have hfull := h.ring.full_iff
    have hpushInv := h.ring.push
    cases push with
    | entered value =>
      refine producer_waits rfl rfl rfl rfl rfl rfl rfl rfl fun _ => ?_
      exact Nat.lt_succ_self 2
    | loaded value write =>
      obtain rfl : write = UInt64.ofNat pushed.length := hpushInv
      by_cases hge : UInt64.ofNat pushed.length - buf.readIndex ≥ buf.capacity
      · -- no room: the producer is blocked, before and after
        have hlen : pushed.length = popped.length + buf.capacity.toNat := hfull.mp hge
        simp only [Pipeline.producerStep, Ring.pushStep, SpscRingBuffer.pushStep, if_pos hge]
        refine producer_waits rfl rfl rfl rfl rfl rfl rfl ?_ fun hb => ?_
        · simp [blocked, PushCall.waiting]
        · simp [blocked, PushCall.waiting, hlen] at hb
      · have hlen : ¬ pushed.length = popped.length + buf.capacity.toNat := fun e =>
          hge (hfull.mpr e)
        simp only [Pipeline.producerStep, Ring.pushStep, SpscRingBuffer.pushStep, if_neg hge]
        refine producer_waits rfl rfl rfl rfl rfl rfl rfl ?_ fun _ => Nat.lt_succ_self 1
        simp [blocked, PushCall.waiting, hlen]
    | room value write =>
      refine producer_waits rfl rfl rfl rfl rfl rfl rfl rfl fun _ => ?_
      exact Nat.lt_succ_self 0
    | filled value write =>
      -- the store: a message less to push, and one more to pop
      refine Or.inl (rank_lt_of_work ?_)
      have hlen : (pushed ++ [value]).length = pushed.length + 1 := List.length_append
      simp only [Pipeline.producerStep, Ring.pushStep, SpscRingBuffer.pushStep, work,
        ProducerAt.work, hlen]
      omega
    | returned ok =>
      cases ok with
      | true =>
        refine Or.inl (rank_lt_of_work ?_)
        simp only [Pipeline.producerStep, work, ProducerAt.work]
        omega
      | false =>
        refine producer_waits rfl rfl rfl rfl rfl rfl rfl rfl fun _ => ?_
        exact Nat.lt_succ_self 3
  | leaving =>
    refine Or.inl (rank_lt_of_work ?_)
    simp only [Pipeline.producerStep, work, ProducerAt.work]
    omega
  | exited => exact Or.inr ⟨rfl, rfl, helpful_of_exited rfl⟩

/-! ### The consumer -/

/-- A step of the consumer that does none of the work: it leads on towards the next pop or
the end, or the producer is helpful, and does not notice. -/
theorem consumer_waits (hproducer : s'.producer = s.producer)
    (hpush : s'.ring.push = s.ring.push) (hpushed : s'.ring.pushed = s.ring.pushed)
    (hpopped : s'.ring.popped = s.ring.popped)
    (hcapacity : s'.ring.buf.capacity = s.ring.buf.capacity)
    (hwork : s'.consumer.work s'.ring.pop = s.consumer.work s.ring.pop)
    (hpos : s.helpful = .consumer →
      s'.consumer.position s'.ring.pop s.nothing < s.consumer.position s.ring.pop s.nothing) :
    s'.rank raw < s.rank raw ∨
      s'.rank raw = s.rank raw ∧ s'.helpful = s.helpful ∧ s.helpful = .producer := by
  have hwork' : s'.work raw = s.work raw := by
    unfold work
    rw [hwork, hproducer, hpush, hpushed, hpopped]
  have hhelpful := helpful_congr hproducer hpush hpushed hpopped hcapacity
  have hnothing : s'.nothing = s.nothing := by
    unfold nothing
    rw [hpushed, hpopped]
  cases hc : s.helpful with
  | producer =>
    refine Or.inr ⟨rank_of_same hwork' ?_, hhelpful.trans hc, rfl⟩
    unfold position
    rw [hhelpful, hc, hproducer, hpush]
  | consumer =>
    refine Or.inl (rank_of_position hwork' ?_)
    unfold position
    rw [hhelpful, hc, hnothing]
    exact hpos hc

/-- The buffer has room for a message at least, so a full buffer is not empty. -/
theorem nothing_of_full (h : s.ring.Inv)
    (hfull : s.ring.pushed.length = s.ring.popped.length + s.ring.buf.capacity.toNat) :
    s.nothing = false := by
  obtain ⟨j, -, hcap⟩ := h.capacity_eq
  have hpos := Nat.two_pow_pos j
  exact decide_eq_false (by omega)

/-- The consumer is at its end only when nothing is left to pop. -/
theorem nothing_of_exited (h : s.Inv raw b₀ applied) (hc : s.consumer = .exited) :
    s.nothing = true := by
  have hle := h.pushed_prefix.length_le
  have hge := h.ring.length_le
  have hconsumer := h.consumer
  rw [hc] at hconsumer
  rw [hconsumer.1.trans hconsumer.2] at hge
  exact decide_eq_true (by rw [hconsumer.1.trans hconsumer.2]; omega)

/-- **A step of the consumer** lowers the rank, or leaves it and the producer is helpful. -/
theorem consumerStep_rank (h : s.Inv raw b₀ applied)
    (hdone : s.producer = .exited → s.producerDone = true) (hnot : ¬ s.Returns)
    (hstep : s.consumerStep = some s') :
    s'.rank raw < s.rank raw ∨
      s'.rank raw = s.rank raw ∧ s'.helpful = s.helpful ∧ s.helpful = .producer := by
  have hfull := fun hc => (exited_or_full hc).imp_right (nothing_of_full h.ring)
  have hexit := nothing_of_exited h
  have hring := h.ring
  obtain ⟨ring, done, processed, book, producer, consumer⟩ := s
  cases consumer with
  | popping last =>
    obtain ⟨buf, push, pop, pushed, popped⟩ := ring
    have hempty := hring.empty_iff
    have hpopInv := hring.pop
    cases pop with
    | entered =>
      obtain rfl := Option.some.inj hstep
      refine consumer_waits rfl rfl rfl rfl rfl rfl fun _ => ?_
      simp only [ConsumerAt.position, Ring.popStep, SpscRingBuffer.popStep]
      split <;> omega
    | loaded read =>
      obtain rfl : read = UInt64.ofNat popped.length := hpopInv
      obtain rfl := Option.some.inj hstep
      by_cases heq : UInt64.ofNat popped.length = buf.writeIndex
      · have hlen : popped.length = pushed.length := hempty.mp heq
        simp only [Ring.popStep, SpscRingBuffer.popStep, if_pos heq]
        refine consumer_waits rfl rfl rfl rfl rfl rfl fun _ => ?_
        cases last <;> simp [ConsumerAt.position, nothing, hlen]
      · have hlen : ¬ pushed.length = popped.length := fun e => heq (hempty.mpr e.symm)
        simp only [Ring.popStep, SpscRingBuffer.popStep, if_neg heq]
        refine consumer_waits rfl rfl rfl rfl rfl rfl fun _ => ?_
        simp [ConsumerAt.position, nothing, hlen]
    | ready read =>
      obtain rfl := Option.some.inj hstep
      refine consumer_waits rfl rfl rfl rfl rfl rfl fun _ => ?_
      exact Nat.lt_succ_self 1
    | taken read out =>
      -- the store: a message less in the buffer, and one in the hands of the consumer
      obtain rfl := Option.some.inj hstep
      obtain ⟨-, hout⟩ : _ ∧ pushed[popped.length]? = some out := hpopInv
      have hlt : popped.length < pushed.length := (List.getElem?_eq_some_iff.mp hout).1
      have hlen : (popped ++ [out]).length = popped.length + 1 := List.length_append
      refine Or.inl (rank_lt_of_work ?_)
      simp only [Ring.popStep, SpscRingBuffer.popStep, work, ConsumerAt.work, hlen]
      omega
    | returned out =>
      cases out with
      | some msg =>
        obtain rfl := Option.some.inj hstep
        refine Or.inl (rank_lt_of_work ?_)
        simp only [work, ConsumerAt.work]
        omega
      | none =>
        obtain rfl := Option.some.inj hstep
        cases last with
        | true =>
          exact consumer_waits rfl rfl rfl rfl rfl rfl fun _ => Nat.zero_lt_two
        | false =>
          exact consumer_waits rfl rfl rfl rfl rfl rfl fun _ => Nat.lt_succ_self 5
  | applying msg =>
    obtain ⟨book', -, rfl⟩ := Option.map_eq_some_iff.mp hstep
    refine Or.inl (rank_lt_of_work ?_)
    simp only [work, ConsumerAt.work, callPop]
    omega
  | checking =>
    obtain rfl := Option.some.inj hstep
    refine consumer_waits rfl rfl rfl rfl rfl rfl fun hc => ?_
    -- when nothing is left to pop the flag has been set, and the next `pop` is the last
    rcases hfull hc with hexited | hsome
    · obtain rfl : done = true := hdone hexited
      simp [ConsumerAt.position, callPop]
    · rw [hsome]
      exact Nat.lt_succ_self 4
  | exited =>
    -- the producer is not at its end, and it is not blocked either
    obtain rfl := Option.some.inj hstep
    refine consumer_waits rfl rfl rfl rfl rfl rfl fun hc => ?_
    rcases hfull hc with hexited | hsome
    · exact absurd ⟨hexited, rfl⟩ hnot
    · rw [hexit rfl] at hsome
      cases hsome

/-! ### Fair schedules -/

/-- When both threads are at their ends, everything has been applied and counted. -/
theorem Inv.replayed_of_returns (h : s.Inv raw b₀ applied) (hraw : Walkable raw)
    (hret : s.Returns) : b₀.applyAll (decodedMessages raw) = some s.book ∧
      s.messagesProcessed.toNat = (decodedMessages raw).length := by
  have hconsumer := h.consumer
  rw [hret.2] at hconsumer
  obtain ⟨-, rfl⟩ := hconsumer
  have hlen := length_decodedMessages_le raw
  have hwalk : raw.length < 2 ^ 64 - 65537 := hraw
  refine ⟨h.book_eq, ?_⟩
  rw [h.processed_eq, UInt64.toNat_ofNat_of_lt' (show _ < 2 ^ 64 by omega)]

/-- What is known along every run: the invariant, and that the flag is set when the producer is
at its end. -/
def Sound (raw : List Byte) (b₀ : OrderBook) (s : Pipeline) : Prop :=
  (∃ applied, s.Inv raw b₀ applied) ∧ (s.producer = .exited → s.producerDone = true)

theorem sound_new (raw : List Byte) (b₀ : OrderBook) (capacity : UInt64) :
    (new b₀ capacity).Sound raw b₀ :=
  ⟨⟨[], inv_new raw b₀ capacity⟩, fun e => (by cases e)⟩

/-- The producer sets the flag on its way out. -/
theorem producerDone_of_producerStep (hdone : s.producer = .exited → s.producerDone = true) :
    (s.producerStep raw).producer = .exited → (s.producerStep raw).producerDone = true := by
  obtain ⟨ring, done, processed, book, producer, consumer⟩ := s
  cases producer with
  | leaving => exact fun _ => rfl
  | exited => exact hdone
  | loop offset =>
    unfold Pipeline.producerStep
    dsimp only
    split
    · exact fun e => (by cases e)
    · split <;> exact fun e => (by cases e)
  | pushing decoded offset =>
    unfold Pipeline.producerStep
    dsimp only
    split <;> exact fun e => (by cases e)

/-- The consumer touches neither the producer nor the flag. -/
theorem consumerStep_frame (hstep : s.consumerStep = some s') :
    s'.producer = s.producer ∧ s'.producerDone = s.producerDone := by
  obtain ⟨ring, done, processed, book, producer, consumer⟩ := s
  cases consumer with
  | popping last =>
    unfold Pipeline.consumerStep at hstep
    dsimp only at hstep
    split at hstep <;> obtain rfl := Option.some.inj hstep <;> exact ⟨rfl, rfl⟩
  | applying msg =>
    obtain ⟨book', -, rfl⟩ := Option.map_eq_some_iff.mp hstep
    exact ⟨rfl, rfl⟩
  | checking =>
    obtain rfl := Option.some.inj hstep
    exact ⟨rfl, rfl⟩
  | exited =>
    obtain rfl := Option.some.inj hstep
    exact ⟨rfl, rfl⟩

/-- **The thread that need not wait brings the end nearer.** -/
theorem helps (hraw : Walkable raw) (b₀ : OrderBook) :
    Helps (step raw) (Sound raw b₀) Returns (rank raw) helpful where
  steps := by
    rintro s thread ⟨⟨applied, h⟩, hdone⟩
    cases thread with
    | producer =>
      exact ⟨_, rfl, ⟨applied, h.producerStep hraw⟩, producerDone_of_producerStep hdone⟩
    | consumer =>
      obtain ⟨s', applied', hstep, h'⟩ := h.consumerStep
      obtain ⟨hproducer, hflag⟩ := consumerStep_frame hstep
      exact ⟨s', hstep, ⟨applied', h'⟩, by rwa [hproducer, hflag]⟩
  waits := by
    rintro s thread s' ⟨⟨applied, h⟩, hdone⟩ hnot hstep
    cases thread with
    | producer =>
      obtain rfl := Option.some.inj hstep
      exact (producerStep_rank hraw h).imp_right fun hsame => ⟨hsame.1, hsame.2.1⟩
    | consumer =>
      exact (consumerStep_rank h hdone hnot hstep).imp_right fun hsame => ⟨hsame.1, hsame.2.1⟩
  drops := by
    rintro s s' ⟨⟨applied, h⟩, hdone⟩ hnot hstep
    -- a step that leaves the rank alone is not one of the helpful thread
    cases hhelpful : s.helpful with
    | producer =>
      rw [hhelpful] at hstep
      obtain rfl := Option.some.inj hstep
      refine (producerStep_rank hraw h).resolve_right fun hsame => ?_
      rw [hsame.2.2] at hhelpful
      cases hhelpful
    | consumer =>
      rw [hhelpful] at hstep
      refine (consumerStep_rank h hdone hnot hstep).resolve_right fun hsame => ?_
      rw [hsame.2.2] at hhelpful
      cases hhelpful

/-- When both threads are at their ends nothing happens any more. -/
theorem Returns.step_eq (h : s.Returns) (thread : Thread) : s.step raw thread = some s := by
  obtain ⟨ring, done, processed, book, producer, consumer⟩ := s
  obtain ⟨rfl, rfl⟩ : producer = .exited ∧ consumer = .exited := h
  cases thread <;> rfl

end Pipeline

open Pipeline in
/-- **Every fair scheduler brings the pipeline to its end.**  However the scheduler takes
turns, if it lets both threads run again and again there is a moment from which on both are
at their ends, all messages have been applied in order, and they have been counted. -/
theorem pipeline_terminates (raw : Span) (b₀ : OrderBook) (ringBufferCapacity : UInt64)
    {schedule : ℕ → Thread} (hfair : Fair schedule) :
    ∃ n s, s.Returns ∧ b₀.applyAll (decodedMessages raw.bytes) = some s.book ∧
      s.messagesProcessed.toNat = (decodedMessages raw.bytes).length ∧
      ∀ m, n ≤ m →
        (Pipeline.new b₀ ringBufferCapacity).run raw.bytes (choices schedule m) = some s := by
  obtain ⟨n, s, hrun, ⟨⟨applied, h⟩, -⟩, hret⟩ :=
    (helps raw.walkable b₀).terminates hfair (sound_new raw.bytes b₀ ringBufferCapacity)
  obtain ⟨hbook, hcount⟩ := h.replayed_of_returns raw.walkable hret
  refine ⟨n, s, hret, hbook, hcount, fun m hm => ?_⟩
  obtain ⟨k, rfl⟩ := Nat.exists_eq_add_of_le hm
  rw [Pipeline.run, choices_add, List.foldlM_append, hrun]
  exact foldlM_of_fixed hret.step_eq _

/-- Two threads that take turns. -/
theorem fair_turns : Fair fun n => if n % 2 = 0 then Thread.producer else Thread.consumer := by
  intro thread n
  cases thread with
  | producer => exact ⟨2 * n, by omega, by simp⟩
  | consumer => exact ⟨2 * n + 1, by omega, by simp⟩

/-- The frames of an Add Order message, for 100 shares at 1000, and of an Order Executed message,
for 40 of them. -/
def orderAndExecution : List Byte :=
  [0, 36, 65, 0, 1, 0, 1, 0, 0, 0, 0, 0, 1, 0, 0, 0, 0, 0, 0, 0, 7, 66, 0, 0, 0, 100,
    65, 66, 67, 68, 32, 32, 32, 32, 0, 0, 3, 232,
    0, 31, 69, 0, 1, 0, 2, 0, 0, 0, 0, 0, 2, 0, 0, 0, 0, 0, 0, 0, 7, 0, 0, 0, 40,
    0, 0, 0, 0, 0, 0, 0, 1]

theorem walkable_orderAndExecution : Walkable orderAndExecution := by
  unfold Walkable
  decide

theorem decodedMessages_orderAndExecution : decodedMessages orderAndExecution =
    [(orderAndExecution.drop 2).take 36, orderAndExecution.drop 40].filterMap decodeMessage := by
  have hadd : nextFrame orderAndExecution =
      some ((orderAndExecution.drop 2).take 36, orderAndExecution.drop 38) := by decide +kernel
  have hexecute : nextFrame (orderAndExecution.drop 38) =
      some (orderAndExecution.drop 40, []) := by decide +kernel
  rw [decodedMessages, frames_of_some hadd, frames_of_some hexecute, frames_of_none rfl]

/-- What the two messages make of a new book. -/
theorem sharesAt_orderAndExecution {b : OrderBook}
    (h : (OrderBook.new 1000 2 4).applyAll (decodedMessages orderAndExecution) = some b) :
    b.sharesAt 1000 true = 60 ∧ b.orderCount = 1 := by
  have hview : ((OrderBook.new 1000 2 4).applyAll ([(orderAndExecution.drop 2).take 36,
      orderAndExecution.drop 40].filterMap decodeMessage)).map
        (fun b => (b.sharesAt 1000 true, b.orderCount)) = some (60, 1) := by decide +kernel
  rw [← decodedMessages_orderAndExecution, h] at hview
  exact Prod.mk.inj (Option.some.inj hview)

theorem length_orderAndExecution : (decodedMessages orderAndExecution).length = 2 := by
  rw [decodedMessages_orderAndExecution]
  decide +kernel

/-- An order and its execution, through a buffer for one message. -/
theorem pipeline_terminates_execution :
    ∃ n s, s.Returns ∧ (s.book.sharesAt 1000 true = 60 ∧ s.book.orderCount = 1) ∧
      s.messagesProcessed.toNat = 2 ∧ ∀ m, n ≤ m →
        (Pipeline.new (OrderBook.new 1000 2 4) 1).run orderAndExecution
          (choices (fun n => if n % 2 = 0 then Thread.producer else Thread.consumer) m) =
            some s := by
  obtain ⟨n, s, hret, hbook, hcount, hrun⟩ := pipeline_terminates
    ⟨orderAndExecution, walkable_orderAndExecution⟩ (OrderBook.new 1000 2 4) 1 fair_turns
  exact ⟨n, s, hret, sharesAt_orderAndExecution hbook, hcount.trans length_orderAndExecution, hrun⟩

end Liquibook
