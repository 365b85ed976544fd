import Liquibook.Containers.SpscRingBuffer
import Liquibook.Itch.Apply
import Liquibook.Itch.Framing

/-!
# The two-thread pipeline

`run_itch_pipeline` of `pipeline/itch_pipeline.hpp`: a producer walks over the frames of a
byte string and pushes what it decodes into a ring buffer, a consumer pops the messages
and feeds them to a book.  A flag that the producer sets at its end tells the consumer
that an empty buffer will stay empty.  The flag may be set between a pop that fails and
the load that follows it, so the consumer pops once more after it has seen the
flag.

A step is one access of one thread to what the two share.  An interleaving is a list that
says which thread makes the next step.

## Main definitions

* `Span` — a byte string that an address space can hold.
* `Pipeline`, `producerStep`, `consumerStep` — the state, and the steps of the threads.
* `Pipeline.run` — the run along an interleaving.
* `Pipeline.Inv` — the invariant.

## Main results

* `Pipeline.Inv.producerStep`, `Pipeline.Inv.consumerStep` — **the steps keep the invariant.**
* `pipeline_equals_replay` — **every interleaving replays the messages in order.**
-/

namespace Liquibook

/-- `std::span<const std::byte>`.  No span comes so close to the end of the address space that
an offset behind a frame would wrap. -/
structure Span where
  bytes : List Byte
  walkable : Walkable bytes

/-- Where the producer stands. -/
inductive ProducerAt where
  /-- At the head of the loop. -/
  | loop (offset : UInt64)
  /-- In the inner loop, with a message that is not pushed yet, or in the call that pushes
  it; the loop goes on at the offset. -/
  | pushing (decoded : DecodedMessage) (offset : UInt64)
  /-- Behind the loop. -/
  | leaving
  | exited
  deriving DecidableEq

/-- Where the consumer stands. -/
inductive ConsumerAt where
  /-- In a call of `pop`: the first one of an iteration, or the last one, which is made
  when the flag has been seen. -/
  | popping (last : Bool)
  /-- A message has been popped. -/
  | applying (msg : DecodedMessage)
  /-- The first `pop` has failed. -/
  | checking
  | exited
  deriving DecidableEq

/-- The state of `run_itch_pipeline`, with the local variables of the threads. -/
structure Pipeline where
  ring : Ring DecodedMessage
  producerDone : Bool := false
  messagesProcessed : UInt64 := 0
  book : OrderBook
  producer : ProducerAt := .loop 0
  consumer : ConsumerAt := .popping false

/-- The two threads. -/
inductive Thread where
  | producer
  | consumer
  deriving DecidableEq, Repr

namespace Pipeline

/-- The threads have been started. -/
def new (book : OrderBook) (ringBufferCapacity : UInt64) : Pipeline where
  ring := { Ring.new DecodedMessage ringBufferCapacity with pop := .entered }
  book := book

/-- The producer enters `push`. -/
def callPush (s : Pipeline) (decoded : DecodedMessage) (offset : UInt64) : Pipeline :=
  { s with
    ring := { s.ring with push := .entered decoded }
    producer := .pushing decoded offset }

/-- The consumer enters `pop`. -/
def callPop (s : Pipeline) (last : Bool) : Pipeline :=
  { s with
    ring := { s.ring with pop := .entered }
    consumer := .popping last }

/-- A step of the producer. -/
def producerStep (raw : List Byte) (s : Pipeline) : Pipeline :=
  match s.producer with
  | .loop offset =>
      match producerFrame raw offset with
      | none => { s with producer := .leaving }
      | some (f, offset') =>
          match decodeMessage (f.bytes raw) with
          | none => { s with producer := .loop offset' }
          | some decoded => s.callPush decoded offset'
  | .pushing decoded offset =>
      match s.ring.push with
      | .returned true => { s with producer := .loop offset }
      | .returned false => s.callPush decoded offset
      | _ => { s with ring := s.ring.pushStep }
  | .leaving => { s with producerDone := true, producer := .exited }
  | .exited => s

/-- A step of the consumer; `none` when an assertion fails in `apply`. -/
def consumerStep (s : Pipeline) : Option Pipeline :=
  match s.consumer with
  | .popping last =>
      match s.ring.pop with
      | .returned (some msg) => some { s with consumer := .applying msg }
      | .returned none => some { s with consumer := if last then .exited else .checking }
      | _ => some { s with ring := s.ring.popStep }
  | .applying msg =>
      (s.book.apply msg).map fun book =>
        { s with book := book, messagesProcessed := s.messagesProcessed + 1 }.callPop false
  | .checking => some (s.callPop s.producerDone)
  | .exited => some s

/-- A step of one of the threads. -/
def step (raw : List Byte) (s : Pipeline) : Thread → Option Pipeline
  | .producer => some (s.producerStep raw)
  | .consumer => s.consumerStep

/-- The run along an interleaving. -/
def run (raw : List Byte) (s : Pipeline) (threads : List Thread) : Option Pipeline :=
  threads.foldlM (step raw) s

/-- Both threads can be joined, and `run_itch_pipeline` returns. -/
def Returns (s : Pipeline) : Prop := s.producer = .exited ∧ s.consumer = .exited

/-! ### The invariant -/

/-- The message that a call of `push` is about. -/
def Carries (decoded : DecodedMessage) : PushCall DecodedMessage → Prop
  | .entered value => value = decoded
  | .loaded value _ => value = decoded
  | .room value _ => value = decoded
  | .filled value _ => value = decoded
  | .returned _ => True

/-- The message, as long as the call that pushes it has not succeeded. -/
def awaiting (decoded : DecodedMessage) : PushCall DecodedMessage → List DecodedMessage
  | .returned true => []
  | _ => [decoded]

/-- What has been pushed, and what is left to be pushed. -/
def ProducerInv (raw : List Byte) (ring : Ring DecodedMessage) : ProducerAt → Prop
  | .loop offset => offset.toNat ≤ raw.length ∧
      ring.pushed ++ decodedMessages (raw.drop offset.toNat) = decodedMessages raw
  | .pushing decoded offset => offset.toNat ≤ raw.length ∧ Carries decoded ring.push ∧
      ring.pushed ++ awaiting decoded ring.push ++ decodedMessages (raw.drop offset.toNat) =
        decodedMessages raw
  | .leaving => ring.pushed = decodedMessages raw
  | .exited => ring.pushed = decodedMessages raw

/-- The message that a call of `pop` has returned. -/
def held : PopCall DecodedMessage → List DecodedMessage
  | .returned (some msg) => [msg]
  | _ => []

/-- What has been popped, and what of it has been applied.  When the last `pop` fails
everything has been. -/
def ConsumerInv (raw : List Byte) (ring : Ring DecodedMessage) (producerDone : Bool)
    (applied : List DecodedMessage) : ConsumerAt → Prop
  | .popping last =>
      (last = true → producerDone = true ∧
        (ring.pop = .returned none → applied = decodedMessages raw)) ∧
      ring.popped = applied ++ held ring.pop
  | .applying msg => ring.popped = applied ++ [msg]
  | .checking => ring.popped = applied
  | .exited => ring.popped = applied ∧ applied = decodedMessages raw

/-- **The invariant**, for a run from the book `b₀`. -/
structure Inv (raw : List Byte) (b₀ : OrderBook) (s : Pipeline) (applied : List DecodedMessage) :
    Prop where
  ring : s.ring.Inv
  producer : ProducerInv raw s.ring s.producer
  done : s.producerDone = true → s.producer = .exited
  consumer : ConsumerInv raw s.ring s.producerDone applied s.consumer
  book_eq : b₀.applyAll applied = some s.book
  processed_eq : s.messagesProcessed = UInt64.ofNat applied.length

theorem held_of_underWay {c : PopCall DecodedMessage} (h : c.UnderWay) : held c = [] := by
  cases c with
  | returned out => exact absurd rfl (h out)
  | _ => rfl

/-! ### The producer -/

section Producer

variable {raw : List Byte} {ring ring' : Ring DecodedMessage} {p : ProducerAt}

/-- What the producer knows does not depend on the consumer. -/
theorem ProducerInv.congr (h : ProducerInv raw ring p) (hpush : ring'.push = ring.push)
    (hpushed : ring'.pushed = ring.pushed) : ProducerInv raw ring' p := by
  cases p with
  | pushing decoded offset =>
    unfold ProducerInv at h ⊢
    rwa [hpush, hpushed]
  | _ =>
    unfold ProducerInv at h ⊢
    rwa [hpushed]

/-- An access of `push` keeps what the producer knows. -/
theorem ProducerInv.pushStep {decoded : DecodedMessage} {offset : UInt64}
    (h : ProducerInv raw ring (.pushing decoded offset)) (hcall : ring.push.UnderWay) :
    ProducerInv raw ring.pushStep (.pushing decoded offset) := by
  obtain ⟨buf, call, pop, pushed, popped⟩ := ring
  obtain ⟨hoff, hcarries, hpushed⟩ := h
  refine ⟨hoff, ?_⟩
  cases call with
  | entered value => exact ⟨hcarries, hpushed⟩
  | loaded value write =>
    simp only [Ring.pushStep, SpscRingBuffer.pushStep]
    split
    · exact ⟨trivial, hpushed⟩
    · exact ⟨hcarries, hpushed⟩
  | room value write => exact ⟨hcarries, hpushed⟩
  | filled value write =>
    obtain rfl : value = decoded := hcarries
    refine ⟨trivial, ?_⟩
    change pushed ++ [value] ++ [] ++ _ = _
    rw [List.append_nil]
    exact hpushed
  | returned ok => exact absurd rfl (hcall ok)

end Producer

/-! ### The consumer -/

/-- What the consumer knows does not depend on the producer. -/
theorem ConsumerInv.congr {raw : List Byte} {ring ring' : Ring DecodedMessage} {done done' : Bool}
    {applied : List DecodedMessage} {c : ConsumerAt} (h : ConsumerInv raw ring done applied c)
    (hpop : ring'.pop = ring.pop) (hpopped : ring'.popped = ring.popped)
    (hdone : done = true → done' = true) : ConsumerInv raw ring' done' applied c := by
  cases c with
  | popping last =>
    unfold ConsumerInv at h ⊢
    rw [hpop, hpopped]
    exact ⟨fun hlast => ⟨hdone (h.1 hlast).1, (h.1 hlast).2⟩, h.2⟩
  | _ =>
    unfold ConsumerInv at h ⊢
    rwa [hpopped]

/-- No assertion fails on what has been decoded. -/
theorem wellFormed_of_mem {raw : List Byte} {msg : DecodedMessage}
    (h : msg ∈ decodedMessages raw) : msg.WellFormed := by
  obtain ⟨frame, -, hframe⟩ := List.mem_filterMap.mp h
  exact (decodeMessage_eq_some hframe).1

/-! ### The steps -/

namespace Inv

variable {raw : List Byte} {b₀ : OrderBook} {s : Pipeline} {applied : List DecodedMessage}

/-- The producer enters `push` with the next message. -/
theorem callPush {decoded : DecodedMessage} {offset : UInt64} (h : s.Inv raw b₀ applied)
    (hdone : s.producerDone = false) (hoff : offset.toNat ≤ raw.length)
    (hpushed : s.ring.pushed ++ [decoded] ++ decodedMessages (raw.drop offset.toNat) =
      decodedMessages raw) : (s.callPush decoded offset).Inv raw b₀ applied :=
  { h with
    ring := { h.ring with push := trivial }
    producer := ⟨hoff, rfl, hpushed⟩
    done := fun e => absurd e (by simp [Pipeline.callPush, hdone]) }

/-- **The producer's steps keep the invariant.** -/
theorem producerStep (hraw : Walkable raw) (h : s.Inv raw b₀ applied) :
    (s.producerStep raw).Inv raw b₀ applied := by
  have hdone : s.producer ≠ .exited → s.producerDone = false := by
    intro hp
    by_contra hd
    exact hp (h.done (Bool.eq_true_of_not_eq_false hd))
  obtain ⟨ring, done, processed, book, producer, consumer⟩ := s
  cases producer with
  | loop offset =>
    obtain rfl : done = false := hdone (by simp)
    obtain ⟨hoff, hpushed⟩ :
      offset.toNat ≤ raw.length ∧ ring.pushed ++ _ = decodedMessages raw := h.producer
    obtain ⟨hp, hn⟩ | ⟨f, offset', hp, -, hoff', -, hn⟩ := producerFrame_cases hraw hoff
    · simp only [Pipeline.producerStep, hp]
      rw [decodedMessages_of_none hn, List.append_nil] at hpushed
      exact { h with producer := hpushed, done := fun e => (by cases e) }
    · rw [decodedMessages_of_some hn] at hpushed
      cases hd : decodeMessage (f.bytes raw) with
      | none =>
        rw [hd] at hpushed
        simp only [Pipeline.producerStep, hp, hd]
        exact { h with producer := ⟨hoff', hpushed⟩, done := fun e => (by cases e) }
      | some decoded =>
        rw [hd, Option.toList_some, ← List.append_assoc] at hpushed
        simp only [Pipeline.producerStep, hp, hd]
        exact h.callPush rfl hoff' hpushed
  | pushing decoded offset =>
    obtain rfl : done = false := hdone (by simp)
    have hproducer : ProducerInv raw ring (.pushing decoded offset) := h.producer
    obtain ⟨hoff, -, hpushed⟩ := id hproducer
    unfold Pipeline.producerStep
    dsimp only
    split
    next hpush =>
      rw [hpush, awaiting, List.append_nil] at hpushed
      exact { h with producer := ⟨hoff, hpushed⟩, done := fun e => (by cases e) }
    next hpush =>
      rw [hpush] at hpushed
      exact h.callPush rfl hoff hpushed
    next hne₁ hne₂ =>
      have hcall : ring.push.UnderWay := fun ok =>
        match ok with
        | true => hne₁
        | false => hne₂
      exact { h with
        ring := h.ring.pushStep
        producer := hproducer.pushStep hcall
        done := fun e => (by cases e)
        consumer := h.consumer.congr rfl rfl id }
  | leaving =>
    have hpushed : ring.pushed = decodedMessages raw := h.producer
    exact { h with
      producer := hpushed
      done := fun _ => rfl
      consumer := h.consumer.congr rfl rfl fun _ => rfl }
  | exited => exact h

/-- Everything that is in the buffer was decoded. -/
theorem pushed_prefix (h : s.Inv raw b₀ applied) : s.ring.pushed <+: decodedMessages raw := by
  obtain ⟨ring, done, processed, book, producer, consumer⟩ := s
  have hproducer := h.producer
  cases producer with
  | loop offset => exact ⟨_, hproducer.2⟩
  | pushing decoded offset =>
    obtain ⟨-, -, hpushed⟩ := hproducer
    rw [List.append_assoc] at hpushed
    exact ⟨_, hpushed⟩
  | leaving => exact ⟨[], (List.append_nil _).trans hproducer⟩
  | exited => exact ⟨[], (List.append_nil _).trans hproducer⟩

/-- Everything that is applied was decoded. -/
theorem applied_prefix (h : s.Inv raw b₀ applied) : applied <+: decodedMessages raw := by
  refine List.IsPrefix.trans ?_ (h.ring.prefix_pushed.trans h.pushed_prefix)
  obtain ⟨ring, done, processed, book, producer, consumer⟩ := s
  have hconsumer := h.consumer
  cases consumer with
  | popping last => exact ⟨_, hconsumer.2.symm⟩
  | applying msg => exact ⟨_, hconsumer.symm⟩
  | checking => exact ⟨[], (List.append_nil _).trans hconsumer.symm⟩
  | exited => exact ⟨[], (List.append_nil _).trans hconsumer.1.symm⟩

/-- An access of `pop` keeps what the consumer knows.  If it makes the last `pop` fail the
buffer is empty, and the producer has put everything in. -/
theorem consumer_popStep {last : Bool} (h : s.Inv raw b₀ applied)
    (hconsumer : ConsumerInv raw s.ring s.producerDone applied (.popping last))
    (hcall : s.ring.pop.UnderWay) :
    ConsumerInv raw s.ring.popStep s.producerDone applied (.popping last) := by
  obtain ⟨hlast, hpopped⟩ := hconsumer
  rw [held_of_underWay hcall, List.append_nil] at hpopped
  obtain ⟨hcall', hsame⟩ | ⟨hret, hsame, hempty⟩ | ⟨read, out, -, hret, hnew, -⟩ :=
    h.ring.pop_cases hcall
  · refine ⟨fun hl => ⟨(hlast hl).1, fun hnone => absurd hnone (hcall' none)⟩, ?_⟩
    rw [held_of_underWay hcall', hsame, hpopped, List.append_nil]
  · refine ⟨fun hl => ⟨(hlast hl).1, fun _ => ?_⟩, ?_⟩
    · have hproducer := h.producer
      rw [h.done (hlast hl).1] at hproducer
      have hlen : s.ring.pushed.length ≤ s.ring.popped.length := List.drop_eq_nil_iff.mp hempty
      calc applied = s.ring.popped := hpopped.symm
        _ = s.ring.pushed := h.ring.prefix_pushed.eq_of_length_le hlen
        _ = decodedMessages raw := hproducer
    · rw [hret, hsame, hpopped]
      exact (List.append_nil _).symm
  · refine ⟨fun hl => ⟨(hlast hl).1, fun hnone => ?_⟩, ?_⟩
    · rw [hret] at hnone
      cases hnone
    · rw [hret, hnew, hpopped]
      rfl

/-- **The consumer's steps keep the invariant**, and no assertion fails. -/
theorem consumerStep (h : s.Inv raw b₀ applied) :
    ∃ s' applied', s.consumerStep = some s' ∧ s'.Inv raw b₀ applied' := by
  obtain ⟨ring, done, processed, book, producer, consumer⟩ := s
  cases consumer with
  | popping last =>
    have hconsumer : ConsumerInv raw ring done applied (.popping last) := h.consumer
    obtain ⟨hlast, hpopped⟩ := id hconsumer
    unfold Pipeline.consumerStep
    dsimp only
    split
    next msg hpop =>
      rw [hpop] at hpopped
      exact ⟨_, applied, rfl, { h with consumer := hpopped }⟩
    next hpop =>
      have hnil : held (.returned none) = [] := rfl
      rw [hpop, hnil, List.append_nil] at hpopped
      refine ⟨_, applied, rfl, { h with consumer := ?_ }⟩
      cases last with
      | true => exact ⟨hpopped, (hlast rfl).2 hpop⟩
      | false => exact hpopped
    next hne₁ hne₂ =>
      have hcall : ring.pop.UnderWay := fun out =>
        match out with
        | some msg => hne₁ msg
        | none => hne₂
      exact ⟨_, applied, rfl, { h with
        ring := h.ring.popStep
        producer := h.producer.congr rfl rfl
        consumer := h.consumer_popStep hconsumer hcall }⟩
  | applying msg =>
    have hpopped : ring.popped = applied ++ [msg] := h.consumer
    have hmem : msg ∈ decodedMessages raw := by
      apply (h.ring.prefix_pushed.trans h.pushed_prefix).subset
      dsimp only
      rw [hpopped]
      simp
    obtain ⟨book', hbook'⟩ := OrderBook.apply_of_wellFormed (wellFormed_of_mem hmem) book
    simp only [Pipeline.consumerStep, hbook', Option.map_some]
    refine ⟨_, applied ++ [msg], rfl, ?_⟩
    exact { h with
      ring := { h.ring with pop := trivial }
      producer := h.producer.congr rfl rfl
      consumer := ⟨fun e => (by cases e), by rw [← hpopped]; exact (List.append_nil _).symm⟩
      book_eq := OrderBook.applyAll_concat h.book_eq hbook'
      processed_eq := by
        rw [List.length_append, UInt64.ofNat_add, ← h.processed_eq]
        rfl }
  | checking =>
    have hpopped : ring.popped = applied := h.consumer
    refine ⟨_, applied, rfl, ?_⟩
    exact { h with
      ring := { h.ring with pop := trivial }
      producer := h.producer.congr rfl rfl
      consumer := ⟨fun hl => ⟨hl, fun e => (by cases e)⟩,
        by rw [← hpopped]; exact (List.append_nil _).symm⟩ }
  | exited => exact ⟨_, applied, rfl, h⟩

end Inv

/-! ### Whole runs -/

theorem inv_new (raw : List Byte) (b₀ : OrderBook) (capacity : UInt64) :
    (new b₀ capacity).Inv raw b₀ [] where
  ring := { Ring.inv_new capacity with pop := trivial }
  producer := ⟨Nat.zero_le _, rfl⟩
  done e := by cases e
  consumer := ⟨fun e => (by cases e), rfl⟩
  book_eq := rfl
  processed_eq := rfl

/-- **The invariant holds along every interleaving**, and no assertion fails. -/
theorem Inv.run {raw : List Byte} (hraw : Walkable raw) {b₀ : OrderBook} {s : Pipeline}
    {applied : List DecodedMessage} (h : s.Inv raw b₀ applied) (threads : List Thread) :
    ∃ s' applied', s.run raw threads = some s' ∧ s'.Inv raw b₀ applied' := by
  induction threads generalizing s applied with
  | nil => exact ⟨s, applied, rfl, h⟩
  | cons thread threads ih =>
    have hstep : ∃ s' applied', s.step raw thread = some s' ∧ s'.Inv raw b₀ applied' := by
      cases thread with
      | producer => exact ⟨_, applied, rfl, h.producerStep hraw⟩
      | consumer => exact h.consumerStep
    obtain ⟨s', applied', hs', hinv⟩ := hstep
    rw [Pipeline.run, List.foldlM_cons, hs']
    exact ih hinv

/-- There are fewer frames than bytes. -/
theorem length_frames_le (raw : List Byte) : (frames raw).length ≤ raw.length := by
  induction raw using frames.induct with
  | case1 raw h => rw [frames_of_none h]; exact Nat.zero_le _
  | case2 raw frame rest h ih =>
    rw [frames_of_some h, List.length_cons, length_of_nextFrame h]
    omega

/-- There are fewer messages than bytes. -/
theorem length_decodedMessages_le (raw : List Byte) :
    (decodedMessages raw).length ≤ raw.length :=
  (List.length_filterMap_le _ _).trans (length_frames_le raw)

end Pipeline

open Pipeline in
/-- **The pipeline equals sequential replay.**  Along every interleaving, from every book and
with every capacity, no assertion fails, the book is at every moment the one that a
first part of the messages leads to, and when the threads have been joined it is the one
that all of them lead to, and they have been counted. -/
theorem pipeline_equals_replay (raw : Span) (b₀ : OrderBook) (ringBufferCapacity : UInt64)
    (threads : List Thread) :
    ∃ s, (Pipeline.new b₀ ringBufferCapacity).run raw.bytes threads = some s ∧
      (∃ applied, applied <+: decodedMessages raw.bytes ∧ b₀.applyAll applied = some s.book) ∧
      (s.Returns → b₀.applyAll (decodedMessages raw.bytes) = some s.book ∧
        s.messagesProcessed.toNat = (decodedMessages raw.bytes).length) := by
  obtain ⟨s, applied, hrun, h⟩ := (inv_new raw.bytes b₀ ringBufferCapacity).run raw.walkable threads
  refine ⟨s, hrun, ⟨applied, h.applied_prefix, h.book_eq⟩, fun hret => ?_⟩
  have hconsumer := h.consumer
  rw [hret.2] at hconsumer
  obtain ⟨-, rfl⟩ := hconsumer
  refine ⟨h.book_eq, ?_⟩
  have hlen := length_decodedMessages_le raw.bytes
  have hwalk : raw.bytes.length < 2 ^ 64 - 65537 := raw.walkable
  rw [h.processed_eq, UInt64.toNat_ofNat_of_lt' (show _ < 2 ^ 64 by omega)]

-- The first `pop` fails, then the producer pushes its only message and sets the flag: it is
-- the last `pop` that finds the message.
example :
    let raw : List Byte := [0, 19, 68, 0, 0, 0, 0, 0, 0, 0, 0, 0, 0, 0, 0, 0, 0, 0, 0, 0, 1]
    let threads := List.replicate 3 Thread.consumer ++ List.replicate 8 Thread.producer ++
      List.replicate 14 Thread.consumer
    ((Pipeline.new (OrderBook.new 1000 2 4) 1).run raw threads).map
      (fun s => (s.messagesProcessed, s.producer, s.consumer)) = some (1, .exited, .exited) := by
  rfl

end Liquibook
