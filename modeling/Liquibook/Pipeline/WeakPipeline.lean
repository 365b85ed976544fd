import Liquibook.Pipeline.WeakRing

/-!
# The pipeline and its memory orders

`run_itch_pipeline` of `pipeline/itch_pipeline.hpp` on a memory in which a load may return an
old store.  The producer sets its flag with release order and the consumer loads it with
acquire order, so a consumer that has seen the flag has also seen every push.  Had it not,
the last `pop` could fail although messages are left in the buffer, and they would
be lost.

Each step is a step on the memory that is always up to date, or a call that fails although it
need not, or a load of the flag that returns the old value.  None of these loses a message.

## Main definitions

* `WeakPipeline`, `WeakPipeline.producerStep`, `WeakPipeline.consumerStep` — the state, and the
  steps of the threads.
* `WeakPipeline.current` — the pipeline on a memory that is up to date.
* `WeakPipeline.Inv` — the invariant.

## Main results

* `WeakPipeline.Inv.producerStep`, `WeakPipeline.Inv.consumerStep` — **the steps keep the
  invariant.**
* `weakPipeline_equals_replay` — **every run replays the messages in order, without a race.**
-/

namespace Liquibook

open Lib Pipeline

/-- The state of `run_itch_pipeline`.  `producer_done` is an atomic variable next to the indices. -/
structure WeakPipeline where
  ring : WeakRing (fun _ : Unit => Bool) DecodedMessage
  messagesProcessed : UInt64 := 0
  book : OrderBook
  producer : ProducerAt := .loop 0
  consumer : ConsumerAt := .popping false

/-- The producer has set its flag. -/
def ProducerAt.done : ProducerAt → Bool
  | .exited => true
  | _ => false

/-- No call of `push` is under way. -/
def ProducerAt.Idle : ProducerAt → Prop
  | .pushing _ _ => False
  | _ => True

/-- No call of `pop` is under way. -/
def ConsumerAt.Idle : ConsumerAt → Prop
  | .popping _ => False
  | _ => True

namespace WeakPipeline

/-- The threads have been started. -/
def new (book : OrderBook) (ringBufferCapacity : UInt64) : WeakPipeline where
  ring := { WeakRing.new DecodedMessage ringBufferCapacity fun _ => false with pop := .entered }
  book := book

/-- The producer enters `push`. -/
def callPush (s : WeakPipeline) (decoded : DecodedMessage) (offset : UInt64) : WeakPipeline :=
  { s with
    ring := { s.ring with push := .entered decoded }
    producer := .pushing decoded offset }

/-- The consumer enters `pop`. -/
def callPop (s : WeakPipeline) (last : Bool) : WeakPipeline :=
  { s with
    ring := { s.ring with pop := .entered }
    consumer := .popping last }

/-- A step of the producer.  A load returns the store that is `stale` stores old. -/
def producerStep (raw : List Byte) (s : WeakPipeline) (stale : ℕ) : WeakPipeline :=
  match s.producer with
  | .loop offset =>
      match producerFrame raw offset with
      | none => { s with producer := .leaving }
      | some (f, offset') =>
          match decodeMessage (f.bytes raw) with
          | none => { s with producer := .loop offset' }
          | some decoded => s.callPush decoded offset'
  | .pushing decoded offset =>
      match s.ring.push with
      | .returned true => { s with producer := .loop offset }
      | .returned false => s.callPush decoded offset
      | _ => { s with ring := s.ring.pushStep stale }
  | .leaving =>
      { s with
        ring := { s.ring with memory := s.ring.memory.store .release .producer (.inr ()) true }
        producer := .exited }
  | .exited => s

/-- A step of the consumer; `none` when an assertion fails in `apply`. -/
def consumerStep (s : WeakPipeline) (stale : ℕ) : Option WeakPipeline :=
  match s.consumer with
  | .popping last =>
      match s.ring.pop with
      | .returned (some msg) => some { s with consumer := .applying msg }
      | .returned none => some { s with consumer := if last then .exited else .checking }
      | _ => some { s with ring := s.ring.popStep stale }
  | .applying msg =>
      (s.book.apply msg).map fun book =>
        { s with book := book, messagesProcessed := s.messagesProcessed + 1 }.callPop false
  | .checking =>
      some <|
        { s with
          ring := { s.ring with
            memory := s.ring.memory.load .acquire .consumer (.inr ()) stale } }.callPop
          (s.ring.memory.read .consumer (.inr ()) stale)
  | .exited => some s

/-- A step of one of the threads. -/
def step (raw : List Byte) (s : WeakPipeline) : Thread × ℕ → Option WeakPipeline
  | (.producer, stale) => some (s.producerStep raw stale)
  | (.consumer, stale) => s.consumerStep stale

/-- The run along an interleaving that also says which stores the loads return. -/
def run (raw : List Byte) (s : WeakPipeline) (schedule : List (Thread × ℕ)) :
    Option WeakPipeline :=
  schedule.foldlM (step raw) s

/-- Both threads can be joined, and `run_itch_pipeline` returns. -/
def Returns (s : WeakPipeline) : Prop := s.producer = .exited ∧ s.consumer = .exited

/-! ### The invariant -/

/-- The pipeline on a memory that is up to date. -/
def current (s : WeakPipeline) : Pipeline where
  ring := s.ring.current
  producerDone := s.producer.done
  messagesProcessed := s.messagesProcessed
  book := s.book
  producer := s.producer
  consumer := s.consumer

/-- The flag has been stored once or not at all, and who has seen it has seen `n` pushes. -/
structure Flag (m : Memory Thread (Index ⊕ Unit) ℕ (Held fun _ => Bool)) (done : Bool) (n : ℕ) :
    Prop where
  last_eq : m.last (.inr ()) = done.toNat
  own_eq : (m.view .producer).stores (.inr ()) = m.last (.inr ())
  value_eq : ∀ i ≤ m.last (.inr ()), (m.message (.inr ()) i).value = decide (0 < i)
  published : m.All (Publishes (.inr ()) 0 (View.store (.inl .write) n))

/-- **The invariant**, for a run from the book `b₀`. -/
structure Inv (raw : List Byte) (b₀ : OrderBook) (s : WeakPipeline)
    (applied : List DecodedMessage) : Prop where
  ring : s.ring.Inv
  current : s.current.Inv raw b₀ applied
  pushIdle : s.producer.Idle → ∃ ok, s.ring.push = .returned ok
  popIdle : s.consumer.Idle → ∃ out, s.ring.pop = .returned out
  flag : Flag s.ring.memory s.producer.done (decodedMessages raw).length
  seen : s.consumer = .popping true → 0 < (s.ring.memory.view .consumer).stores (.inr ())

/-- What leaves the flag alone. -/
theorem Flag.beside {m m' : Memory Thread (Index ⊕ Unit) ℕ (Held fun _ => Bool)} {done : Bool}
    {n : ℕ} (h : Flag m done n) (hb : WeakRing.Beside m m' ()) (hr : m'.Released) :
    Flag m' done n where
  last_eq := hb.last_eq.trans h.last_eq
  own_eq := by
    refine le_antisymm (hr.stores_le.1 _ _) ?_
    rw [hb.last_eq, ← h.own_eq]
    exact (hb.view_le .producer).2 _
  value_eq i hi := by
    rw [hb.last_eq] at hi
    rw [hb.message_eq i hi]
    exact h.value_eq i hi
  published := hb.all _ _ h.published

/-- The flag is stored, with the view of a producer that has made `n` pushes. -/
theorem Flag.store {m : Memory Thread (Index ⊕ Unit) ℕ (Held fun _ => Bool)} {n : ℕ}
    (h : Flag m false n) (hn : (m.view .producer).stores (.inl .write) = n) :
    Flag (m.store .release .producer (.inr ()) true) true n where
  last_eq := by
    rw [Memory.store_last_self, h.last_eq]
    rfl
  own_eq := by
    rw [Memory.store_view_self, View.see_stores_self, View.tick_stores, h.own_eq,
      Memory.store_last_self]
    exact max_eq_right (Nat.le_succ _)
  value_eq i hi := by
    rw [Memory.store_last_self] at hi
    by_cases hle : i ≤ m.last (.inr ())
    · rw [Memory.store_message_of_le hle]
      exact h.value_eq i hle
    · obtain rfl : i = m.last (.inr ()) + 1 := by omega
      rw [Memory.store_message_last]
      exact (decide_eq_true (Nat.succ_pos _)).symm
  published := h.published.store h.own_eq fun _ _ => View.store_le_iff.mpr hn.ge

end WeakPipeline

/-! ### Calls that fail although they need not -/

namespace Pipeline

variable {raw : List Byte} {s : Pipeline}

theorem producerStep_of_underWay {decoded : DecodedMessage} {offset : UInt64}
    (hproducer : s.producer = .pushing decoded offset) (hcall : s.ring.push.UnderWay) :
    s.producerStep raw = { s with ring := s.ring.pushStep } := by
  unfold producerStep
  rw [hproducer]
  cases hpush : s.ring.push with
  | returned ok => exact absurd hpush (hcall ok)
  | _ => rfl

theorem consumerStep_of_underWay {last : Bool} (hconsumer : s.consumer = .popping last)
    (hcall : s.ring.pop.UnderWay) : s.consumerStep = some { s with ring := s.ring.popStep } := by
  unfold consumerStep
  rw [hconsumer]
  cases hpop : s.ring.pop with
  | returned out => exact absurd hpop (hcall out)
  | _ => rfl

end Pipeline

namespace Pipeline.Inv

variable {raw : List Byte} {b₀ : OrderBook} {s : Pipeline} {applied : List DecodedMessage}

/-- A push that fails is made again. -/
theorem failPush (h : s.Inv raw b₀ applied) {value : DecodedMessage} {write : UInt64}
    (hpush : s.ring.push = .loaded value write) :
    { s with ring := { s.ring with push := .returned false } }.Inv raw b₀ applied := by
  obtain ⟨ring, done, processed, book, producer, consumer⟩ := s
  dsimp only at hpush
  refine { h with
    ring := { h.ring with push := trivial }
    producer := ?_
    consumer := h.consumer.congr rfl rfl id }
  cases producer with
  | pushing decoded offset =>
    obtain ⟨hoff, -, hpushed⟩ := h.producer
    dsimp only at hpushed
    rw [hpush] at hpushed
    exact ⟨hoff, trivial, hpushed⟩
  | _ => exact h.producer

/-- A pop that fails is made again, unless it is the last one. -/
theorem failPop (h : s.Inv raw b₀ applied) {read : UInt64} (hpop : s.ring.pop = .loaded read)
    (hlast : s.consumer = .popping true → s.ring.popped = decodedMessages raw) :
    { s with ring := { s.ring with pop := .returned none } }.Inv raw b₀ applied := by
  obtain ⟨ring, done, processed, book, producer, consumer⟩ := s
  dsimp only at hpop hlast
  refine { h with
    ring := { h.ring with pop := trivial }
    producer := h.producer.congr rfl rfl
    consumer := ?_ }
  cases consumer with
  | popping last =>
    obtain ⟨hdone, hpopped⟩ := h.consumer
    dsimp only at hpopped
    rw [hpop] at hpopped
    refine ⟨fun hl => ⟨(hdone hl).1, fun _ => ?_⟩, hpopped⟩
    subst hl
    rw [← hlast rfl, hpopped]
    exact (List.append_nil _).symm
  | _ => exact h.consumer

/-- A consumer that does not see the flag goes on. -/
theorem recheck (h : s.Inv raw b₀ applied) (hconsumer : s.consumer = .checking) :
    (s.callPop false).Inv raw b₀ applied := by
  have hpopped := h.consumer
  rw [hconsumer] at hpopped
  exact { h with
    ring := { h.ring with pop := trivial }
    producer := h.producer.congr rfl rfl
    consumer := ⟨fun e => (by cases e), by
      have : s.ring.popped = applied := hpopped
      rw [← this]
      exact (List.append_nil _).symm⟩ }

end Pipeline.Inv

namespace WeakPipeline

/-! ### The steps -/

namespace Inv

variable {raw : List Byte} {b₀ : OrderBook} {s : WeakPipeline} {applied : List DecodedMessage}

/-- An access of `push` keeps the invariant. -/
theorem pushStep (hraw : Walkable raw) (h : s.Inv raw b₀ applied) {decoded : DecodedMessage}
    {offset : UInt64} (hproducer : s.producer = .pushing decoded offset)
    (hcall : s.ring.push.UnderWay) (stale : ℕ) :
    { s with ring := s.ring.pushStep stale }.Inv raw b₀ applied := by
  have hbeside := @WeakRing.Inv.pushStep_beside _ _ _ _ _ () h.ring stale
  have hring := h.ring.pushStep stale
  have hpop : (s.ring.pushStep stale).pop = s.ring.pop := by
    unfold WeakRing.pushStep
    split <;> rfl
  refine { h with
    ring := hring
    current := ?_
    pushIdle := fun e => ?_
    popIdle := fun e => by rw [hpop]; exact h.popIdle e
    flag := h.flag.beside hbeside hring.released
    seen := fun e => (h.seen e).trans_le ((hbeside.view_le .consumer).2 _) }
  · rcases h.ring.pushStep_current stale with he | ⟨he, value, write, hpush, -⟩
    · have hstep := h.current.producerStep hraw
      rw [producerStep_of_underWay hproducer hcall] at hstep
      unfold WeakPipeline.current
      rwa [he]
    · have hstep := h.current.failPush hpush
      unfold WeakPipeline.current
      rwa [he]
  · dsimp only at e
    rw [hproducer] at e
    exact e.elim

/-- **The producer's steps keep the invariant.** -/
theorem producerStep (hraw : Walkable raw) (h : s.Inv raw b₀ applied) (stale : ℕ) :
    (s.producerStep raw stale).Inv raw b₀ applied := by
  have hcurrent := h.current.producerStep hraw
  obtain ⟨⟨capacity, mask, buffer, memory, push, pop, pushed, popped⟩, processed, book, producer,
    consumer⟩ := s
  cases producer with
  | loop offset =>
    obtain ⟨ok, hidle⟩ := h.pushIdle trivial
    cases hp : producerFrame raw offset with
    | none =>
      simp only [Pipeline.producerStep, WeakPipeline.current, hp] at hcurrent
      simp only [WeakPipeline.producerStep, hp]
      exact { h with current := hcurrent }
    | some next =>
      obtain ⟨f, offset'⟩ := next
      cases hd : decodeMessage (f.bytes raw) with
      | none =>
        simp only [Pipeline.producerStep, WeakPipeline.current, hp, hd] at hcurrent
        simp only [WeakPipeline.producerStep, hp, hd]
        exact { h with current := hcurrent }
      | some decoded =>
        simp only [Pipeline.producerStep, WeakPipeline.current, hp, hd] at hcurrent
        simp only [WeakPipeline.producerStep, hp, hd]
        exact { h with
          ring := h.ring.step (WeakRing.Step.callPush decoded hidle)
          current := hcurrent
          pushIdle := fun e => e.elim }
  | pushing decoded offset =>
    cases push with
    | returned ok =>
      cases ok with
      | true =>
        exact { h with
          current := hcurrent
          pushIdle := fun _ => ⟨true, rfl⟩ }
      | false =>
        exact { h with
          ring := h.ring.step (WeakRing.Step.callPush decoded rfl)
          current := hcurrent
          pushIdle := fun e => e.elim }
    | entered value => exact h.pushStep hraw rfl (fun ok e => (by cases e)) stale
    | loaded value write => exact h.pushStep hraw rfl (fun ok e => (by cases e)) stale
    | room value write => exact h.pushStep hraw rfl (fun ok e => (by cases e)) stale
    | filled value write => exact h.pushStep hraw rfl (fun ok e => (by cases e)) stale
  | leaving =>
    have hown := h.flag.own_eq
    have hpushed : pushed = decodedMessages raw := h.current.producer
    have hle := @Memory.view_le_store _ _ _ _ memory .producer (.inr ()) .release true _ _
    exact { h with
      ring := h.ring.store true hown
      current := hcurrent
      flag := Flag.store h.flag (by rw [← hpushed]; exact h.ring.writes.own_eq)
      seen := fun e => (h.seen e).trans_le ((hle .consumer).2 _) }
  | exited => exact h

/-- **A consumer that has seen the flag has seen every push**, so the last `pop` fails only when
everything has been popped. -/
theorem popped_of_last (h : s.Inv raw b₀ applied) (hconsumer : s.consumer = .popping true)
    {stale : ℕ} (hempty : s.ring.popped.length = s.ring.memory.pick .consumer (.inl .write) stale) :
    s.ring.popped = decodedMessages raw := by
  have hseen : (decodedMessages raw).length ≤
      (s.ring.memory.view .consumer).stores (.inl .write) :=
    View.store_le_iff.mp (h.flag.published.1 .consumer (h.seen hconsumer))
  have hprefix : s.ring.popped <+: decodedMessages raw :=
    h.current.ring.prefix_pushed.trans h.current.pushed_prefix
  refine hprefix.eq_of_length_le ?_
  rw [hempty]
  exact hseen.trans (le_max_left _ _)

/-- An access of `pop` keeps the invariant. -/
theorem popStep (h : s.Inv raw b₀ applied) {last : Bool} (hconsumer : s.consumer = .popping last)
    (hcall : s.ring.pop.UnderWay) (stale : ℕ) :
    ∃ applied', { s with ring := s.ring.popStep stale }.Inv raw b₀ applied' := by
  have hbeside := @WeakRing.Inv.popStep_beside _ _ _ _ _ () _ h.ring stale
  have hring := h.ring.popStep stale
  have hpush : (s.ring.popStep stale).push = s.ring.push := by
    unfold WeakRing.popStep
    split <;> rfl
  have hcurrent : ∃ applied',
      ({ s with ring := s.ring.popStep stale } : WeakPipeline).current.Inv raw b₀ applied' := by
    rcases h.ring.popStep_current stale with he | ⟨he, read, hpop, hempty⟩
    · obtain ⟨s', applied', hstep, hs'⟩ := h.current.consumerStep
      rw [consumerStep_of_underWay hconsumer hcall] at hstep
      obtain rfl := Option.some.inj hstep
      refine ⟨applied', ?_⟩
      unfold WeakPipeline.current
      rwa [he]
    · have hstep := h.current.failPop hpop fun e => h.popped_of_last e hempty
      refine ⟨applied, ?_⟩
      unfold WeakPipeline.current
      rwa [he]
  obtain ⟨applied', hcurrent⟩ := hcurrent
  refine ⟨applied', { h with
    ring := hring
    current := hcurrent
    pushIdle := fun e => by rw [hpush]; exact h.pushIdle e
    popIdle := fun e => ?_
    flag := h.flag.beside hbeside hring.released
    seen := fun e => (h.seen e).trans_le ((hbeside.view_le .consumer).2 _) }⟩
  dsimp only at e
  rw [hconsumer] at e
  exact e.elim

/-- The consumer has loaded the flag. -/
theorem checked (h : s.Inv raw b₀ applied) (hconsumer : s.consumer = .checking) (stale : ℕ)
    {last : Bool} {applied' : List DecodedMessage}
    (hcurrent : (s.current.callPop last).Inv raw b₀ applied')
    (hlast : last = true → 0 < s.ring.memory.pick .consumer (.inr ()) stale) :
    ({ s with ring := { s.ring with
        memory := s.ring.memory.load .acquire .consumer (.inr ()) stale } }.callPop last).Inv
      raw b₀ applied' := by
  have hidle : s.consumer.Idle := by
    rw [hconsumer]
    trivial
  obtain ⟨out, hpop⟩ := h.popIdle hidle
  have hring := h.ring.load .consumer () stale
  have hbeside := @WeakRing.Beside.load _ _ stale s.ring.memory .consumer () _ (.inr ())
    h.ring.released
  have hknown := @Memory.pick_le_load _ _ _ _ s.ring.memory .consumer (.inr ()) .acquire stale _ _
  exact { h with
    ring := hring.step (WeakRing.Step.callPop hpop)
    current := hcurrent
    popIdle := fun e => e.elim
    flag := h.flag.beside hbeside hring.released
    seen := fun e => by
      cases e
      exact (hlast rfl).trans_le hknown }

/-- **The consumer's steps keep the invariant**, and no assertion fails. -/
theorem consumerStep (h : s.Inv raw b₀ applied) (stale : ℕ) :
    ∃ s' applied', s.consumerStep stale = some s' ∧ s'.Inv raw b₀ applied' := by
  obtain ⟨s₁, applied₁, hstep, hcurrent⟩ := h.current.consumerStep
  obtain ⟨⟨capacity, mask, buffer, memory, push, pop, pushed, popped⟩, processed, book, producer,
    consumer⟩ := s
  cases consumer with
  | popping last =>
    cases pop with
    | returned out =>
      cases out with
      | some msg =>
        obtain rfl := Option.some.inj hstep
        exact ⟨_, applied₁, rfl, { h with
          current := hcurrent
          popIdle := fun _ => ⟨some msg, rfl⟩
          seen := fun e => (by cases e) }⟩
      | none =>
        obtain rfl := Option.some.inj hstep
        refine ⟨_, applied₁, rfl, { h with
          current := hcurrent
          popIdle := fun _ => ⟨none, rfl⟩
          seen := fun e => ?_ }⟩
        cases last <;> cases e
    | entered =>
      obtain ⟨applied', hs'⟩ := h.popStep rfl (fun ok e => (by cases e)) stale
      exact ⟨_, applied', rfl, hs'⟩
    | loaded read =>
      obtain ⟨applied', hs'⟩ := h.popStep rfl (fun ok e => (by cases e)) stale
      exact ⟨_, applied', rfl, hs'⟩
    | ready read =>
      obtain ⟨applied', hs'⟩ := h.popStep rfl (fun ok e => (by cases e)) stale
      exact ⟨_, applied', rfl, hs'⟩
    | taken read out =>
      obtain ⟨applied', hs'⟩ := h.popStep rfl (fun ok e => (by cases e)) stale
      exact ⟨_, applied', rfl, hs'⟩
  | applying msg =>
    obtain ⟨out, hidle⟩ := h.popIdle trivial
    simp only [Pipeline.consumerStep, WeakPipeline.current] at hstep
    obtain ⟨book', hbook', rfl⟩ := Option.map_eq_some_iff.mp hstep
    simp only [WeakPipeline.consumerStep, hbook', Option.map_some]
    exact ⟨_, applied₁, rfl, { h with
      ring := h.ring.step (WeakRing.Step.callPop hidle)
      current := hcurrent
      popIdle := fun e => e.elim
      seen := fun e => (by cases e) }⟩
  | checking =>
    obtain ⟨out, hidle⟩ := h.popIdle trivial
    have hpick := @Memory.Released.pick_le _ _ _ _ memory .consumer (.inr ()) stale h.ring.released
    have hvalue : memory.read .consumer (.inr ()) stale =
        decide (0 < memory.pick .consumer (.inr ()) stale) := h.flag.value_eq _ hpick
    have hdone : memory.last (.inr ()) = producer.done.toNat := h.flag.last_eq
    cases hread : memory.read .consumer (.inr ()) stale with
    | false =>
      refine ⟨_, applied, rfl, ?_⟩
      dsimp only
      rw [hread]
      exact h.checked rfl stale (h.current.recheck rfl) fun e => (by cases e)
    | true =>
      rw [hread] at hvalue
      have hpos := of_decide_eq_true hvalue.symm
      have hset : producer.done = true := by
        cases hd : producer.done with
        | true => rfl
        | false =>
          rw [hd] at hdone
          exact absurd hpos (Nat.not_lt.mpr (hpick.trans hdone.le))
      obtain rfl := Option.some.inj hstep
      refine ⟨_, applied₁, rfl, ?_⟩
      dsimp only [WeakPipeline.current] at hcurrent ⊢
      rw [hset] at hcurrent
      rw [hread]
      refine h.checked rfl stale ?_ fun _ => hpos
      dsimp only [WeakPipeline.current]
      rw [hset]
      exact hcurrent
  | exited => exact ⟨_, applied, rfl, h⟩

end Inv

/-! ### Whole runs -/

theorem inv_new (raw : List Byte) (b₀ : OrderBook) (capacity : UInt64) :
    (new b₀ capacity).Inv raw b₀ [] where
  ring := (WeakRing.inv_new capacity _).step (WeakRing.Step.callPop rfl)
  current := Pipeline.inv_new raw b₀ capacity
  pushIdle _ := ⟨true, rfl⟩
  popIdle e := e.elim
  flag :=
    { last_eq := rfl
      own_eq := rfl
      value_eq := fun i hi => by rw [Nat.le_zero.mp hi]; rfl
      published := (Memory.released_new _).publishes le_rfl }
  seen e := by cases e

/-- **The invariant holds along every run**, and no assertion fails. -/
theorem Inv.run {raw : List Byte} (hraw : Walkable raw) {b₀ : OrderBook} {s : WeakPipeline}
    {applied : List DecodedMessage} (h : s.Inv raw b₀ applied) (schedule : List (Thread × ℕ)) :
    ∃ s' applied', s.run raw schedule = some s' ∧ s'.Inv raw b₀ applied' := by
  induction schedule generalizing s applied with
  | nil => exact ⟨s, applied, rfl, h⟩
  | cons next schedule ih =>
    obtain ⟨thread, stale⟩ := next
    have hstep : ∃ s' applied', s.step raw (thread, stale) = some s' ∧
        s'.Inv raw b₀ applied' := by
      cases thread with
      | producer => exact ⟨_, applied, rfl, h.producerStep hraw stale⟩
      | consumer => exact h.consumerStep stale
    obtain ⟨s', applied', hs', hinv⟩ := hstep
    rw [WeakPipeline.run, List.foldlM_cons, hs']
    exact ih hinv

end WeakPipeline

open WeakPipeline in
/-- **The pipeline equals sequential replay, with the memory orders that the source names.**
Along every interleaving, whatever old stores the loads return, no two accesses race and no
assertion fails, the book is at every moment the one that a first part of the messages
leads to, and when the threads have been joined it is the one that all of them lead to,
and they have been counted. -/
theorem weakPipeline_equals_replay (raw : Span) (b₀ : OrderBook) (ringBufferCapacity : UInt64)
    (schedule : List (Thread × ℕ)) :
    ∃ s, (WeakPipeline.new b₀ ringBufferCapacity).run raw.bytes schedule = some s ∧
      ¬ s.ring.Races ∧
      (∃ applied, applied <+: decodedMessages raw.bytes ∧ b₀.applyAll applied = some s.book) ∧
      (s.Returns → b₀.applyAll (decodedMessages raw.bytes) = some s.book ∧
        s.messagesProcessed.toNat = (decodedMessages raw.bytes).length) := by
  obtain ⟨s, applied, hrun, h⟩ :=
    (WeakPipeline.inv_new raw.bytes b₀ ringBufferCapacity).run raw.walkable schedule
  refine ⟨s, hrun, h.ring.not_races, ⟨applied, h.current.applied_prefix, h.current.book_eq⟩,
    fun hret => ?_⟩
  have hconsumer : ConsumerInv raw.bytes s.ring.current s.producer.done applied s.consumer :=
    h.current.consumer
  rw [hret.2] at hconsumer
  obtain ⟨-, rfl⟩ := hconsumer
  refine ⟨h.current.book_eq, ?_⟩
  have hprocessed : s.messagesProcessed = UInt64.ofNat (decodedMessages raw.bytes).length :=
    h.current.processed_eq
  have hlen := length_decodedMessages_le raw.bytes
  have hwalk : raw.bytes.length < 2 ^ 64 - 65537 := raw.walkable
  rw [hprocessed, UInt64.toNat_ofNat_of_lt' (show _ < 2 ^ 64 by omega)]

-- The load of the flag returns the old value once, and so does the load of the index behind it:
-- the message is popped a round later.
example :
    let raw : List Byte := [0, 19, 68, 0, 0, 0, 0, 0, 0, 0, 0, 0, 0, 0, 0, 0, 0, 0, 0, 0, 1]
    let schedule := List.replicate 8 (Thread.producer, 0) ++
      List.replicate 8 (Thread.consumer, 1) ++ List.replicate 18 (Thread.consumer, 0)
    ((WeakPipeline.new (OrderBook.new 1000 2 4) 1).run raw schedule).map
      (fun s => (s.messagesProcessed, s.producer, s.consumer)) = some (1, .exited, .exited) := by
  rfl

end Liquibook
