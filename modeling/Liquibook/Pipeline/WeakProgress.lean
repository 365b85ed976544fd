import Liquibook.Lib.Visibility
import Liquibook.Pipeline.Progress
import Liquibook.Pipeline.WeakPipeline
import Mathlib.Data.Finite.Sum

/-!
# The pipeline comes to its end on any memory

A scheduler that lets both threads of `run_itch_pipeline` run again and again does not bring
the pipeline to its end if the loads may return old stores for ever: the producer would not
learn of the pops that make room, nor the consumer of the flag.  What the threads need is
that every store is seen some day, which is what the language asks of an implementation.

The pipeline makes a bounded number of stores, two for each message and one for the flag.
So some day all loads return the newest store.  From then on the pipeline makes the
steps that it makes on a memory that is up to date, and comes to its end.

## Main definitions

* `WeakPipeline.loads` — the variable that the next step of a thread loads.
* `WeakPipeline.Visible` — every store is seen some day.

## Main results

* `WeakPipeline.Inv.step_current` — a step that loads the newest store is a step on a memory
  that is up to date.
* `WeakPipeline.exists_upToDate` — some day all loads return the newest store.
* `weakPipeline_terminates` — **every fair scheduler brings the pipeline to its end, if
  stores become visible.**
-/

namespace Liquibook

open Lib Pipeline

/-! ### Loads that return the newest store -/

namespace WeakRing.Inv

variable {E : Type} {V : E → Type} {T : Type} {s : WeakRing V T} [DecidableEq E] {stale : ℕ}

/-- A push that has seen all pops does what it would do in a memory that is up to date. -/
theorem pushStep_upToDate (h : s.Inv)
    (hnew : ∀ value write, s.push = .loaded value write →
      s.memory.pick .producer (.inl .read) stale = s.memory.last (.inl .read)) :
    (s.pushStep stale).current = s.current.pushStep := by
  rcases h.pushStep_current stale with he | ⟨he, value, write, hpush, hfull⟩
  · exact he
  · -- the buffer is full, so the other push fails as well
    rw [hnew value write hpush, h.reads.last_eq] at hfull
    have hwrite : write = UInt64.ofNat s.pushed.length := by
      have hcall := h.ring.push
      rw [current, hpush] at hcall
      exact hcall
    have hge := h.ring.full_iff.mpr hfull
    rw [he, Ring.pushStep]
    simp only [current, hpush, SpscRingBuffer.pushStep, hwrite] at hge ⊢
    rw [if_pos hge]

/-- A pop that has seen all pushes does what it would do in a memory that is up to date. -/
theorem popStep_upToDate [Inhabited T] (h : s.Inv)
    (hnew : ∀ read, s.pop = .loaded read →
      s.memory.pick .consumer (.inl .write) stale = s.memory.last (.inl .write)) :
    (s.popStep stale).current = s.current.popStep := by
  rcases h.popStep_current stale with he | ⟨he, read, hpop, hempty⟩
  · exact he
  · rw [hnew read hpop, h.writes.last_eq] at hempty
    have hread : read = UInt64.ofNat s.popped.length := by
      have hcall := h.ring.pop
      rw [current, hpop] at hcall
      exact hcall
    have heq := h.ring.empty_iff.mpr hempty
    rw [he, Ring.popStep]
    simp only [current, hpop, SpscRingBuffer.popStep, hread] at heq ⊢
    rw [if_pos heq]

end WeakRing.Inv

namespace WeakPipeline

/-- The variable that the next step of a thread loads. -/
def loads (s : WeakPipeline) : Thread → Option (Index ⊕ Unit)
  | .producer =>
      match s.producer, s.ring.push with
      | .pushing _ _, .entered _ => some (.inl .write)
      | .pushing _ _, .loaded _ _ => some (.inl .read)
      | _, _ => none
  | .consumer =>
      match s.consumer, s.ring.pop with
      | .popping _, .entered => some (.inl .read)
      | .popping _, .loaded _ => some (.inl .write)
      | .checking, _ => some (.inr ())
      | _, _ => none

/-- Every store is seen some day: after any moment there is one from which on no load returns a
store that is older than those made by then. -/
def Visible (raw : List Byte) (s : WeakPipeline) (schedule : ℕ → Thread × ℕ) : Prop :=
  ∀ n sn, s.run raw (choices schedule n) = some sn →
    ∃ m, ∀ j, m ≤ j → ∀ sj k, s.run raw (choices schedule j) = some sj →
      sj.loads (schedule j).1 = some k →
        sn.ring.memory.last k ≤ sj.ring.memory.pick (schedule j).1 k (schedule j).2

namespace Inv

variable {raw : List Byte} {b₀ : OrderBook} {s s' : WeakPipeline} {applied : List DecodedMessage}

/-- An access of `push`. -/
theorem push_upToDate (h : s.Inv raw b₀ applied) {decoded : DecodedMessage} {offset : UInt64}
    (hproducer : s.producer = .pushing decoded offset) (hcall : s.ring.push.UnderWay) {stale : ℕ}
    (hnew : ∀ k, s.loads .producer = some k →
      s.ring.memory.pick .producer k stale = s.ring.memory.last k) :
    ({ s with ring := s.ring.pushStep stale } : WeakPipeline).current =
      s.current.producerStep raw := by
  rw [producerStep_of_underWay hproducer hcall, WeakPipeline.current, h.ring.pushStep_upToDate]
  · rfl
  · intro value write hpush
    exact hnew _ (by simp only [loads, hproducer, hpush])

theorem producerStep_upToDate (h : s.Inv raw b₀ applied) {stale : ℕ}
    (hnew : ∀ k, s.loads .producer = some k →
      s.ring.memory.pick .producer k stale = s.ring.memory.last k) :
    (s.producerStep raw stale).current = s.current.producerStep raw := by
  obtain ⟨⟨capacity, mask, buffer, memory, push, pop, pushed, popped⟩, processed, book, producer,
    consumer⟩ := s
  cases producer with
  | loop offset =>
    cases hp : producerFrame raw offset with
    | none =>
      simp only [WeakPipeline.producerStep, Pipeline.producerStep, WeakPipeline.current, hp]
      rfl
    | some next =>
      cases hd : decodeMessage (next.1.bytes raw) with
      | none =>
        simp only [WeakPipeline.producerStep, Pipeline.producerStep, WeakPipeline.current, hp, hd]
        rfl
      | some decoded =>
        simp only [WeakPipeline.producerStep, Pipeline.producerStep, WeakPipeline.current, hp, hd]
        rfl
  | pushing decoded offset =>
    cases push with
    | returned ok => cases ok <;> rfl
    | entered value => exact h.push_upToDate rfl (fun ok e => (by cases e)) hnew
    | loaded value write => exact h.push_upToDate rfl (fun ok e => (by cases e)) hnew
    | room value write => exact h.push_upToDate rfl (fun ok e => (by cases e)) hnew
    | filled value write => exact h.push_upToDate rfl (fun ok e => (by cases e)) hnew
  | leaving => rfl
  | exited => rfl

/-- An access of `pop`. -/
theorem pop_upToDate (h : s.Inv raw b₀ applied) {last : Bool}
    (hconsumer : s.consumer = .popping last) (hcall : s.ring.pop.UnderWay) {stale : ℕ}
    (hnew : ∀ k, s.loads .consumer = some k →
      s.ring.memory.pick .consumer k stale = s.ring.memory.last k) :
    some ({ s with ring := s.ring.popStep stale } : WeakPipeline).current =
      s.current.consumerStep := by
  rw [consumerStep_of_underWay hconsumer hcall, WeakPipeline.current, h.ring.popStep_upToDate]
  · rfl
  · intro read hpop
    exact hnew _ (by simp only [loads, hconsumer, hpop])

theorem consumerStep_upToDate (h : s.Inv raw b₀ applied) {stale : ℕ}
    (hnew : ∀ k, s.loads .consumer = some k →
      s.ring.memory.pick .consumer k stale = s.ring.memory.last k) :
    (s.consumerStep stale).map WeakPipeline.current = s.current.consumerStep := by
  obtain ⟨⟨capacity, mask, buffer, memory, push, pop, pushed, popped⟩, processed, book, producer,
    consumer⟩ := s
  cases consumer with
  | popping last =>
    cases pop with
    | returned out => cases out <;> rfl
    | entered => exact h.pop_upToDate rfl (fun ok e => (by cases e)) hnew
    | loaded read => exact h.pop_upToDate rfl (fun ok e => (by cases e)) hnew
    | ready read => exact h.pop_upToDate rfl (fun ok e => (by cases e)) hnew
    | taken read out => exact h.pop_upToDate rfl (fun ok e => (by cases e)) hnew
  | applying msg =>
    simp only [WeakPipeline.consumerStep, Pipeline.consumerStep, WeakPipeline.current,
      Option.map_map]
    rfl
  | checking =>
    -- the newest store to the flag says where the producer is
    have hpick := hnew (.inr ()) rfl
    have hlast := h.flag.last_eq
    have hread : memory.read .consumer (.inr ()) stale = producer.done := by
      have hvalue := h.flag.value_eq _ le_rfl
      dsimp only at hpick hlast hvalue
      rw [Memory.read, hpick, hvalue, hlast]
      cases producer.done <;> rfl
    simp only [WeakPipeline.consumerStep, Pipeline.consumerStep, WeakPipeline.current, hread]
    rfl
  | exited => rfl

/-- **A step that loads the newest store** is a step on a memory that is up to date. -/
theorem step_current (h : s.Inv raw b₀ applied) {next : Thread × ℕ}
    (hnew : ∀ k, s.loads next.1 = some k →
      s.ring.memory.pick next.1 k next.2 = s.ring.memory.last k)
    (hstep : s.step raw next = some s') : s.current.step raw next.1 = some s'.current := by
  obtain ⟨thread, stale⟩ := next
  cases thread with
  | producer =>
    obtain rfl := Option.some.inj hstep
    exact congrArg some (h.producerStep_upToDate hnew).symm
  | consumer =>
    have hcurrent := h.consumerStep_upToDate hnew
    rw [show s.consumerStep stale = some s' from hstep] at hcurrent
    exact hcurrent.symm

end Inv

/-! ### The stores run out -/

/-- The accesses of `push` add to the stores. -/
theorem last_le_pushStep (r : WeakRing (fun _ : Unit => Bool) DecodedMessage) (stale : ℕ)
    (k : Index ⊕ Unit) : r.memory.last k ≤ (r.pushStep stale).memory.last k := by
  unfold WeakRing.pushStep
  split
  · exact le_rfl
  · exact le_rfl
  · exact le_rfl
  · dsimp only
    exact Memory.last_le_store k
  · exact le_rfl

@[inherit_doc last_le_pushStep]
theorem last_le_popStep (r : WeakRing (fun _ : Unit => Bool) DecodedMessage) (stale : ℕ)
    (k : Index ⊕ Unit) : r.memory.last k ≤ (r.popStep stale).memory.last k := by
  unfold WeakRing.popStep
  split
  · exact le_rfl
  · exact le_rfl
  · exact le_rfl
  · dsimp only
    exact Memory.last_le_store k
  · exact le_rfl

/-- No store is taken back. -/
theorem last_le_step {raw : List Byte} {s s' : WeakPipeline} {next : Thread × ℕ}
    (hstep : s.step raw next = some s') (k : Index ⊕ Unit) :
    s.ring.memory.last k ≤ s'.ring.memory.last k := by
  obtain ⟨thread, stale⟩ := next
  cases thread with
  | producer =>
    obtain rfl := Option.some.inj hstep
    unfold producerStep
    split
    · split
      · exact le_rfl
      · split <;> exact le_rfl
    · split
      · exact le_rfl
      · exact le_rfl
      · exact last_le_pushStep _ _ k
    · dsimp only
      exact Memory.last_le_store k
    · exact le_rfl
  | consumer =>
    change s.consumerStep stale = some s' at hstep
    unfold consumerStep at hstep
    split at hstep
    · split at hstep
      · obtain rfl := Option.some.inj hstep
        exact le_rfl
      · obtain rfl := Option.some.inj hstep
        exact le_rfl
      · obtain rfl := Option.some.inj hstep
        exact last_le_popStep _ _ k
    · obtain ⟨book', -, rfl⟩ := Option.map_eq_some_iff.mp hstep
      exact le_rfl
    · obtain rfl := Option.some.inj hstep
      exact le_rfl
    · obtain rfl := Option.some.inj hstep
      exact le_rfl

/-- There is a store to each index for each message at most, and one to the flag. -/
theorem Inv.last_le {raw : List Byte} {b₀ : OrderBook} {s : WeakPipeline}
    {applied : List DecodedMessage} (h : s.Inv raw b₀ applied) (k : Index ⊕ Unit) :
    s.ring.memory.last k ≤ (decodedMessages raw).length + 1 := by
  have hpushed : s.ring.pushed.length ≤ (decodedMessages raw).length :=
    h.current.pushed_prefix.length_le
  have hpopped : s.ring.popped.length ≤ s.ring.pushed.length :=
    h.current.ring.prefix_pushed.length_le
  match k with
  | .inl .write =>
    rw [h.ring.writes.last_eq]
    omega
  | .inl .read =>
    rw [h.ring.reads.last_eq]
    omega
  | .inr () =>
    rw [h.flag.last_eq]
    have := Bool.toNat_le s.producer.done
    omega

instance : Finite Index :=
  Finite.of_injective (fun x => decide (x = .write)) fun x y h => by
    cases x <;> cases y <;> first | rfl | cases h

theorem run_choices_succ {raw : List Byte} {s sn : WeakPipeline} {schedule : ℕ → Thread × ℕ}
    {n : ℕ} (hn : s.run raw (choices schedule n) = some sn) :
    s.run raw (choices schedule (n + 1)) = sn.step raw (schedule n) := by
  rw [WeakPipeline.run, choices_add, List.foldlM_append, ← WeakPipeline.run, hn]
  exact bind_pure (sn.step raw (schedule n))

/-- **Some day all loads return the newest store.** -/
theorem exists_upToDate {raw : List Byte} (hraw : Walkable raw) {b₀ : OrderBook}
    {s : WeakPipeline} {applied : List DecodedMessage} (h : s.Inv raw b₀ applied)
    {schedule : ℕ → Thread × ℕ} (hvisible : s.Visible raw schedule) :
    ∃ n, ∀ j, n ≤ j → ∀ sj k, s.run raw (choices schedule j) = some sj →
      sj.loads (schedule j).1 = some k →
        sj.ring.memory.pick (schedule j).1 k (schedule j).2 = sj.ring.memory.last k := by
  choose st done hrun hinv using fun n => h.run hraw (choices schedule n)
  have hstep : ∀ n, (st n).step raw (schedule n) = some (st (n + 1)) := by
    intro n
    rw [← run_choices_succ (hrun n), hrun (n + 1)]
  have hmono : ∀ k, Monotone fun n => (st n).ring.memory.last k :=
    fun k => monotone_nat_of_le_succ fun n => last_le_step (hstep n) k
  have hseen : Lib.Visible (fun n => (st n).ring.memory.last) fun j k i =>
      (st j).loads (schedule j).1 = some k ∧
        i = (st j).ring.memory.pick (schedule j).1 k (schedule j).2 := by
    intro n
    obtain ⟨m, hm⟩ := hvisible n (st n) (hrun n)
    refine ⟨m, fun j hj k i hload => ?_⟩
    rw [hload.2]
    exact hm j hj (st j) k (hrun j) hload.1
  obtain ⟨n, hn⟩ := hseen.upToDate hmono fun n => (hinv n).last_le
  refine ⟨n, fun j hj sj k hj' hload => ?_⟩
  obtain rfl := Option.some.inj ((hrun j).symm.trans hj')
  exact le_antisymm (hinv j).ring.released.pick_le (hn j hj k _ ⟨hload, rfl⟩)

/-- When both threads are at their ends nothing happens any more. -/
theorem Returns.step_eq {raw : List Byte} {s : WeakPipeline} (h : s.Returns)
    (next : Thread × ℕ) : s.step raw next = some s := by
  obtain ⟨ring, processed, book, producer, consumer⟩ := s
  obtain ⟨rfl, rfl⟩ : producer = .exited ∧ consumer = .exited := h
  obtain ⟨thread, stale⟩ := next
  cases thread <;> rfl

/-- From then on the pipeline makes the steps of a memory that is up to date. -/
theorem run_current {raw : List Byte} (hraw : Walkable raw) {b₀ : OrderBook} {s : WeakPipeline}
    {applied : List DecodedMessage} (h : s.Inv raw b₀ applied) {schedule : ℕ → Thread × ℕ}
    (hnew : ∀ j sj k, s.run raw (choices schedule j) = some sj →
      sj.loads (schedule j).1 = some k →
        sj.ring.memory.pick (schedule j).1 k (schedule j).2 = sj.ring.memory.last k) (n : ℕ) :
    ∃ sn applied', s.run raw (choices schedule n) = some sn ∧ sn.Inv raw b₀ applied' ∧
      s.current.run raw (choices (fun j => (schedule j).1) n) = some sn.current := by
  induction n with
  | zero => exact ⟨s, applied, rfl, h, rfl⟩
  | succ n ih =>
    obtain ⟨sn, applied', hrun, hinv, hcurrent⟩ := ih
    obtain ⟨sn', applied'', hrun', hinv'⟩ := h.run hraw (choices schedule (n + 1))
    have hstep : sn.step raw (schedule n) = some sn' := by
      rw [← run_choices_succ hrun, hrun']
    refine ⟨sn', applied'', hrun', hinv', ?_⟩
    rw [Pipeline.run, choices_add, List.foldlM_append, ← Pipeline.run, hcurrent]
    have hnext := hinv.step_current (fun k => hnew n sn k hrun) hstep
    exact (bind_pure (sn.current.step raw (schedule n).1)).trans hnext

/-- **The threads come to their ends** under every fair scheduler, if stores become visible. -/
theorem terminates {raw : List Byte} (hraw : Walkable raw) (b₀ : OrderBook)
    (ringBufferCapacity : UInt64) {schedule : ℕ → Thread × ℕ}
    (hfair : Fair fun n => (schedule n).1)
    (hvisible : (WeakPipeline.new b₀ ringBufferCapacity).Visible raw schedule) :
    ∃ n s, s.Returns ∧ b₀.applyAll (decodedMessages raw) = some s.book ∧
      s.messagesProcessed.toNat = (decodedMessages raw).length ∧
      ∀ m, n ≤ m →
        (WeakPipeline.new b₀ ringBufferCapacity).run raw (choices schedule m) = some s := by
  have hinv := WeakPipeline.inv_new raw b₀ ringBufferCapacity
  obtain ⟨n, hn⟩ := exists_upToDate hraw hinv hvisible
  obtain ⟨sn, applied, hrun, hsn⟩ := hinv.run hraw (choices schedule n)
  have hsplit : ∀ i, (WeakPipeline.new b₀ ringBufferCapacity).run raw
      (choices schedule (n + i)) = sn.run raw (choices (fun j => schedule (n + j)) i) := by
    intro i
    rw [WeakPipeline.run, choices_add, List.foldlM_append, ← WeakPipeline.run, hrun]
    rfl
  -- the rest of the run is one on a memory that is up to date
  have hnew : ∀ j sj k, sn.run raw (choices (fun i => schedule (n + i)) j) = some sj →
      sj.loads (schedule (n + j)).1 = some k →
        sj.ring.memory.pick (schedule (n + j)).1 k (schedule (n + j)).2 =
          sj.ring.memory.last k :=
    fun j sj k hj => hn (n + j) (Nat.le_add_right n j) sj k (by rw [hsplit, hj])
  have hsound : sn.current.Sound raw b₀ := by
    refine ⟨⟨applied, hsn.current⟩, fun hexited => ?_⟩
    have hproducer : sn.producer = .exited := hexited
    change sn.producer.done = true
    rw [hproducer]
    rfl
  obtain ⟨i, c, hend, -, hreturns⟩ :=
    (Pipeline.helps hraw b₀).terminates (hfair.shift n) hsound
  obtain ⟨s, applied', hs, hsinv, hsame⟩ := run_current hraw hsn hnew i
  obtain rfl := Option.some.inj (hend.symm.trans hsame)
  have hret : s.Returns := hreturns
  obtain ⟨hbook, hcount⟩ := hsinv.current.replayed_of_returns hraw hreturns
  refine ⟨n + i, s, hret, hbook, hcount, fun m hm => ?_⟩
  obtain ⟨k, rfl⟩ := Nat.exists_eq_add_of_le hm
  rw [WeakPipeline.run, choices_add, List.foldlM_append, ← WeakPipeline.run, hsplit, hs]
  exact foldlM_of_fixed hret.step_eq _

end WeakPipeline

open WeakPipeline in
/-- **Every fair scheduler brings the pipeline to its end, if stores become visible**, with the
memory orders that the source names.  However the scheduler takes turns and whatever old
stores the loads return: if both threads run again and again and every store is seen some day,
there is a moment from which on both threads are at their ends, all messages have been applied
in order, and they have been counted. -/
theorem weakPipeline_terminates (raw : Span) (b₀ : OrderBook) (ringBufferCapacity : UInt64)
    {schedule : ℕ → Thread × ℕ} (hfair : Fair fun n => (schedule n).1)
    (hvisible : (WeakPipeline.new b₀ ringBufferCapacity).Visible raw.bytes schedule) :
    ∃ n s, s.Returns ∧ b₀.applyAll (decodedMessages raw.bytes) = some s.book ∧
      s.messagesProcessed.toNat = (decodedMessages raw.bytes).length ∧
      ∀ m, n ≤ m →
        (WeakPipeline.new b₀ ringBufferCapacity).run raw.bytes (choices schedule m) = some s :=
  terminates raw.walkable b₀ ringBufferCapacity hfair hvisible

namespace WeakPipeline

/-- No store is taken back along a run. -/
theorem last_le_run {raw : List Byte} {next : List (Thread × ℕ)} {s s' : WeakPipeline}
    (hrun : s.run raw next = some s') (k : Index ⊕ Unit) :
    s.ring.memory.last k ≤ s'.ring.memory.last k := by
  induction next generalizing s with
  | nil =>
    obtain rfl := Option.some.inj hrun
    exact le_rfl
  | cons x next ih =>
    rw [WeakPipeline.run, List.foldlM_cons] at hrun
    obtain ⟨s₁, hstep, hrest⟩ := Option.bind_eq_some_iff.mp hrun
    exact (last_le_step hstep k).trans (ih hrest)

/-- Stores become visible if from some moment on the loads return the newest ones. -/
theorem visible_of_newest {raw : List Byte} {s : WeakPipeline} {schedule : ℕ → Thread × ℕ} {N : ℕ}
    (h : ∀ j, N ≤ j → (schedule j).2 = 0) : s.Visible raw schedule := by
  intro n sn hn
  refine ⟨max n N, fun j hj sj k hj' _ => ?_⟩
  obtain ⟨i, rfl⟩ := Nat.exists_eq_add_of_le ((le_max_left n N).trans hj)
  rw [WeakPipeline.run, choices_add, List.foldlM_append, ← WeakPipeline.run, hn] at hj'
  rw [h _ ((le_max_right n N).trans hj)]
  exact (last_le_run hj' k).trans (le_max_right _ _)

end WeakPipeline

/-- The threads take turns, and the first forty loads return old stores. -/
def staleTurns (n : ℕ) : Thread × ℕ :=
  (if n % 2 = 0 then Thread.producer else Thread.consumer, if n < 40 then 1 else 0)

theorem visible_staleTurns {raw : List Byte} {s : WeakPipeline} : s.Visible raw staleTurns :=
  WeakPipeline.visible_of_newest fun _ hj => if_neg (Nat.not_lt.mpr hj)

/-- An order and its execution, through a buffer for one message. -/
theorem weakPipeline_terminates_execution :
    ∃ n s, s.Returns ∧ (s.book.sharesAt 1000 true = 60 ∧ s.book.orderCount = 1) ∧
      s.messagesProcessed.toNat = 2 ∧ ∀ m, n ≤ m →
        (WeakPipeline.new (OrderBook.new 1000 2 4) 1).run orderAndExecution
          (choices staleTurns m) = some s := by
  obtain ⟨n, s, hret, hbook, hcount, hrun⟩ := weakPipeline_terminates
    ⟨orderAndExecution, walkable_orderAndExecution⟩ (OrderBook.new 1000 2 4) 1 fair_turns
    visible_staleTurns
  exact ⟨n, s, hret, sharesAt_orderAndExecution hbook, hcount.trans length_orderAndExecution, hrun⟩

end Liquibook
