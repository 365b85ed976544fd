import Liquibook.Itch.StreamReplay
import Liquibook.Pipeline.WeakProgress

/-!
# A generated file through the pipeline

The file that `generate` writes, read by the two threads of `run_itch_pipeline`, drives an
empty book through the states of the generator itself.  At every moment, whatever the
threads have done and however old the values are that they have read, the live orders of
the book are those the generator had after some of its steps, and in the end they are those
it is left with.

## Main results

* `messages_prefix` — the first messages are those of a shorter session.
* `generated_file_through_pipeline` — **the book goes through the states of the generator.**
-/

namespace Liquibook

open Lib

namespace Generator

variable {config : SynthConfig}

/-- A step writes one message or none. -/
theorem messages_concat (draws : List (Draws config)) (d : Draws config) :
    (run config (draws ++ [d])).messages = (run config draws).messages ∨
      ∃ m, (run config (draws ++ [d])).messages = (run config draws).messages ++ [m] := by
  obtain ⟨msgs, hprogress, -⟩ := run_inStep config draws
  have hmsgs : (run config draws).messages = msgs := hprogress.written.decodedMessages_eq
  rw [run_concat, hmsgs]
  obtain ⟨h, -⟩ | ⟨m, locate, tracking, ts, h, -⟩ := hprogress.step d
  · exact Or.inl h.written.decodedMessages_eq
  · exact Or.inr ⟨_, h.written.decodedMessages_eq⟩

/-- **The first messages are those of a shorter session.** -/
theorem messages_prefix (draws : List (Draws config)) {msgs : List DecodedMessage}
    (h : msgs <+: (run config draws).messages) :
    ∃ ds, ds <+: draws ∧ (run config ds).messages = msgs := by
  induction draws using List.reverseRecOn with
  | nil =>
    refine ⟨[], List.nil_prefix, ?_⟩
    have hnil : (run config []).messages = [] :=
      decodedMessages_of_none (rfl : nextFrame [] = none)
    rw [hnil] at h ⊢
    exact (List.prefix_nil.mp h).symm
  | append_singleton draws d ih =>
    have hshorter : msgs <+: (run config draws).messages →
        ∃ ds, ds <+: draws ++ [d] ∧ (run config ds).messages = msgs := fun h' => by
      obtain ⟨ds, hds, heq⟩ := ih h'
      exact ⟨ds, hds.trans (List.prefix_append _ _), heq⟩
    obtain hsame | ⟨m, hone⟩ := messages_concat draws d
    · rw [hsame] at h
      exact hshorter h
    · rw [hone, List.prefix_concat_iff] at h
      rcases h with rfl | h
      · exact ⟨draws ++ [d], List.prefix_refl _, hone⟩
      · exact hshorter h

/-- The messages of a shorter session create fewer orders. -/
theorem createdRefs_mono {msgs msgs' : List DecodedMessage} (h : msgs <+: msgs') :
    (createdRefs msgs).length ≤ (createdRefs msgs').length := by
  obtain ⟨rest, rfl⟩ := h
  rw [createdRefs, createdRefs, List.filterMap_append, List.length_append]
  exact Nat.le_add_right _ _

/-- The book that the first messages lead to has the live orders of a shorter session. -/
theorem liveOrders_of_prefix {draws : List (Draws config)} {msgs : List DecodedMessage}
    {referencePrice : Price4} {halfWidth capacity : ℕ} {b : OrderBook}
    (hrefs : (createdRefs (run config draws).messages).length ≤ 2 ^ 64)
    (hcapacity : Suffices capacity draws) (h : msgs <+: (run config draws).messages)
    (hb : (OrderBook.new referencePrice halfWidth capacity).applyAll msgs = some b) :
    ∃ ds, ds <+: draws ∧ (run config ds).messages = msgs ∧
      b.liveOrders.Perm ((run config ds).liveOrders.map restingOf) := by
  obtain ⟨ds, hds, heq⟩ := messages_prefix draws h
  refine ⟨ds, hds, heq, ?_⟩
  obtain ⟨msgs', hprogress, -, hinv⟩ := run_inStep config ds
  obtain rfl : msgs' = msgs := hprogress.written.decodedMessages_eq.symm.trans heq
  obtain ⟨-, hreplay⟩ := hinv ((createdRefs_mono h).trans hrefs)
  obtain ⟨-, b', l, hb', href, -, horders⟩ :=
    hreplay referencePrice halfWidth capacity fun ds' hds' => hcapacity ds' (hds'.trans hds)
  obtain rfl : b = b' := Option.some.inj (hb.symm.trans hb')
  exact horders ▸ href.liveOrders_perm

end Generator

open Generator in
/-- **The book goes through the states of the generator.**  Along every interleaving and with
every choice of old values, its live orders are at every moment those that the generator had
after some of its steps.  If both threads run again and again and stores become visible, both
come to their ends, and then the live orders are those that the generator is left with, and
all messages have been counted. -/
theorem generated_file_through_pipeline (config : SynthConfig) (draws : List (Draws config))
    (hrefs : (createdRefs (run config draws).messages).length ≤ 2 ^ 64)
    (hwalk : Walkable (run config draws).out) (referencePrice : Price4) (halfWidth : ℕ)
    {capacity : ℕ} (hcapacity : Suffices capacity draws) (ringBufferCapacity : UInt64) :
    (∀ schedule : List (Thread × ℕ), ∃ s ds,
      (WeakPipeline.new (OrderBook.new referencePrice halfWidth capacity)
        ringBufferCapacity).run (run config draws).out schedule = some s ∧
      ds <+: draws ∧ s.book.liveOrders.Perm ((run config ds).liveOrders.map restingOf) ∧
      (s.Returns →
        s.book.liveOrders.Perm ((run config draws).liveOrders.map restingOf) ∧
        s.messagesProcessed.toNat = (run config draws).messages.length)) ∧
    ∀ schedule : ℕ → Thread × ℕ, (Fair fun n => (schedule n).1) →
      (WeakPipeline.new (OrderBook.new referencePrice halfWidth capacity)
        ringBufferCapacity).Visible (run config draws).out schedule →
      ∃ n s, s.Returns ∧
        s.book.liveOrders.Perm ((run config draws).liveOrders.map restingOf) ∧
        s.messagesProcessed.toNat = (run config draws).messages.length ∧
        ∀ m, n ≤ m → (WeakPipeline.new (OrderBook.new referencePrice halfWidth capacity)
          ringBufferCapacity).run (run config draws).out (choices schedule m) = some s := by
  -- all messages lead to the live orders that the generator is left with
  have hfinal : ∀ b, (OrderBook.new referencePrice halfWidth capacity).applyAll
      (run config draws).messages = some b →
      b.liveOrders.Perm ((run config draws).liveOrders.map restingOf) := by
    intro b hb
    obtain ⟨msgs, hprogress, -, hinv⟩ := run_inStep config draws
    have hmsgs : (run config draws).messages = msgs := hprogress.written.decodedMessages_eq
    rw [hmsgs] at hrefs hb
    obtain ⟨-, b', l, hb', href, -, horders⟩ :=
      (hinv hrefs).2 referencePrice halfWidth capacity hcapacity
    obtain rfl : b = b' := Option.some.inj (hb.symm.trans hb')
    exact horders ▸ href.liveOrders_perm
  constructor
  · intro schedule
    obtain ⟨s, applied, hrun, h⟩ := (WeakPipeline.inv_new (run config draws).out
      (OrderBook.new referencePrice halfWidth capacity) ringBufferCapacity).run hwalk schedule
    obtain ⟨ds, hds, -, hperm⟩ :=
      liveOrders_of_prefix hrefs hcapacity h.current.applied_prefix h.current.book_eq
    refine ⟨s, ds, hrun, hds, hperm, fun hret => ?_⟩
    obtain ⟨hbook, hcount⟩ := h.current.replayed_of_returns hwalk hret
    exact ⟨hfinal _ hbook, hcount⟩
  · intro schedule hfair hvisible
    obtain ⟨n, s, hret, hbook, hcount, hrun⟩ :=
      WeakPipeline.terminates hwalk (OrderBook.new referencePrice halfWidth capacity)
        ringBufferCapacity hfair hvisible
    exact ⟨n, s, hret, hfinal _ hbook, hcount, hrun⟩

open Generator in
/-- A whole session through a buffer for one message: the threads take turns, and the first
forty loads return old stores. -/
theorem generated_file_through_pipeline_session :
    ∃ n s, s.Returns ∧ s.book.liveOrders.Perm [⟨4, 1500000, 100, true, 0⟩] ∧
      ∀ m, n ≤ m → (WeakPipeline.new (OrderBook.new 1500000 2 1) 1).run
        (run twoOrders wholeSession).out (choices staleTurns m) = some s := by
  have hrefs := length_createdRefs_le twoOrders wholeSession
  have hlen : wholeSession.length ≤ 2 ^ 64 := by decide
  have hwalk : Walkable (run twoOrders wholeSession).out := by
    unfold Walkable
    decide +kernel
  obtain ⟨n, s, hret, hperm, -, hrun⟩ := (generated_file_through_pipeline twoOrders wholeSession
    (hrefs.trans hlen) hwalk 1500000 2 suffices_wholeSession 1).2 staleTurns fair_turns
      visible_staleTurns
  exact ⟨n, s, hret, hperm, hrun⟩

end Liquibook
