import Liquibook.Lib.ReleaseAcquire
import Liquibook.Pipeline.ItchPipeline

/-!
# The ring buffer and its memory orders

`push` and `pop` of `containers/spsc_ring_buffer.hpp` load the own index with relaxed order
and the other one with acquire order, and store the own index with release order.  The
slots of the array are not atomic.  Here the calls run on a memory in which a load may
return an old store, so the thread that makes it may see the other one further behind
than it is.

All that this adds are calls that fail although they need not: a push that has not seen
the last pops finds the buffer full, and a pop that has not seen the last pushes
finds it empty.  Apart from these, each step is a step on the memory that is always up to
date, so the invariant of the buffer carries over.  The slots are handed from one thread
to the other with the indices, and no two accesses race.

The threads may have other atomic variables in common, which may tell one of them more about the
indices.  These are the elements of a type `E`.

## Main definitions

* `WeakRing`, `WeakRing.pushStep`, `WeakRing.popStep` — the buffer and the accesses of the calls.
* `WeakRing.current` — the buffer in a memory that is up to date.
* `WeakRing.Inv` — the invariant.

## Main results

* `WeakRing.Inv.pushStep`, `WeakRing.Inv.popStep` — **the steps keep the invariant.**
* `weakRing_is_bounded_fifo` — **the buffer is a bounded queue, and no two accesses race.**
-/

namespace Liquibook

open Lib

/-- `write_index_` and `read_index_` -/
inductive Index where
  | write
  | read
  deriving DecidableEq, Repr

/-- What the atomic variables hold: the indices words, and the others what they are for. -/
abbrev Held {E : Type} (V : E → Type) : Index ⊕ E → Type
  | .inl _ => UInt64
  | .inr e => V e

/-- A buffer of `T` in use, in a memory that has more atomic variables. -/
structure WeakRing {E : Type} (V : E → Type) (T : Type) where
  capacity : UInt64
  mask : UInt64
  buffer : List T
  memory : Memory Thread (Index ⊕ E) ℕ (Held V)
  push : PushCall T := .returned true
  pop : PopCall T := .returned none
  pushed : List T := []
  popped : List T := []

/-- A push that sees room goes on. -/
theorem Ring.pushStep_of_room {T : Type} {s : Ring T} {value : T} {write : UInt64}
    (hpush : s.push = .loaded value write) (h : ¬ write - s.buf.readIndex ≥ s.buf.capacity) :
    s.pushStep = { s with push := .room value write } := by
  simp only [pushStep, hpush, SpscRingBuffer.pushStep, if_neg h]

/-- A pop that sees a value goes on. -/
theorem Ring.popStep_of_value {T : Type} [Inhabited T] {s : Ring T} {read : UInt64}
    (hpop : s.pop = .loaded read) (h : read ≠ s.buf.writeIndex) :
    s.popStep = { s with pop := .ready read } := by
  simp only [popStep, hpop, SpscRingBuffer.popStep, if_neg h]

namespace WeakRing

variable {E : Type} {V : E → Type} {T : Type}

/-- The constructor. -/
def new (T : Type) [Inhabited T] (capacity : UInt64) (init : ∀ e, V e) : WeakRing V T where
  capacity := SpscRingBuffer.roundUpToPowerOfTwo capacity
  mask := SpscRingBuffer.roundUpToPowerOfTwo capacity - 1
  buffer := List.replicate (SpscRingBuffer.roundUpToPowerOfTwo capacity).toNat default
  memory := Memory.new fun
    | .inl _ => (0 : UInt64)
    | .inr e => init e

/-- One access of `push`.  A load returns the store that is `stale` stores old. -/
def pushStep [DecidableEq E] (s : WeakRing V T) (stale : ℕ) : WeakRing V T :=
  match s.push with
  | .entered value =>
      { s with
        memory := s.memory.load .relaxed .producer (.inl .write) stale
        push := .loaded value (s.memory.read .producer (.inl .write) stale) }
  | .loaded value write =>
      { s with
        memory := s.memory.load .acquire .producer (.inl .read) stale
        push :=
          if write - s.memory.read .producer (.inl .read) stale ≥ s.capacity
          then .returned false else .room value write }
  | .room value write =>
      { s with
        memory := s.memory.access .producer (write &&& s.mask).toNat true
        buffer := s.buffer.set (write &&& s.mask).toNat value
        push := .filled value write }
  | .filled value write =>
      { s with
        memory := s.memory.store .release .producer (.inl .write) (write + 1)
        push := .returned true
        pushed := s.pushed ++ [value] }
  | .returned _ => s

/-- One access of `pop`. -/
def popStep [DecidableEq E] [Inhabited T] (s : WeakRing V T) (stale : ℕ) : WeakRing V T :=
  match s.pop with
  | .entered =>
      { s with
        memory := s.memory.load .relaxed .consumer (.inl .read) stale
        pop := .loaded (s.memory.read .consumer (.inl .read) stale) }
  | .loaded read =>
      { s with
        memory := s.memory.load .acquire .consumer (.inl .write) stale
        pop :=
          if read = s.memory.read .consumer (.inl .write) stale
          then .returned none else .ready read }
  | .ready read =>
      { s with
        memory := s.memory.access .consumer (read &&& s.mask).toNat false
        pop := .taken read (s.buffer.getD (read &&& s.mask).toNat default) }
  | .taken read out =>
      { s with
        memory := s.memory.store .release .consumer (.inl .read) (read + 1)
        pop := .returned (some out)
        popped := s.popped ++ [out] }
  | .returned _ => s

/-- The next access of one of the calls races with an earlier access to the same slot. -/
def Races (s : WeakRing V T) : Prop :=
  (∃ value write, s.push = .room value write ∧
    s.memory.Race .producer (write &&& s.mask).toNat true) ∨
  ∃ read, s.pop = .ready read ∧ s.memory.Race .consumer (read &&& s.mask).toNat false

/-! ### The invariant -/

/-- The buffer in a memory that is up to date. -/
def current (s : WeakRing V T) : Ring T where
  buf :=
    { capacity := s.capacity
      mask := s.mask
      buffer := s.buffer
      writeIndex := UInt64.ofNat s.pushed.length
      readIndex := UInt64.ofNat s.popped.length }
  push := s.push
  pop := s.pop
  pushed := s.pushed
  popped := s.popped

/-- The slot of the `k`th value that is pushed. -/
def place (s : WeakRing V T) (k : ℕ) : ℕ := (UInt64.ofNat k &&& s.mask).toNat

/-- How many slots the producer has written. -/
def written (s : WeakRing V T) : ℕ :=
  match s.push with
  | .filled _ _ => s.pushed.length + 1
  | _ => s.pushed.length

/-- How many slots the consumer has read. -/
def fetched (s : WeakRing V T) : ℕ :=
  match s.pop with
  | .taken _ _ => s.popped.length + 1
  | _ => s.popped.length

/-- The number of pops that the producer knows of. -/
def seenPops (s : WeakRing V T) : ℕ := (s.memory.view .producer).stores (.inl .read)

/-- The number of pushes that the consumer knows of. -/
def seenPushes (s : WeakRing V T) : ℕ := (s.memory.view .consumer).stores (.inl .write)

/-- The producer has seen room. -/
def SeenRoom (s : WeakRing V T) : PushCall T → Prop
  | .room _ _ => s.pushed.length < s.seenPops + s.capacity.toNat
  | .filled _ _ => s.pushed.length < s.seenPops + s.capacity.toNat
  | _ => True

/-- The consumer has seen a value. -/
def SeenValue (s : WeakRing V T) : PopCall T → Prop
  | .ready _ => s.popped.length < s.seenPushes
  | .taken _ _ => s.popped.length < s.seenPushes
  | _ => True

theorem SeenRoom.mono {s s' : WeakRing V T} {c : PushCall T} (h : s.SeenRoom c)
    (hcapacity : s'.capacity = s.capacity) (hpushed : s'.pushed = s.pushed)
    (hle : s.seenPops ≤ s'.seenPops) : s'.SeenRoom c := by
  cases c with
  | room value write =>
    unfold SeenRoom at h ⊢
    rw [hcapacity, hpushed]
    omega
  | filled value write =>
    unfold SeenRoom at h ⊢
    rw [hcapacity, hpushed]
    omega
  | _ => trivial

theorem SeenValue.mono {s s' : WeakRing V T} {c : PopCall T} (h : s.SeenValue c)
    (hpopped : s'.popped = s.popped) (hle : s.seenPushes ≤ s'.seenPushes) : s'.SeenValue c := by
  cases c with
  | ready read =>
    unfold SeenValue at h ⊢
    rw [hpopped]
    omega
  | taken read out =>
    unfold SeenValue at h ⊢
    rw [hpopped]
    omega
  | _ => trivial

/-- The stores to an index: one for each call that took effect, and only the thread that makes
them knows of all of them for certain. -/
structure Stores (m : Memory Thread (Index ⊕ E) ℕ (Held V)) (t : Thread)
    (x : Index) (n : ℕ) : Prop where
  last_eq : m.last (.inl x) = n
  own_eq : (m.view t).stores (.inl x) = n
  value_eq : ∀ i ≤ n, (m.message (.inl x) i).value = UInt64.ofNat i

/-- **The invariant.**  The buffer is what it would be in a memory that is up to date, and the
indices hand the slots on. -/
structure Inv (s : WeakRing V T) : Prop where
  ring : s.current.Inv
  released : s.memory.Released
  writes : Stores s.memory .producer .write s.pushed.length
  reads : Stores s.memory .consumer .read s.popped.length
  ahead : s.pushed.length ≤ s.seenPops + s.capacity.toNat
  behind : s.popped.length ≤ s.seenPushes
  room : s.SeenRoom s.push
  value : s.SeenValue s.pop
  producer : s.memory.Accounted .producer (.inl .write) s.place s.written
  consumer : s.memory.Accounted .consumer (.inl .read) s.place s.fetched
  writers : ∀ x, ∀ a ∈ s.memory.accesses x, a.write = true → a.thread = .producer

/-! ### The stores to an index -/

namespace Stores

variable {m : Memory Thread (Index ⊕ E) ℕ (Held V)} {t u : Thread}
  {x y : Index} {k : Index ⊕ E} {n stale : ℕ}

theorem known (h : Stores m t x n) : (m.view t).stores (.inl x) = m.last (.inl x) :=
  h.own_eq.trans h.last_eq.symm

/-- A thread reads the last value that it stored. -/
theorem read_own (h : Stores m t x n) : m.read t (.inl x) stale = UInt64.ofNat n := by
  have hpick : m.pick t (.inl x) stale = n := by
    rw [Memory.pick, h.own_eq, h.last_eq]
    exact max_eq_left (Nat.sub_le _ _)
  rw [Memory.read, hpick]
  exact h.value_eq n le_rfl

/-- Another thread reads a value that was stored, and not an older one than it knows. -/
theorem read_other (h : Stores m t x n) (hr : m.Released) :
    ∃ i, (m.view u).stores (.inl x) ≤ i ∧ i ≤ n ∧ m.pick u (.inl x) stale = i ∧
      m.read u (.inl x) stale = UInt64.ofNat i := by
  have hle : m.pick u (.inl x) stale ≤ n := hr.pick_le.trans h.last_eq.le
  exact ⟨_, le_max_left _ _, hle, rfl, h.value_eq _ hle⟩

theorem access (h : Stores m t x n) {c : ℕ} {write : Bool} :
    Stores (m.access u c write) t x n where
  last_eq := h.last_eq
  own_eq := by
    by_cases hu : t = u
    · subst hu
      rw [Memory.access_view_self]
      exact h.own_eq
    · rw [Memory.access_view_of_ne hu]
      exact h.own_eq
  value_eq := h.value_eq

variable [DecidableEq E]

theorem load (h : Stores m t x n) (hr : m.Released) : Stores (m.load .acquire u k stale) t x n where
  last_eq := h.last_eq
  own_eq := by
    by_cases hu : t = u
    · subst hu
      refine le_antisymm ?_ ?_
      · exact (hr.load.stores_le.1 t _).trans h.last_eq.le
      · rw [hr.load_acquire_eq, ← h.own_eq]
        exact le_sup_left
    · rw [Memory.load_view_of_ne hu]
      exact h.own_eq
  value_eq := h.value_eq

theorem load_own (h : Stores m t x n) (hown : (m.view u).stores k = m.last k) :
    Stores (m.load .relaxed u k stale) t x n where
  last_eq := h.last_eq
  own_eq := by
    by_cases hu : t = u
    · subst hu
      rw [Memory.Released.load_own_eq hown]
      exact h.own_eq
    · rw [Memory.load_view_of_ne hu]
      exact h.own_eq
  value_eq := h.value_eq

/-- The next store. -/
theorem store_self (h : Stores m t x n) :
    Stores (m.store .release t (.inl x) (UInt64.ofNat n + 1)) t x (n + 1) where
  last_eq := by rw [Memory.store_last_self, h.last_eq]
  own_eq := by
    rw [Memory.store_view_self, View.see_stores_self, View.tick_stores, h.known, h.last_eq]
    exact max_eq_right (Nat.le_succ n)
  value_eq i hi := by
    rcases Nat.lt_or_ge n i with hlt | hle
    · obtain rfl : i = n + 1 := by omega
      have hmessage := @Memory.store_message_last _ _ _ _ m t (.inl x) (UInt64.ofNat n + 1) _ _
      rw [h.last_eq] at hmessage
      rw [hmessage]
      exact (UInt64.ofNat_add n 1).symm
    · rw [Memory.store_message_of_le (hle.trans h.last_eq.ge)]
      exact h.value_eq i hle

/-- A store to another variable. -/
theorem store_of_ne (h : Stores m t x n) (hne : .inl x ≠ k) (value : Held V k) :
    Stores (m.store .release u k value) t x n where
  last_eq := by rw [Memory.store_last_of_ne hne, h.last_eq]
  own_eq := by
    by_cases hu : t = u
    · subst hu
      rw [Memory.store_view_self, View.see_stores_of_ne hne]
      exact h.own_eq
    · rw [Memory.store_view_of_ne hu]
      exact h.own_eq
  value_eq i hi := by
    rw [Memory.store_message_of_le (hi.trans h.last_eq.ge)]
    exact h.value_eq i hi

end Stores

/-! ### The steps -/

section Steps

variable {s : WeakRing V T} {stale : ℕ}

namespace Inv

theorem seenPops_le (h : s.Inv) : s.seenPops ≤ s.popped.length :=
  (h.released.stores_le.1 _ _).trans h.reads.last_eq.le

theorem seenPushes_le (h : s.Inv) : s.seenPushes ≤ s.pushed.length :=
  (h.released.stores_le.1 _ _).trans h.writes.last_eq.le

/-- What a push computes from an old store of the other index. -/
theorem full_iff (h : s.Inv) {i : ℕ} (hseen : s.seenPops ≤ i) (hi : i ≤ s.popped.length) :
    UInt64.ofNat s.pushed.length - UInt64.ofNat i ≥ s.capacity ↔
      s.pushed.length = i + s.capacity.toNat := by
  have hle : s.popped.length ≤ s.pushed.length := h.ring.length_le
  have hahead := h.ahead
  have hcap := s.capacity.toNat_lt
  rw [ge_iff_le, UInt64.le_iff_toNat_le, toNat_ofNat_sub (by omega) (by omega)]
  omega

/-- What a pop computes from an old store of the other index. -/
theorem empty_iff (h : s.Inv) {i : ℕ} (hseen : s.seenPushes ≤ i) (hi : i ≤ s.pushed.length) :
    UInt64.ofNat s.popped.length = UInt64.ofNat i ↔ s.popped.length = i := by
  have hbound : s.pushed.length ≤ s.popped.length + s.capacity.toNat := h.ring.bound
  have hcap := s.capacity.toNat_lt
  exact ofNat_eq_ofNat_iff (h.behind.trans hseen) (by omega)

/-- **No access races.**  The slot that a call is about to access was used before by calls that
the thread knows of, through the index that it has loaded. -/
theorem not_races (h : s.Inv) : ¬ s.Races := by
  have hslot : ∀ k, s.place k = k % s.capacity.toNat := h.ring.slot_eq
  have hbound : s.pushed.length ≤ s.popped.length + s.capacity.toNat := h.ring.bound
  have hpops := h.seenPops_le
  rintro (⟨value, write, hpush, a, ha, -, hlt⟩ | ⟨read, hpop, a, ha, hwrite, hlt⟩)
  · obtain ⟨rfl, -⟩ : write = UInt64.ofNat s.pushed.length ∧ _ := by
      have := h.ring.push
      dsimp only [current] at this
      rw [hpush] at this
      exact this
    have hroom : s.pushed.length < s.seenPops + s.capacity.toNat := by
      have := h.room
      rwa [hpush] at this
    refine absurd hlt (Nat.not_lt.mpr ?_)
    cases ht : a.thread with
    | producer =>
      have := h.released.access_le _ a ha
      rwa [ht] at this
    | consumer =>
      have hfetched : s.fetched ≤ s.pushed.length := by
        unfold fetched
        have hle := h.ring.length_le
        split
        next read out hpop =>
          have := h.value
          rw [hpop] at this
          have hlt : s.popped.length < s.seenPushes := this
          have := h.seenPushes_le
          omega
        next => exact hle
      -- a pop that used the slot is one round behind
      have hseen : ∀ i < s.fetched, s.place i = s.place s.pushed.length → i < s.seenPops := by
        intro i hi hplace
        rw [hslot, hslot] at hplace
        by_contra hge
        exact mod_ne_mod_of_lt (Nat.not_lt.mp hge) (hi.trans_le hfetched) hroom hplace
      have hknown : a.step ≤ (s.memory.view .producer).steps a.thread :=
        h.consumer.known ha ht hseen
      rwa [ht] at hknown
  · obtain ⟨rfl, -⟩ : read = UInt64.ofNat s.popped.length ∧ _ := by
      have := h.ring.pop
      dsimp only [current] at this
      rw [hpop] at this
      exact this
    have hvalue : s.popped.length < s.seenPushes := by
      have := h.value
      rwa [hpop] at this
    rw [Bool.or_false] at hwrite
    have ht := h.writers _ a ha hwrite
    refine absurd hlt (Nat.not_lt.mpr ?_)
    have hwritten : s.written ≤ s.popped.length + s.capacity.toNat := by
      unfold written
      split
      next value write hpush =>
        have := h.room
        rw [hpush] at this
        have hroom : s.pushed.length < s.seenPops + s.capacity.toNat := this
        omega
      next => exact hbound
    -- a push that used the slot is the one whose value is read, or an earlier one
    have hseen : ∀ i < s.written, s.place i = s.place s.popped.length → i < s.seenPushes := by
      intro i hi hplace
      rw [hslot, hslot] at hplace
      rcases Nat.lt_or_ge s.popped.length i with hlt' | hle
      · exact absurd hplace.symm (mod_ne_mod_of_lt le_rfl hlt' (hi.trans_le hwritten))
      · exact hle.trans_lt hvalue
    exact h.producer.known ha ht hseen

variable [DecidableEq E]

/-- **A push does what it would do in a memory that is up to date, or fails.**  It fails when it
has not seen enough pops. -/
theorem pushStep_current (h : s.Inv) (stale : ℕ) :
    (s.pushStep stale).current = s.current.pushStep ∨
    (s.pushStep stale).current = { s.current with push := .returned false } ∧
      ∃ value write, s.push = .loaded value write ∧
        s.pushed.length = s.memory.pick .producer (.inl .read) stale + s.capacity.toNat := by
  obtain ⟨capacity, mask, buffer, memory, call, pop, pushed, popped⟩ := s
  cases call with
  | entered value =>
    left
    have hread := @Stores.read_own _ _ _ _ _ _ stale h.writes
    dsimp only at hread
    simp only [WeakRing.pushStep, current, hread]
    rfl
  | loaded value write =>
    obtain rfl : write = UInt64.ofNat pushed.length := h.ring.push
    obtain ⟨i, hseen, hi, hpick, hread⟩ :=
      @Stores.read_other _ _ _ _ .producer _ _ stale h.reads h.released
    have hfull := h.full_iff hseen hi
    dsimp only at hread hpick hfull
    by_cases hge : UInt64.ofNat pushed.length - UInt64.ofNat i ≥ capacity
    · right
      refine ⟨?_, value, _, rfl, ?_⟩
      · simp only [WeakRing.pushStep, current, hread, if_pos hge]
      · dsimp only
        rw [hpick]
        exact hfull.mp hge
    · left
      have hlt : ¬ UInt64.ofNat pushed.length - UInt64.ofNat popped.length ≥ capacity := by
        intro hge'
        have hnow := (h.ring.full_iff).mp hge'
        have hahead := h.ahead
        refine hge (hfull.mpr ?_)
        dsimp only [current] at hnow hahead hseen hi
        unfold seenPops at hahead
        dsimp only at hahead
        omega
      refine Eq.trans ?_ (Ring.pushStep_of_room rfl hlt).symm
      simp only [WeakRing.pushStep, current, hread, if_neg hge]
  | room value write => exact Or.inl rfl
  | filled value write =>
    left
    obtain ⟨rfl, -⟩ : write = UInt64.ofNat pushed.length ∧ _ := h.ring.push
    simp only [WeakRing.pushStep, current, Ring.pushStep, SpscRingBuffer.pushStep,
      List.length_append, UInt64.ofNat_add]
    rfl
  | returned ok => exact Or.inl rfl

/-- **A pop does what it would do in a memory that is up to date, or fails.**  It fails when it
has not seen enough pushes. -/
theorem popStep_current [Inhabited T] (h : s.Inv) (stale : ℕ) :
    (s.popStep stale).current = s.current.popStep ∨
    (s.popStep stale).current = { s.current with pop := .returned none } ∧
      ∃ read, s.pop = .loaded read ∧
        s.popped.length = s.memory.pick .consumer (.inl .write) stale := by
  obtain ⟨capacity, mask, buffer, memory, push, call, pushed, popped⟩ := s
  cases call with
  | entered =>
    left
    have hread := @Stores.read_own _ _ _ _ _ _ stale h.reads
    dsimp only at hread
    simp only [WeakRing.popStep, current, hread]
    rfl
  | loaded read =>
    obtain rfl : read = UInt64.ofNat popped.length := h.ring.pop
    obtain ⟨i, hseen, hi, hpick, hread⟩ :=
      @Stores.read_other _ _ _ _ .consumer _ _ stale h.writes h.released
    have hempty := h.empty_iff hseen hi
    dsimp only at hread hpick hempty
    by_cases heq : UInt64.ofNat popped.length = UInt64.ofNat i
    · right
      refine ⟨?_, _, rfl, ?_⟩
      · simp only [WeakRing.popStep, current, hread, if_pos heq]
      · dsimp only
        rw [hpick]
        exact hempty.mp heq
    · left
      have hne : UInt64.ofNat popped.length ≠ UInt64.ofNat pushed.length := by
        intro heq'
        have hnow := h.ring.empty_iff.mp heq'
        have hbehind := h.behind
        refine heq (hempty.mpr ?_)
        dsimp only [current] at hnow hbehind hseen hi
        unfold seenPushes at hbehind
        dsimp only at hbehind
        omega
      refine Eq.trans ?_ (Ring.popStep_of_value rfl hne).symm
      simp only [WeakRing.popStep, current, hread, if_neg heq]
  | ready read => exact Or.inl rfl
  | taken read out =>
    left
    obtain ⟨rfl, -⟩ : read = UInt64.ofNat popped.length ∧ _ := h.ring.pop
    simp only [WeakRing.popStep, current, Ring.popStep, SpscRingBuffer.popStep,
      List.length_append, UInt64.ofNat_add]
    rfl
  | returned out => exact Or.inl rfl

/-- **The producer's steps keep the invariant.** -/
theorem pushStep (h : s.Inv) (stale : ℕ) : (s.pushStep stale).Inv := by
  have hring : (s.pushStep stale).current.Inv := by
    rcases h.pushStep_current stale with he | ⟨he, -⟩
    · rw [he]
      exact h.ring.pushStep
    · rw [he]
      exact { h.ring with push := trivial }
  obtain ⟨capacity, mask, buffer, memory, call, pop, pushed, popped⟩ := s
  have hahead := h.ahead
  have hbehind := h.behind
  cases call with
  | entered value =>
    have hown := h.writes.known
    have hle := @Memory.view_le_load _ _ _ _ memory .producer (.inl .write) .relaxed stale _ _
    exact { h with
      ring := hring
      released := h.released.load_own hown
      writes := h.writes.load_own hown
      reads := h.reads.load_own hown
      ahead := hahead.trans (Nat.add_le_add_right ((hle .producer).2 _) _)
      behind := hbehind.trans ((hle .consumer).2 _)
      room := trivial
      value := h.value.mono rfl ((hle .consumer).2 _)
      producer := h.producer.load_own hown
      consumer := h.consumer.load_own hown }
  | loaded value write =>
    obtain rfl : write = UInt64.ofNat pushed.length := h.ring.push
    have hle := @Memory.view_le_load _ _ _ _ memory .producer (.inl .read) .acquire stale _ _
    refine { h with
      ring := hring
      released := h.released.load
      writes := h.writes.load h.released
      reads := h.reads.load h.released
      ahead := hahead.trans (Nat.add_le_add_right ((hle .producer).2 _) _)
      behind := hbehind.trans ((hle .consumer).2 _)
      room := ?_
      value := h.value.mono rfl ((hle .consumer).2 _)
      producer := ?_
      consumer := h.consumer.load h.released }
    · -- room that an old store shows is there
      obtain ⟨i, hseen, hi, hpick, hread⟩ :=
        @Stores.read_other _ _ _ _ .producer _ _ stale h.reads h.released
      have hfull := h.full_iff hseen hi
      have hknown := @Memory.pick_le_load _ _ _ _ memory .producer (.inl .read) .acquire stale _ _
      dsimp only at hread hpick hfull
      rw [hpick] at hknown
      simp only [WeakRing.pushStep, hread]
      split
      · trivial
      next hlt =>
        unfold SeenRoom seenPops
        dsimp only
        have hroom := mt hfull.mpr hlt
        have hpops : pushed.length ≤ i + capacity.toNat := by
          unfold seenPops at hahead
          dsimp only at hahead hseen
          omega
        omega
    · simp only [WeakRing.pushStep, written]
      split
      · exact h.producer.load h.released
      · exact h.producer.load h.released
  | room value write =>
    obtain rfl : write = UInt64.ofNat pushed.length := h.ring.push.1
    have hle := @Memory.view_le_access _ _ _ _ memory .producer
      (UInt64.ofNat pushed.length &&& mask).toNat true _ _
    exact { h with
      ring := hring
      released := h.released.access
      writes := h.writes.access
      reads := h.reads.access
      ahead := hahead.trans (Nat.add_le_add_right ((hle .producer).2 _) _)
      behind := hbehind.trans ((hle .consumer).2 _)
      room := (show _ < _ from h.room).trans_le (Nat.add_le_add_right ((hle .producer).2 _) _)
      value := h.value.mono rfl ((hle .consumer).2 _)
      producer := h.producer.access_self h.released h.writes.last_eq.le
      consumer := h.consumer.access_of_ne (by decide)
      writers := by
        intro x a ha hwrite
        rcases Memory.mem_access.mp ha with ⟨-, rfl⟩ | ha
        · rfl
        · exact h.writers x a ha hwrite }
  | filled value write =>
    obtain rfl : write = UInt64.ofNat pushed.length := h.ring.push.1
    have hown := h.writes.known
    have hle := @Memory.view_le_store _ _ _ _ memory .producer (.inl .write) .release
      (UInt64.ofNat pushed.length + 1) _ _
    have hlen : (pushed ++ [value]).length = pushed.length + 1 := List.length_append
    exact { h with
      ring := hring
      released := h.released.store hown
      writes := by
        have := h.writes.store_self
        rwa [← hlen] at this
      reads := h.reads.store_of_ne (by simp) _
      ahead := by
        have hroom : pushed.length < _ + capacity.toNat := h.room
        have := (hle .producer).2 (.inl .read)
        change (pushed ++ [value]).length ≤ _ + capacity.toNat
        rw [hlen]
        exact Nat.succ_le_of_lt (hroom.trans_le (Nat.add_le_add_right this _))
      behind := hbehind.trans ((hle .consumer).2 _)
      room := trivial
      value := h.value.mono rfl ((hle .consumer).2 _)
      producer := by
        change Memory.Accounted _ _ _ _ (pushed ++ [value]).length
        rw [hlen]
        exact h.producer.store_self h.released hown
      consumer := h.consumer.store_of_ne hown (by simp) }
  | returned ok => exact h

/-- **The consumer's steps keep the invariant.** -/
theorem popStep [Inhabited T] (h : s.Inv) (stale : ℕ) : (s.popStep stale).Inv := by
  have hring : (s.popStep stale).current.Inv := by
    rcases h.popStep_current stale with he | ⟨he, -⟩
    · rw [he]
      exact h.ring.popStep
    · rw [he]
      exact { h.ring with pop := trivial }
  obtain ⟨capacity, mask, buffer, memory, push, call, pushed, popped⟩ := s
  have hahead := h.ahead
  have hbehind := h.behind
  cases call with
  | entered =>
    have hown := h.reads.known
    have hle := @Memory.view_le_load _ _ _ _ memory .consumer (.inl .read) .relaxed stale _ _
    exact { h with
      ring := hring
      released := h.released.load_own hown
      writes := h.writes.load_own hown
      reads := h.reads.load_own hown
      ahead := hahead.trans (Nat.add_le_add_right ((hle .producer).2 _) _)
      behind := hbehind.trans ((hle .consumer).2 _)
      room := h.room.mono rfl rfl ((hle .producer).2 _)
      value := trivial
      producer := h.producer.load_own hown
      consumer := h.consumer.load_own hown }
  | loaded read =>
    obtain rfl : read = UInt64.ofNat popped.length := h.ring.pop
    have hle := @Memory.view_le_load _ _ _ _ memory .consumer (.inl .write) .acquire stale _ _
    refine { h with
      ring := hring
      released := h.released.load
      writes := h.writes.load h.released
      reads := h.reads.load h.released
      ahead := hahead.trans (Nat.add_le_add_right ((hle .producer).2 _) _)
      behind := hbehind.trans ((hle .consumer).2 _)
      room := h.room.mono rfl rfl ((hle .producer).2 _)
      value := ?_
      producer := h.producer.load h.released
      consumer := ?_ }
    · -- a value that an old store shows is there
      obtain ⟨i, hseen, hi, hpick, hread⟩ :=
        @Stores.read_other _ _ _ _ .consumer _ _ stale h.writes h.released
      have hempty := h.empty_iff hseen hi
      have hknown := @Memory.pick_le_load _ _ _ _ memory .consumer (.inl .write) .acquire stale _ _
      dsimp only at hread hpick hempty
      rw [hpick] at hknown
      simp only [WeakRing.popStep, hread]
      split
      · trivial
      next hne =>
        unfold SeenValue seenPushes
        dsimp only
        have hvalue := mt hempty.mpr hne
        have hpushes : popped.length ≤ i := hbehind.trans hseen
        omega
    · simp only [WeakRing.popStep, fetched]
      split
      · exact h.consumer.load h.released
      · exact h.consumer.load h.released
  | ready read =>
    obtain rfl : read = UInt64.ofNat popped.length := h.ring.pop.1
    have hle := @Memory.view_le_access _ _ _ _ memory .consumer
      (UInt64.ofNat popped.length &&& mask).toNat false _ _
    exact { h with
      ring := hring
      released := h.released.access
      writes := h.writes.access
      reads := h.reads.access
      ahead := hahead.trans (Nat.add_le_add_right ((hle .producer).2 _) _)
      behind := hbehind.trans ((hle .consumer).2 _)
      room := h.room.mono rfl rfl ((hle .producer).2 _)
      value := (show _ < _ from h.value).trans_le ((hle .consumer).2 _)
      producer := h.producer.access_of_ne (by decide)
      consumer := h.consumer.access_self h.released h.reads.last_eq.le
      writers := by
        intro x a ha hwrite
        rcases Memory.mem_access.mp ha with ⟨-, rfl⟩ | ha
        · cases hwrite
        · exact h.writers x a ha hwrite }
  | taken read out =>
    obtain rfl : read = UInt64.ofNat popped.length := h.ring.pop.1
    have hown := h.reads.known
    have hle := @Memory.view_le_store _ _ _ _ memory .consumer (.inl .read) .release
      (UInt64.ofNat popped.length + 1) _ _
    have hlen : (popped ++ [out]).length = popped.length + 1 := List.length_append
    exact { h with
      ring := hring
      released := h.released.store hown
      writes := h.writes.store_of_ne (by simp) _
      reads := by
        have := h.reads.store_self
        rwa [← hlen] at this
      ahead := hahead.trans (Nat.add_le_add_right ((hle .producer).2 _) _)
      behind := by
        have hvalue : popped.length < _ := h.value
        change (popped ++ [out]).length ≤ _
        rw [hlen]
        exact Nat.succ_le_of_lt (hvalue.trans_le ((hle .consumer).2 _))
      room := h.room.mono rfl rfl ((hle .producer).2 _)
      value := trivial
      producer := h.producer.store_of_ne hown (by simp)
      consumer := by
        change Memory.Accounted _ _ _ _ (popped ++ [out]).length
        rw [hlen]
        exact h.consumer.store_self h.released hown }
  | returned out => exact h

/-- A load of another variable. -/
theorem load (h : s.Inv) (t : Thread) (e : E) (stale : ℕ) :
    { s with memory := s.memory.load .acquire t (.inr e) stale }.Inv :=
  have hle := @Memory.view_le_load _ _ _ _ s.memory t (.inr e) .acquire stale _ _
  { h with
    released := h.released.load
    writes := h.writes.load h.released
    reads := h.reads.load h.released
    ahead := h.ahead.trans (Nat.add_le_add_right ((hle .producer).2 _) _)
    behind := h.behind.trans ((hle .consumer).2 _)
    room := h.room.mono rfl rfl ((hle .producer).2 _)
    value := h.value.mono rfl ((hle .consumer).2 _)
    producer := h.producer.load h.released
    consumer := h.consumer.load h.released }

/-- A store to another variable. -/
theorem store (h : s.Inv) {t : Thread} {e : E} (value : V e)
    (hown : (s.memory.view t).stores (.inr e) = s.memory.last (.inr e)) :
    { s with memory := s.memory.store .release t (.inr e) value }.Inv :=
  have hle := @Memory.view_le_store _ _ _ _ s.memory t (.inr e) .release value _ _
  { h with
    released := h.released.store hown
    writes := h.writes.store_of_ne Sum.inl_ne_inr value
    reads := h.reads.store_of_ne Sum.inl_ne_inr value
    ahead := h.ahead.trans (Nat.add_le_add_right ((hle .producer).2 _) _)
    behind := h.behind.trans ((hle .consumer).2 _)
    room := h.room.mono rfl rfl ((hle .producer).2 _)
    value := h.value.mono rfl ((hle .consumer).2 _)
    producer := h.producer.store_of_ne hown Sum.inl_ne_inr
    consumer := h.consumer.store_of_ne hown Sum.inl_ne_inr }

end Inv

/-! ### Other variables -/

/-- A step leaves another atomic variable alone: it forgets nothing, and what the variable
publishes stays published. -/
structure Beside (m m' : Memory Thread (Index ⊕ E) ℕ (Held V)) (e : E) : Prop where
  last_eq : m'.last (.inr e) = m.last (.inr e)
  message_eq : ∀ i ≤ m.last (.inr e), m'.message (.inr e) i = m.message (.inr e) i
  view_le : ∀ u, m.view u ≤ m'.view u
  all : ∀ n w, m.All (Publishes (.inr e) n w) → m'.All (Publishes (.inr e) n w)

namespace Beside

variable {m : Memory Thread (Index ⊕ E) ℕ (Held V)} {t : Thread} {e : E}

theorem refl (m : Memory Thread (Index ⊕ E) ℕ (Held V)) (e : E) : Beside m m e :=
  ⟨rfl, fun _ _ => rfl, fun _ => le_rfl, fun _ _ h => h⟩

theorem access {x : ℕ} {write : Bool} : Beside m (m.access t x write) e :=
  ⟨rfl, fun _ _ => rfl, Memory.view_le_access, fun _ _ h => h.access⟩

variable [DecidableEq E]

theorem load_own {k : Index ⊕ E} (hown : (m.view t).stores k = m.last k) :
    Beside m (m.load .relaxed t k stale) e :=
  ⟨rfl, fun _ _ => rfl, Memory.view_le_load, fun _ _ h => h.load_own hown⟩

theorem load {k : Index ⊕ E} (hr : m.Released) : Beside m (m.load .acquire t k stale) e :=
  ⟨rfl, fun _ _ => rfl, Memory.view_le_load, fun _ _ h => h.load hr⟩

theorem store {x : Index} {value : UInt64} (hown : (m.view t).stores (.inl x) = m.last (.inl x)) :
    Beside m (m.store .release t (.inl x) value) e :=
  ⟨Memory.store_last_of_ne Sum.inr_ne_inl, fun _ hi => Memory.store_message_of_le hi,
    Memory.view_le_store, fun _ _ h => h.store hown fun he => absurd he Sum.inr_ne_inl⟩

end Beside

namespace Inv

variable [DecidableEq E] {e : E}

theorem pushStep_beside (h : s.Inv) (stale : ℕ) :
    Beside s.memory (s.pushStep stale).memory e := by
  obtain ⟨capacity, mask, buffer, memory, call, pop, pushed, popped⟩ := s
  cases call with
  | entered value => exact Beside.load_own h.writes.known
  | loaded value write => exact Beside.load h.released
  | room value write => exact Beside.access
  | filled value write => exact Beside.store h.writes.known
  | returned ok => exact Beside.refl _ _

theorem popStep_beside [Inhabited T] (h : s.Inv) (stale : ℕ) :
    Beside s.memory (s.popStep stale).memory e := by
  obtain ⟨capacity, mask, buffer, memory, push, call, pushed, popped⟩ := s
  cases call with
  | entered => exact Beside.load_own h.reads.known
  | loaded read => exact Beside.load h.released
  | ready read => exact Beside.access
  | taken read out => exact Beside.store h.reads.known
  | returned out => exact Beside.refl _ _

end Inv

end Steps

/-! ### Whole runs -/

/-- **The invariant holds at the start.** -/
theorem inv_new [Inhabited T] (capacity : UInt64) (init : ∀ e, V e) :
    (new T capacity init).Inv where
  ring := Ring.inv_new capacity
  released := Memory.released_new _
  writes := ⟨rfl, rfl, fun i hi => by rw [Nat.le_zero.mp hi]; rfl⟩
  reads := ⟨rfl, rfl, fun i hi => by rw [Nat.le_zero.mp hi]; rfl⟩
  ahead := Nat.zero_le _
  behind := le_rfl
  room := trivial
  value := trivial
  producer := Memory.accounted_new _ _ _ _ _
  consumer := Memory.accounted_new _ _ _ _ _
  writers x a ha := by cases ha

variable [DecidableEq E] {s s' : WeakRing V T}

/-- A step of one of the two threads: a call, an access of the call that is under way, or an
access to another atomic variable, of which a thread that stores to it knows the last store. -/
inductive Step [Inhabited T] : WeakRing V T → WeakRing V T → Prop
  | callPush {s : WeakRing V T} {ok : Bool} (value : T) (h : s.push = .returned ok) :
      Step s { s with push := .entered value }
  | push {s : WeakRing V T} (stale : ℕ) (h : s.push.UnderWay) : Step s (s.pushStep stale)
  | callPop {s : WeakRing V T} {out : Option T} (h : s.pop = .returned out) :
      Step s { s with pop := .entered }
  | pop {s : WeakRing V T} (stale : ℕ) (h : s.pop.UnderWay) : Step s (s.popStep stale)
  | load {s : WeakRing V T} (t : Thread) (e : E) (stale : ℕ) :
      Step s { s with memory := s.memory.load .acquire t (.inr e) stale }
  | store {s : WeakRing V T} {t : Thread} {e : E} (value : V e)
      (h : (s.memory.view t).stores (.inr e) = s.memory.last (.inr e)) :
      Step s { s with memory := s.memory.store .release t (.inr e) value }

/-- **Every step keeps the invariant.** -/
theorem Inv.step [Inhabited T] (h : s.Inv) (hstep : Step s s') : s'.Inv := by
  cases hstep with
  | callPush value hcall =>
    exact { h with
      ring := { h.ring with push := trivial }
      room := trivial
      producer := by
        have hproducer := h.producer
        unfold written at hproducer
        rw [hcall] at hproducer
        exact hproducer }
  | push stale _ => exact h.pushStep stale
  | callPop hcall =>
    exact { h with
      ring := { h.ring with pop := trivial }
      value := trivial
      consumer := by
        have hconsumer := h.consumer
        unfold fetched at hconsumer
        rw [hcall] at hconsumer
        exact hconsumer }
  | pop stale _ => exact h.popStep stale
  | load t e stale => exact h.load t e stale
  | store value hown => exact h.store value hown

/-- No step changes the capacity. -/
theorem Step.capacity_eq [Inhabited T] (h : Step s s') : s'.capacity = s.capacity := by
  cases h with
  | push stale _ =>
    unfold WeakRing.pushStep
    split <;> rfl
  | pop stale _ =>
    unfold WeakRing.popStep
    split <;> rfl
  | _ => rfl

/-! ### What a call does -/

namespace Inv

/-- **A push takes effect at one of its steps, or fails at one.**  It fails when there is no room
as far as it has seen. -/
theorem push_cases (h : s.Inv) (hcall : s.push.UnderWay) (stale : ℕ) :
    (s.pushStep stale).push.UnderWay ∧ (s.pushStep stale).pushed = s.pushed ∨
    (s.pushStep stale).push = .returned false ∧ (s.pushStep stale).pushed = s.pushed ∧
      (∃ seen, s.seenPops ≤ seen ∧ seen ≤ s.popped.length ∧
        (stale = 0 → seen = s.popped.length) ∧ s.pushed.length = seen + s.capacity.toNat) ∨
    ∃ value write, s.push = .filled value write ∧ (s.pushStep stale).push = .returned true ∧
      (s.pushStep stale).pushed = s.pushed ++ [value] ∧
      s.pushed.length < s.popped.length + s.capacity.toNat := by
  have hle := h.ring.length_le
  have hlength := s.current.length_undelivered
  dsimp only [current] at hle hlength
  rcases h.pushStep_current stale with he | ⟨he, value, write, hpush, hfull⟩
  · have hpush : (s.pushStep stale).push = s.current.pushStep.push := congrArg Ring.push he
    have hpushed : (s.pushStep stale).pushed = s.current.pushStep.pushed :=
      congrArg Ring.pushed he
    rw [hpush, hpushed]
    obtain hon | ⟨hret, hsame, hfull⟩ | ⟨value, write, hfilled, hret, hnew, hroom⟩ :=
      h.ring.push_cases hcall
    · exact Or.inl hon
    · refine Or.inr (Or.inl ⟨hret, hsame, _, h.seenPops_le, le_rfl, fun _ => rfl, ?_⟩)
      have hcap : s.current.undelivered.length = s.capacity.toNat := hfull
      dsimp only [current] at hcap
      omega
    · refine Or.inr (Or.inr ⟨value, write, hfilled, hret, hnew, ?_⟩)
      have hcap : s.current.undelivered.length < s.capacity.toNat := hroom
      dsimp only [current] at hcap
      omega
  · right; left
    refine ⟨congrArg Ring.push he, congrArg Ring.pushed he, _, le_max_left _ _, ?_, ?_, hfull⟩
    · exact h.released.pick_le.trans h.reads.last_eq.le
    · rintro rfl
      refine le_antisymm (h.released.pick_le.trans h.reads.last_eq.le) ?_
      exact h.reads.last_eq.ge.trans (le_max_right _ _)

/-- **A pop takes effect at one of its steps, or fails at one.**  It fails when there is nothing
as far as it has seen. -/
theorem pop_cases [Inhabited T] (h : s.Inv) (hcall : s.pop.UnderWay) (stale : ℕ) :
    (s.popStep stale).pop.UnderWay ∧ (s.popStep stale).popped = s.popped ∨
    (s.popStep stale).pop = .returned none ∧ (s.popStep stale).popped = s.popped ∧
      (∃ seen, s.seenPushes ≤ seen ∧ seen ≤ s.pushed.length ∧
        (stale = 0 → seen = s.pushed.length) ∧ s.popped.length = seen) ∨
    ∃ read out, s.pop = .taken read out ∧ (s.popStep stale).pop = .returned (some out) ∧
      (s.popStep stale).popped = s.popped ++ [out] ∧ s.pushed[s.popped.length]? = some out := by
  rcases h.popStep_current stale with he | ⟨he, read, hpop, hempty⟩
  · have hpop : (s.popStep stale).pop = s.current.popStep.pop := congrArg Ring.pop he
    have hpopped : (s.popStep stale).popped = s.current.popStep.popped :=
      congrArg Ring.popped he
    rw [hpop, hpopped]
    obtain hon | ⟨hret, hsame, hempty⟩ | ⟨read, out, htaken, hret, hnew, hhead⟩ :=
      h.ring.pop_cases hcall
    · exact Or.inl hon
    · refine Or.inr (Or.inl ⟨hret, hsame, _, h.seenPushes_le, le_rfl, fun _ => rfl, ?_⟩)
      exact le_antisymm h.ring.length_le (List.drop_eq_nil_iff.mp hempty)
    · refine Or.inr (Or.inr ⟨read, out, htaken, hret, hnew, ?_⟩)
      rw [Ring.undelivered, List.head?_drop] at hhead
      exact hhead
  · right; left
    refine ⟨congrArg Ring.pop he, congrArg Ring.popped he, _, le_max_left _ _, ?_, ?_, hempty⟩
    · exact h.released.pick_le.trans h.writes.last_eq.le
    · rintro rfl
      refine le_antisymm (h.released.pick_le.trans h.writes.last_eq.le) ?_
      exact h.writes.last_eq.ge.trans (le_max_right _ _)

end Inv

/-- **The buffer is a bounded queue, and no two accesses race**, with the memory orders that the
source names.  In every state of every run, whatever old stores the loads return: what has
been popped is an initial part of what has been pushed; at most `capacity` values are
undelivered; and a call under way either goes on, or takes effect, or fails with the
queue full, or empty, as far as it has seen, which is as it is if its load returns the
newest store. -/
theorem weakRing_is_bounded_fifo [Inhabited T] (capacity : UInt64) (init : ∀ e, V e)
    (h : Relation.ReflTransGen Step (new T capacity init) s) (stale : ℕ) :
    ¬ s.Races ∧ s.capacity = SpscRingBuffer.roundUpToPowerOfTwo capacity ∧
    s.popped <+: s.pushed ∧ s.pushed.length ≤ s.popped.length + s.capacity.toNat ∧
    (s.push.UnderWay →
      (s.pushStep stale).push.UnderWay ∧ (s.pushStep stale).pushed = s.pushed ∨
      (s.pushStep stale).push = .returned false ∧ (s.pushStep stale).pushed = s.pushed ∧
        (∃ seen, s.seenPops ≤ seen ∧ seen ≤ s.popped.length ∧
          (stale = 0 → seen = s.popped.length) ∧ s.pushed.length = seen + s.capacity.toNat) ∨
      ∃ value write, s.push = .filled value write ∧ (s.pushStep stale).push = .returned true ∧
        (s.pushStep stale).pushed = s.pushed ++ [value] ∧
        s.pushed.length < s.popped.length + s.capacity.toNat) ∧
    (s.pop.UnderWay →
      (s.popStep stale).pop.UnderWay ∧ (s.popStep stale).popped = s.popped ∨
      (s.popStep stale).pop = .returned none ∧ (s.popStep stale).popped = s.popped ∧
        (∃ seen, s.seenPushes ≤ seen ∧ seen ≤ s.pushed.length ∧
          (stale = 0 → seen = s.pushed.length) ∧ s.popped.length = seen) ∨
      ∃ read out, s.pop = .taken read out ∧ (s.popStep stale).pop = .returned (some out) ∧
        (s.popStep stale).popped = s.popped ++ [out] ∧
        s.pushed[s.popped.length]? = some out) := by
  have hinv : s.Inv ∧ s.capacity = SpscRingBuffer.roundUpToPowerOfTwo capacity := by
    induction h with
    | refl => exact ⟨inv_new capacity init, rfl⟩
    | tail _ hstep ih => exact ⟨ih.1.step hstep, hstep.capacity_eq.trans ih.2⟩
  obtain ⟨hinv, hcapacity⟩ := hinv
  exact ⟨hinv.not_races, hcapacity, hinv.ring.prefix_pushed, hinv.ring.bound,
    fun hcall => hinv.push_cases hcall stale, fun hcall => hinv.pop_cases hcall stale⟩

/-- A buffer for one value, with a push that takes effect and a pop that has begun. -/
def handedOver : WeakRing (fun _ : Empty => Bool) ℕ :=
  let s : WeakRing (fun _ : Empty => Bool) ℕ := new ℕ 1 fun _ => false
  let s := ((({ s with push := .entered 7 }.pushStep 0).pushStep 0).pushStep 0).pushStep 0
  { s with pop := .entered }.popStep 0

/-- A load that returns the old store makes the pop fail, and one that returns the new store
does not. -/
theorem weakRing_stale :
    (handedOver.popStep 1).pop = .returned none ∧ (handedOver.popStep 0).pop = .ready 0 ∧
      handedOver.popped <+: handedOver.pushed := by
  have hrun : Relation.ReflTransGen Step (new ℕ 1 fun _ : Empty => false) handedOver := by
    refine Relation.ReflTransGen.refl.tail (Step.callPush 7 rfl) |>.tail (Step.push 0 ?_)
      |>.tail (Step.push 0 ?_) |>.tail (Step.push 0 ?_) |>.tail (Step.push 0 ?_)
      |>.tail (Step.callPop rfl) |>.tail (Step.pop 0 ?_)
    all_goals exact fun ok e => (by cases e)
  exact ⟨rfl, rfl, (weakRing_is_bounded_fifo 1 _ hrun 0).2.2.1⟩

end WeakRing

end Liquibook
