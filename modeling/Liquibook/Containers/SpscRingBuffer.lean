import Liquibook.Containers.HashMap
import Liquibook.Lib.Cyclic
import Mathlib.Data.List.Infix
import Mathlib.Logic.Relation

/-!
# The ring buffer

`SpscRingBuffer` of `containers/spsc_ring_buffer.hpp`: one thread pushes, one pops, and
they share two 64-bit indices and an array.  A call is cut into the accesses it makes to
what is shared, one a step; everything between two accesses is local to the thread and
goes with the step before it.  So between any two accesses of one thread the other may
make any number of its own, and an index that was loaded may be stale when it is used.

What has been pushed and popped so far is recorded next to the buffer, at the stores that
make a push or a pop take effect.  The indices are the lengths of these two
lists modulo `2 ^ 64`, and the array holds the values that have not been delivered.

## Main definitions

* `SpscRingBuffer`, `pushStep`, `popStep` — the buffer and the steps of the two calls.
* `Ring`, `Ring.Step` — a buffer in use by a producer and a consumer.
* `Ring.Inv` — the invariant.

## Main results

* `Ring.Inv.step` — **every step keeps the invariant.**
* `ringBuffer_is_bounded_fifo` — **the buffer is a bounded queue.**
-/

namespace Liquibook

open Lib

/-- `SpscRingBuffer<T>` -/
structure SpscRingBuffer (T : Type) where
  capacity : UInt64
  mask : UInt64
  buffer : List T
  writeIndex : UInt64 := 0
  readIndex : UInt64 := 0

/-- Where a call of `push` stands, with its local variables. -/
inductive PushCall (T : Type) where
  /-- Nothing has been done yet. -/
  | entered (value : T)
  /-- The own index has been loaded. -/
  | loaded (value : T) (write : UInt64)
  /-- The other index has been loaded, and the buffer was not full. -/
  | room (value : T) (write : UInt64)
  /-- The slot has been written. -/
  | filled (value : T) (write : UInt64)
  | returned (ok : Bool)
  deriving DecidableEq, Repr

/-- Where a call of `pop` stands, with its local variables. -/
inductive PopCall (T : Type) where
  | entered
  /-- The own index has been loaded. -/
  | loaded (read : UInt64)
  /-- The other index has been loaded, and the buffer was not empty. -/
  | ready (read : UInt64)
  /-- The slot has been read. -/
  | taken (read : UInt64) (out : T)
  /-- The value that was popped, if any. -/
  | returned (out : Option T)
  deriving DecidableEq, Repr

/-- The call has not returned. -/
def PushCall.UnderWay {T : Type} (c : PushCall T) : Prop := ∀ ok, c ≠ .returned ok

@[inherit_doc PushCall.UnderWay]
def PopCall.UnderWay {T : Type} (c : PopCall T) : Prop := ∀ out, c ≠ .returned out

namespace SpscRingBuffer

variable {T : Type}

/-- `ring_buffer_detail::round_up_to_power_of_two`.  Above `2 ^ 63` the source shifts by the
width of the word, which the language leaves open; here the count is taken modulo
the width. -/
def roundUpToPowerOfTwo (n : UInt64) : UInt64 :=
  if n ≤ 1 then 1 else 1 <<< UInt64.ofNat (bitWidth (n - 1).toNat)

/-- The constructor. -/
def new (T : Type) [Inhabited T] (capacity : UInt64) : SpscRingBuffer T where
  capacity := roundUpToPowerOfTwo capacity
  mask := roundUpToPowerOfTwo capacity - 1
  buffer := List.replicate (roundUpToPowerOfTwo capacity).toNat default

/-- One access of `push`. -/
def pushStep (ring : SpscRingBuffer T) : PushCall T → SpscRingBuffer T × PushCall T
  | .entered value => (ring, .loaded value ring.writeIndex)
  | .loaded value write =>
      if write - ring.readIndex ≥ ring.capacity then (ring, .returned false)
      else (ring, .room value write)
  | .room value write =>
      ({ ring with buffer := ring.buffer.set (write &&& ring.mask).toNat value },
        .filled value write)
  | .filled _ write => ({ ring with writeIndex := write + 1 }, .returned true)
  | .returned ok => (ring, .returned ok)

/-- One access of `pop`. -/
def popStep [Inhabited T] (ring : SpscRingBuffer T) : PopCall T → SpscRingBuffer T × PopCall T
  | .entered => (ring, .loaded ring.readIndex)
  | .loaded read =>
      if read = ring.writeIndex then (ring, .returned none) else (ring, .ready read)
  | .ready read => (ring, .taken read (ring.buffer.getD (read &&& ring.mask).toNat default))
  | .taken read out => ({ ring with readIndex := read + 1 }, .returned (some out))
  | .returned out => (ring, .returned out)

end SpscRingBuffer

/-! ### A buffer in use -/

/-- A buffer, the calls that its producer and its consumer are in, and what has been pushed
and popped so far. -/
structure Ring (T : Type) where
  buf : SpscRingBuffer T
  push : PushCall T := .returned true
  pop : PopCall T := .returned none
  pushed : List T := []
  popped : List T := []

namespace Ring

variable {T : Type}

/-- A buffer that has just been constructed. -/
def new (T : Type) [Inhabited T] (capacity : UInt64) : Ring T where
  buf := SpscRingBuffer.new T capacity

/-- The producer makes the next access of its call.  The store of the index is what makes
the value available. -/
def pushStep (s : Ring T) : Ring T where
  buf := (s.buf.pushStep s.push).1
  push := (s.buf.pushStep s.push).2
  pop := s.pop
  pushed :=
    match s.push with
    | .filled value _ => s.pushed ++ [value]
    | _ => s.pushed
  popped := s.popped

/-- The consumer makes the next access of its call. -/
def popStep [Inhabited T] (s : Ring T) : Ring T where
  buf := (s.buf.popStep s.pop).1
  push := s.push
  pop := (s.buf.popStep s.pop).2
  pushed := s.pushed
  popped :=
    match s.pop with
    | .taken _ out => s.popped ++ [out]
    | _ => s.popped

/-- A step of one of the two threads: it calls when no call is under way, or makes the next
access of the call. -/
inductive Step [Inhabited T] : Ring T → Ring T → Prop
  | callPush {s : Ring T} {ok : Bool} (value : T) (h : s.push = .returned ok) :
      Step s { s with push := .entered value }
  | push {s : Ring T} (h : s.push.UnderWay) : Step s s.pushStep
  | callPop {s : Ring T} {out : Option T} (h : s.pop = .returned out) :
      Step s { s with pop := .entered }
  | pop {s : Ring T} (h : s.pop.UnderWay) : Step s s.popStep

/-- The values that have been pushed and not popped, in order. -/
def undelivered (s : Ring T) : List T := s.pushed.drop s.popped.length

/-- The slot of the `k`th value that is pushed. -/
def slot (s : Ring T) (k : ℕ) : ℕ := (UInt64.ofNat k &&& s.buf.mask).toNat

/-! ### The invariant -/

theorem length_undelivered (s : Ring T) :
    s.undelivered.length = s.pushed.length - s.popped.length := List.length_drop

/-- What is known at each point of a call of `push`.  The own index is never stale, and
room that was seen once stays until the call has used it. -/
def PushInv (s : Ring T) : PushCall T → Prop
  | .entered _ => True
  | .loaded _ write => write = UInt64.ofNat s.pushed.length
  | .room _ write =>
      write = UInt64.ofNat s.pushed.length ∧
        s.pushed.length < s.popped.length + s.buf.capacity.toNat
  | .filled value write =>
      write = UInt64.ofNat s.pushed.length ∧
        s.pushed.length < s.popped.length + s.buf.capacity.toNat ∧
          s.buf.buffer[s.pushed.length % s.buf.capacity.toNat]? = some value
  | .returned _ => True

/-- What is known at each point of a call of `pop`. -/
def PopInv (s : Ring T) : PopCall T → Prop
  | .entered => True
  | .loaded read => read = UInt64.ofNat s.popped.length
  | .ready read => read = UInt64.ofNat s.popped.length ∧ s.popped.length < s.pushed.length
  | .taken read out =>
      read = UInt64.ofNat s.popped.length ∧ s.pushed[s.popped.length]? = some out
  | .returned _ => True

/-- What the producer knows stays true when values are popped: room can only grow. -/
theorem PushInv.mono {s s' : Ring T} {c : PushCall T} (h : s.PushInv c)
    (hcapacity : s'.buf.capacity = s.buf.capacity) (hbuffer : s'.buf.buffer = s.buf.buffer)
    (hpushed : s'.pushed = s.pushed) (hle : s.popped.length ≤ s'.popped.length) :
    s'.PushInv c := by
  cases c with
  | entered value => trivial
  | loaded value write =>
    unfold PushInv at h ⊢
    rwa [hpushed]
  | room value write =>
    obtain ⟨hwrite, hroom⟩ := h
    unfold PushInv
    rw [hpushed, hcapacity]
    exact ⟨hwrite, by omega⟩
  | filled value write =>
    obtain ⟨hwrite, hroom, hcell⟩ := h
    unfold PushInv
    rw [hpushed, hcapacity, hbuffer]
    exact ⟨hwrite, by omega, hcell⟩
  | returned ok => trivial

/-- What the consumer knows stays true when values are pushed behind. -/
theorem PopInv.mono {s s' : Ring T} {c : PopCall T} (h : s.PopInv c)
    (hpopped : s'.popped = s.popped) (hpushed : s.pushed <+: s'.pushed) : s'.PopInv c := by
  cases c with
  | entered => trivial
  | loaded read =>
    unfold PopInv at h ⊢
    rwa [hpopped]
  | ready read =>
    obtain ⟨hread, hlt⟩ := h
    unfold PopInv
    rw [hpopped]
    exact ⟨hread, hlt.trans_le hpushed.length_le⟩
  | taken read out =>
    obtain ⟨hread, hout⟩ := h
    unfold PopInv
    rw [hpopped]
    obtain ⟨rest, hrest⟩ := hpushed
    refine ⟨hread, ?_⟩
    rw [← hrest, List.getElem?_append_left (List.getElem?_eq_some_iff.mp hout).1]
    exact hout
  | returned out => trivial

/-- **The invariant.**  Indices are lengths modulo `2 ^ 64`, and the array holds what has not
been delivered. -/
structure Inv (s : Ring T) : Prop where
  capacity_eq : ∃ j < 64, s.buf.capacity.toNat = 2 ^ j
  mask_eq : s.buf.mask = s.buf.capacity - 1
  length_buffer : s.buf.buffer.length = s.buf.capacity.toNat
  writeIndex_eq : s.buf.writeIndex = UInt64.ofNat s.pushed.length
  readIndex_eq : s.buf.readIndex = UInt64.ofNat s.popped.length
  prefix_pushed : s.popped <+: s.pushed
  bound : s.pushed.length ≤ s.popped.length + s.buf.capacity.toNat
  holds : Holds s.buf.buffer s.buf.capacity.toNat s.popped.length s.pushed
  push : s.PushInv s.push
  pop : s.PopInv s.pop

namespace Inv

variable {s s' : Ring T}

theorem length_le (h : s.Inv) : s.popped.length ≤ s.pushed.length := h.prefix_pushed.length_le

/-- Masking finds the cell. -/
theorem slot_eq (h : s.Inv) (k : ℕ) : s.slot k = k % s.buf.capacity.toNat := by
  obtain ⟨j, hj, hcap⟩ := h.capacity_eq
  have hmask : s.buf.mask.toNat = 2 ^ j - 1 := by
    have hone : (1 : UInt64) ≤ s.buf.capacity := by
      rw [UInt64.le_iff_toNat_le, hcap]
      exact Nat.one_le_two_pow
    rw [h.mask_eq, UInt64.toNat_sub_of_le _ _ hone, hcap]
    rfl
  rw [slot, toNat_and_mask hj.le hmask, hcap]

theorem slot_lt (h : s.Inv) (k : ℕ) : s.slot k < s.buf.buffer.length := by
  obtain ⟨j, hj, hcap⟩ := h.capacity_eq
  rw [h.slot_eq, h.length_buffer, hcap]
  exact Nat.mod_lt _ (Nat.two_pow_pos j)

/-- What the producer computes from the two indices is the true number. -/
theorem full_iff (h : s.Inv) :
    UInt64.ofNat s.pushed.length - s.buf.readIndex ≥ s.buf.capacity ↔
      s.pushed.length = s.popped.length + s.buf.capacity.toNat := by
  have hle := h.length_le
  have hbound := h.bound
  have hcap := s.buf.capacity.toNat_lt
  rw [ge_iff_le, UInt64.le_iff_toNat_le, h.readIndex_eq, toNat_ofNat_sub hle (by omega)]
  omega

theorem empty_iff (h : s.Inv) :
    UInt64.ofNat s.popped.length = s.buf.writeIndex ↔ s.popped.length = s.pushed.length := by
  have hbound := h.bound
  have hcap := s.buf.capacity.toNat_lt
  rw [h.writeIndex_eq]
  exact ofNat_eq_ofNat_iff h.length_le (by omega)

/-- **The producer's steps keep the invariant.** -/
theorem pushStep (h : s.Inv) : s.pushStep.Inv := by
  obtain ⟨buf, call, pop, pushed, popped⟩ := s
  cases call with
  | entered value => exact { h with push := h.writeIndex_eq }
  | loaded value write =>
    obtain rfl : write = UInt64.ofNat pushed.length := h.push
    have hfull := h.full_iff
    by_cases hge : UInt64.ofNat pushed.length - buf.readIndex ≥ buf.capacity
    · simp only [Ring.pushStep, SpscRingBuffer.pushStep, if_pos hge]
      exact { h with push := trivial }
    · simp only [Ring.pushStep, SpscRingBuffer.pushStep, if_neg hge]
      refine { h with push := ⟨rfl, lt_of_le_of_ne h.bound fun e => hge (hfull.mpr e)⟩ }
  | room value write =>
    obtain ⟨rfl, hroom⟩ : write = UInt64.ofNat pushed.length ∧ _ := h.push
    have hslot : (UInt64.ofNat pushed.length &&& buf.mask).toNat =
        pushed.length % buf.capacity.toNat := h.slot_eq pushed.length
    have hlt := h.slot_lt pushed.length
    rw [h.slot_eq] at hlt
    simp only [Ring.pushStep, SpscRingBuffer.pushStep, hslot]
    exact { h with
      length_buffer := by rw [List.length_set]; exact h.length_buffer
      holds := h.holds.set hroom
      push := ⟨rfl, hroom, List.getElem?_set_self hlt⟩ }
  | filled value write =>
    obtain ⟨rfl, hroom, hcell⟩ : write = UInt64.ofNat pushed.length ∧ _ ∧ _ := h.push
    have hlen : (pushed ++ [value]).length = pushed.length + 1 := List.length_append
    simp only [Ring.pushStep, SpscRingBuffer.pushStep]
    exact { h with
      writeIndex_eq := by rw [hlen, UInt64.ofNat_add]; rfl
      prefix_pushed := h.prefix_pushed.trans (List.prefix_append _ _)
      bound := by rw [hlen]; exact hroom
      holds := h.holds.append_singleton hcell
      push := trivial
      pop := h.pop.mono rfl (List.prefix_append _ _) }
  | returned ok => exact h

/-- **The consumer's steps keep the invariant.** -/
theorem popStep [Inhabited T] (h : s.Inv) : s.popStep.Inv := by
  obtain ⟨buf, push, call, pushed, popped⟩ := s
  cases call with
  | entered => exact { h with pop := h.readIndex_eq }
  | loaded read =>
    obtain rfl : read = UInt64.ofNat popped.length := h.pop
    have hempty := h.empty_iff
    by_cases heq : UInt64.ofNat popped.length = buf.writeIndex
    · simp only [Ring.popStep, SpscRingBuffer.popStep, if_pos heq]
      exact { h with pop := trivial }
    · simp only [Ring.popStep, SpscRingBuffer.popStep, if_neg heq]
      exact { h with pop := ⟨rfl, lt_of_le_of_ne h.length_le fun e => heq (hempty.mpr e)⟩ }
  | ready read =>
    obtain ⟨rfl, hlt⟩ : read = UInt64.ofNat popped.length ∧ _ := h.pop
    have hslot : (UInt64.ofNat popped.length &&& buf.mask).toNat =
        popped.length % buf.capacity.toNat := h.slot_eq popped.length
    have hcell := h.holds popped.length _ le_rfl (List.getElem?_eq_getElem hlt)
    simp only [Ring.popStep, SpscRingBuffer.popStep, hslot]
    refine { h with pop := ⟨rfl, ?_⟩ }
    rw [List.getD_eq_getElem?_getD]
    dsimp only at hcell ⊢
    rw [hcell]
    exact List.getElem?_eq_getElem hlt
  | taken read out =>
    obtain ⟨rfl, hout⟩ : read = UInt64.ofNat popped.length ∧ pushed[popped.length]? = some out :=
      h.pop
    have hlen : (popped ++ [out]).length = popped.length + 1 := List.length_append
    have hbound := h.bound
    have hprefix : popped ++ [out] <+: pushed := by
      obtain ⟨hlt, hget⟩ := List.getElem?_eq_some_iff.mp hout
      rw [← hget]
      exact List.concat_get_prefix h.prefix_pushed hlt
    simp only [Ring.popStep, SpscRingBuffer.popStep]
    exact { h with
      readIndex_eq := by rw [hlen, UInt64.ofNat_add]; rfl
      prefix_pushed := hprefix
      bound := by rw [hlen]; dsimp only at hbound ⊢; omega
      holds := h.holds.mono (by rw [hlen]; exact Nat.le_succ _)
      push := h.push.mono rfl rfl rfl (by rw [hlen]; exact Nat.le_succ _)
      pop := trivial }
  | returned out => exact h

/-- **Every step keeps the invariant.** -/
theorem step [Inhabited T] (h : s.Inv) (hstep : Step s s') : s'.Inv := by
  cases hstep with
  | callPush value _ => exact { h with push := trivial }
  | push _ => exact h.pushStep
  | callPop _ => exact { h with pop := trivial }
  | pop _ => exact h.popStep

end Inv

/-! ### A new buffer -/

theorem capacity_new [Inhabited T] (capacity : UInt64) :
    ∃ j < 64, (new T capacity).buf.capacity.toNat = 2 ^ j := by
  change ∃ j < 64, (SpscRingBuffer.roundUpToPowerOfTwo capacity).toNat = 2 ^ j
  unfold SpscRingBuffer.roundUpToPowerOfTwo
  split
  · exact ⟨0, by decide, rfl⟩
  · refine ⟨bitWidth (capacity - 1).toNat % 64, Nat.mod_lt _ (by decide), ?_⟩
    rw [UInt64.toNat_shiftLeft, UInt64.toNat_ofNat', UInt64.toNat_one, Nat.one_shiftLeft,
      Nat.mod_mod_of_dvd _ (by decide : 64 ∣ 2 ^ 64)]
    exact Nat.mod_eq_of_lt (Nat.pow_lt_pow_right (by decide) (Nat.mod_lt _ (by decide)))

/-- **The invariant holds at the start.** -/
theorem inv_new [Inhabited T] (capacity : UInt64) : (new T capacity).Inv where
  capacity_eq := capacity_new capacity
  mask_eq := rfl
  length_buffer := List.length_replicate
  writeIndex_eq := rfl
  readIndex_eq := rfl
  prefix_pushed := List.prefix_rfl
  bound := Nat.zero_le _
  holds := fun k v _ hk => by simp [new] at hk
  push := trivial
  pop := trivial

/-- **The invariant holds in every run.** -/
theorem inv_of_reachable [Inhabited T] {capacity : UInt64} {s : Ring T}
    (h : Relation.ReflTransGen Step (new T capacity) s) : s.Inv := by
  induction h with
  | refl => exact inv_new capacity
  | tail _ hstep ih => exact ih.step hstep

/-- No step changes the capacity. -/
theorem Step.capacity_eq [Inhabited T] {s s' : Ring T} (h : Step s s') :
    s'.buf.capacity = s.buf.capacity := by
  cases h with
  | callPush value _ => rfl
  | push _ =>
    rw [pushStep]
    cases s.push with
    | loaded value write =>
      simp only [SpscRingBuffer.pushStep]
      split <;> rfl
    | _ => rfl
  | callPop _ => rfl
  | pop _ =>
    rw [popStep]
    cases s.pop with
    | loaded read =>
      simp only [SpscRingBuffer.popStep]
      split <;> rfl
    | _ => rfl

theorem capacity_of_reachable [Inhabited T] {capacity : UInt64} {s : Ring T}
    (h : Relation.ReflTransGen Step (new T capacity) s) :
    s.buf.capacity = SpscRingBuffer.roundUpToPowerOfTwo capacity := by
  induction h with
  | refl => rfl
  | tail _ hstep ih => rw [hstep.capacity_eq, ih]

/-! ### What a call does -/

namespace Inv

variable {s : Ring T}

/-- **A push takes effect at one of its steps, or fails at one.**  It appends its value when
there is room, and fails when there is none. -/
theorem push_cases (h : s.Inv) (hcall : s.push.UnderWay) :
    s.pushStep.push.UnderWay ∧ s.pushStep.pushed = s.pushed ∨
    s.pushStep.push = .returned false ∧ s.pushStep.pushed = s.pushed ∧
      s.undelivered.length = s.buf.capacity.toNat ∨
    ∃ value write, s.push = .filled value write ∧ s.pushStep.push = .returned true ∧
      s.pushStep.pushed = s.pushed ++ [value] ∧
      s.undelivered.length < s.buf.capacity.toNat := by
  obtain ⟨buf, call, pop, pushed, popped⟩ := s
  have hlength := h.length_le
  cases call with
  | entered value => exact Or.inl ⟨fun ok e => (by cases e), rfl⟩
  | loaded value write =>
    obtain rfl : write = UInt64.ofNat pushed.length := h.push
    have hfull := h.full_iff
    by_cases hge : UInt64.ofNat pushed.length - buf.readIndex ≥ buf.capacity
    · right; left
      have hlen := hfull.mp hge
      refine ⟨?_, rfl, ?_⟩
      · simp only [Ring.pushStep, SpscRingBuffer.pushStep, if_pos hge]
      · rw [length_undelivered]
        dsimp only at hlen ⊢
        omega
    · left
      refine ⟨fun ok => ?_, rfl⟩
      simp only [Ring.pushStep, SpscRingBuffer.pushStep, if_neg hge]
      exact fun e => (by cases e)
  | room value write => exact Or.inl ⟨fun ok e => (by cases e), rfl⟩
  | filled value write =>
    right; right
    obtain ⟨-, hroom, -⟩ : write = UInt64.ofNat pushed.length ∧ _ ∧ _ := h.push
    refine ⟨value, write, rfl, rfl, rfl, ?_⟩
    rw [length_undelivered]
    dsimp only at hroom hlength ⊢
    omega
  | returned ok => exact absurd rfl (hcall ok)

/-- **A pop takes effect at one of its steps, or fails at one.**  It removes the value at the
front, and fails when there is none. -/
theorem pop_cases [Inhabited T] (h : s.Inv) (hcall : s.pop.UnderWay) :
    s.popStep.pop.UnderWay ∧ s.popStep.popped = s.popped ∨
    s.popStep.pop = .returned none ∧ s.popStep.popped = s.popped ∧
      s.undelivered = [] ∨
    ∃ read out, s.pop = .taken read out ∧ s.popStep.pop = .returned (some out) ∧
      s.popStep.popped = s.popped ++ [out] ∧ s.undelivered.head? = some out := by
  obtain ⟨buf, push, call, pushed, popped⟩ := s
  cases call with
  | entered => exact Or.inl ⟨fun ok e => (by cases e), rfl⟩
  | loaded read =>
    obtain rfl : read = UInt64.ofNat popped.length := h.pop
    have hempty := h.empty_iff
    by_cases heq : UInt64.ofNat popped.length = buf.writeIndex
    · right; left
      refine ⟨?_, rfl, ?_⟩
      · simp only [Ring.popStep, SpscRingBuffer.popStep, if_pos heq]
      · exact List.drop_eq_nil_of_le (hempty.mp heq).ge
    · left
      refine ⟨fun out => ?_, rfl⟩
      simp only [Ring.popStep, SpscRingBuffer.popStep, if_neg heq]
      exact fun e => (by cases e)
  | ready read => exact Or.inl ⟨fun ok e => (by cases e), rfl⟩
  | taken read out =>
    right; right
    obtain ⟨-, hout⟩ : read = UInt64.ofNat popped.length ∧ pushed[popped.length]? = some out :=
      h.pop
    refine ⟨read, out, rfl, rfl, rfl, ?_⟩
    rw [undelivered, List.head?_drop]
    exact hout
  | returned out => exact absurd rfl (hcall out)

/-- The slot that is about to be written is not that of a value that is not delivered. -/
theorem slot_ne (h : s.Inv) {value : T} {write : UInt64} (hpush : s.push = .room value write)
    {k : ℕ} (hlo : s.popped.length ≤ k) (hk : k < s.pushed.length) :
    (write &&& s.buf.mask).toNat ≠ s.slot k := by
  have hinv := h.push
  rw [hpush] at hinv
  obtain ⟨rfl, hroom⟩ := hinv
  change s.slot s.pushed.length ≠ s.slot k
  rw [h.slot_eq, h.slot_eq]
  exact (mod_ne_mod_of_lt hlo hk hroom).symm

end Inv

/-- **The buffer is a bounded queue.**  In every state of every run: what has been popped is an
initial part of what has been pushed; at most `capacity` values are undelivered; they are in
their slots, none of which is about to be overwritten; and a call under way either goes
on, or takes effect, or fails with the queue full, or empty, at that very moment. -/
theorem ringBuffer_is_bounded_fifo [Inhabited T] (capacity : UInt64) {s : Ring T}
    (h : Relation.ReflTransGen Step (new T capacity) s) :
    s.buf.capacity = SpscRingBuffer.roundUpToPowerOfTwo capacity ∧
    s.popped <+: s.pushed ∧ s.undelivered.length ≤ s.buf.capacity.toNat ∧
    (∀ k v, s.popped.length ≤ k → s.pushed[k]? = some v → s.buf.buffer[s.slot k]? = some v ∧
      ∀ value write, s.push = .room value write → (write &&& s.buf.mask).toNat ≠ s.slot k) ∧
    (s.push.UnderWay →
      s.pushStep.push.UnderWay ∧ s.pushStep.pushed = s.pushed ∨
      s.pushStep.push = .returned false ∧ s.pushStep.pushed = s.pushed ∧
        s.undelivered.length = s.buf.capacity.toNat ∨
      ∃ value write, s.push = .filled value write ∧ s.pushStep.push = .returned true ∧
        s.pushStep.pushed = s.pushed ++ [value] ∧
        s.undelivered.length < s.buf.capacity.toNat) ∧
    (s.pop.UnderWay →
      s.popStep.pop.UnderWay ∧ s.popStep.popped = s.popped ∨
      s.popStep.pop = .returned none ∧ s.popStep.popped = s.popped ∧
        s.undelivered = [] ∨
      ∃ read out, s.pop = .taken read out ∧ s.popStep.pop = .returned (some out) ∧
        s.popStep.popped = s.popped ++ [out] ∧ s.undelivered.head? = some out) := by
  have hinv := inv_of_reachable h
  refine ⟨capacity_of_reachable h, hinv.prefix_pushed, ?_,
    fun k v hlo hk => ⟨?_, fun value write hpush => ?_⟩, hinv.push_cases, hinv.pop_cases⟩
  · have hbound := hinv.bound
    rw [length_undelivered]
    omega
  · rw [hinv.slot_eq]
    exact hinv.holds k v hlo hk
  · exact hinv.slot_ne hpush hlo (List.getElem?_eq_some_iff.mp hk).1

/-- A call of `push`, from its first access to its last. -/
def pushing (s : Ring T) (value : T) : Ring T :=
  { s with push := .entered value }.pushStep.pushStep.pushStep.pushStep

/-- A call of `pop`, from its first access to its last. -/
def popping [Inhabited T] (s : Ring T) : Ring T :=
  { s with pop := .entered }.popStep.popStep.popStep.popStep

/-- A thread whose call has returned stays where it is. -/
theorem reaches_pushStep [Inhabited T] (s : Ring T) : Relation.ReflTransGen Step s s.pushStep := by
  by_cases h : s.push.UnderWay
  · exact Relation.ReflTransGen.single (Step.push h)
  · obtain ⟨ok, hok⟩ := not_forall_not.mp h
    have hsame : s.pushStep = s := by
      obtain ⟨buf, push, pop, pushed, popped⟩ := s
      obtain rfl : push = .returned ok := hok
      rfl
    rw [hsame]

theorem reaches_popStep [Inhabited T] (s : Ring T) : Relation.ReflTransGen Step s s.popStep := by
  by_cases h : s.pop.UnderWay
  · exact Relation.ReflTransGen.single (Step.pop h)
  · obtain ⟨out, hout⟩ := not_forall_not.mp h
    have hsame : s.popStep = s := by
      obtain ⟨buf, push, pop, pushed, popped⟩ := s
      obtain rfl : pop = .returned out := hout
      rfl
    rw [hsame]

theorem reaches_pushing [Inhabited T] {s : Ring T} {ok : Bool} (value : T)
    (h : s.push = .returned ok) : Relation.ReflTransGen Step s (s.pushing value) :=
  (Relation.ReflTransGen.single (Step.callPush value h)).trans
    ((reaches_pushStep _).trans ((reaches_pushStep _).trans
      ((reaches_pushStep _).trans (reaches_pushStep _))))

theorem reaches_popping [Inhabited T] {s : Ring T} {out : Option T}
    (h : s.pop = .returned out) : Relation.ReflTransGen Step s s.popping :=
  (Relation.ReflTransGen.single (Step.callPop h)).trans
    ((reaches_popStep _).trans ((reaches_popStep _).trans
      ((reaches_popStep _).trans (reaches_popStep _))))

/-- A buffer for two values, after three calls of `push`. -/
def fullRing : Ring ℕ := (((Ring.new ℕ 2).pushing 7).pushing 8).pushing 9

/-- The third push fails.  After a pop there is room for a value in the slot of the first. -/
theorem ringBuffer_reused_slot :
    fullRing.push = .returned false ∧ (fullRing.popping.pushing 10).pushed = [7, 8, 10] ∧
      (fullRing.popping.pushing 10).popped = [7] ∧
      (fullRing.popping.pushing 10).buf.buffer = [10, 8] ∧
      (fullRing.popping.pushing 10).popped <+: (fullRing.popping.pushing 10).pushed ∧
      (fullRing.popping.pushing 10).undelivered.length ≤
        (fullRing.popping.pushing 10).buf.capacity.toNat := by
  have hrun : Relation.ReflTransGen Step (new ℕ 2) (fullRing.popping.pushing 10) := by
    refine (reaches_pushing 7 rfl).trans ((reaches_pushing 8 rfl).trans
      ((reaches_pushing 9 rfl).trans ((reaches_popping rfl).trans (reaches_pushing 10 rfl))))
  obtain ⟨-, hpre, hbound, -⟩ := ringBuffer_is_bounded_fifo 2 hrun
  exact ⟨rfl, rfl, rfl, rfl, hpre, hbound⟩

end Ring
end Liquibook
