import Mathlib.Data.List.Basic
import Mathlib.Data.List.Nodup
import Mathlib.Data.List.Perm.Basic
import Mathlib.Logic.Function.Basic

/-!
# The object pool

`containers/object_pool.hpp`: a fixed array of slots, each either holding a live
object or a link of the free list.  The slot is a union in the source, so a
slot here is one of the two cases; a pointer to an object is the index of its
slot, and the sentinel `kNone` is `none`.  The array is a function on indices,
of which only those below the capacity exist.

## Main definitions

* `PoolSlot`, `ObjectPool` — the union and the pool.
* `ObjectPool.new`, `acquire`, `release` — the operations of the source.
* `ObjectPool.get`, `ObjectPool.modify` — reading and writing through a pointer.
* `ObjectPool.Inv pool live free` — `live` are the acquired slots and `free` is
  the free list, in order.

## Main results

* `ObjectPool.inv_new`, `Inv.acquire`, `Inv.release`, `Inv.modify` — the
  invariant holds at construction and is kept by every operation.
* `Inv.acquire_eq_none_iff` — the pool is exhausted exactly when it is full.
-/

namespace Liquibook

/-- One slot of the pool: the union of an object and a free-list link. -/
inductive PoolSlot (T : Type) where
  /-- The slot holds a live object. -/
  | value (v : T) : PoolSlot T
  /-- The slot is free and links to the next free slot. -/
  | nextFree (n : Option ℕ) : PoolSlot T
  deriving Repr

/-- Read the `next_free` member.  Reading it while the object is the active
member of the union is not meaningful, and the pool never does so. -/
def PoolSlot.next {T : Type} : PoolSlot T → Option ℕ
  | .nextFree n => n
  | .value _ => none

/-- `ObjectPool<T>` -/
structure ObjectPool (T : Type) where
  slots : ℕ → PoolSlot T
  capacity : ℕ
  freeHead : Option ℕ
  size : ℕ := 0

namespace ObjectPool

variable {T : Type}

/-- The constructor: the free list runs through the slots in order. -/
def new (T : Type) (capacity : ℕ) : ObjectPool T where
  slots i := .nextFree (if i + 1 < capacity then some (i + 1) else none)
  capacity := capacity
  freeHead := if 0 < capacity then some 0 else none

/-- `ObjectPool::acquire`: the object `v` is constructed in the head free slot. -/
def acquire (pool : ObjectPool T) (v : T) : Option (ℕ × ObjectPool T) :=
  match pool.freeHead with
  | none => none
  | some index =>
      some (index, { pool with
        freeHead := (pool.slots index).next
        slots := Function.update pool.slots index (.value v)
        size := pool.size + 1 })

/-- `ObjectPool::release` -/
def release (pool : ObjectPool T) (ptr : ℕ) : ObjectPool T :=
  { pool with
    slots := Function.update pool.slots ptr (.nextFree pool.freeHead)
    freeHead := some ptr
    size := pool.size - 1 }

/-- The object a pointer leads to; junk at a free slot. -/
def get [Inhabited T] (pool : ObjectPool T) (ptr : ℕ) : T :=
  match pool.slots ptr with
  | .value v => v
  | .nextFree _ => default

/-- Write through a pointer to an object. -/
def modify [Inhabited T] (pool : ObjectPool T) (ptr : ℕ) (f : T → T) : ObjectPool T :=
  { pool with slots := Function.update pool.slots ptr (.value (f (pool.get ptr))) }

/-- The free list from `head` visits exactly the slots of the list, in order,
each of them holding a link, and ends at `kNone`. -/
def FreeChain (slots : ℕ → PoolSlot T) : Option ℕ → List ℕ → Prop
  | head, [] => head = none
  | head, i :: is => head = some i ∧ ∃ n, slots i = .nextFree n ∧ FreeChain slots n is

/-- `live` are the acquired slots and `free` is the free list: together they are
all slots, once each. -/
structure Inv (pool : ObjectPool T) (live free : List ℕ) : Prop where
  chain : FreeChain pool.slots pool.freeHead free
  perm : (live ++ free).Perm (List.range pool.capacity)
  values : ∀ i ∈ live, ∃ v, pool.slots i = .value v
  size_eq : pool.size = live.length

/-! ### Reading and writing -/

section GetModify

variable [Inhabited T] (pool : ObjectPool T) (i j : ℕ) (f : T → T)

theorem get_eq_of_slots {pool pool' : ObjectPool T} {j : ℕ} (h : pool'.slots j = pool.slots j) :
    pool'.get j = pool.get j := by
  rw [get, get, h]

theorem get_modify : (pool.modify i f).get j = if j = i then f (pool.get i) else pool.get j := by
  by_cases h : j = i
  · subst h
    simp [modify, get]
  · rw [if_neg h]
    exact get_eq_of_slots (Function.update_of_ne h _ _)

@[simp] theorem get_modify_self : (pool.modify i f).get i = f (pool.get i) := by
  rw [get_modify, if_pos rfl]

theorem get_release_of_ne {i j : ℕ} (h : j ≠ i) : (pool.release i).get j = pool.get j :=
  get_eq_of_slots (Function.update_of_ne h _ _)

end GetModify

@[simp] theorem release_capacity (pool : ObjectPool T) (i : ℕ) :
    (pool.release i).capacity = pool.capacity := rfl

/-! ### The free list -/

theorem erase_eq_filter_ne {live : List ℕ} (h : live.Nodup) (i : ℕ) :
    live.erase i = live.filter (· ≠ i) := by
  rw [h.erase_eq_filter]
  refine List.filter_congr fun j _ => ?_
  by_cases hj : j = i <;> simp [hj]

theorem FreeChain.congr {slots slots' : ℕ → PoolSlot T} :
    ∀ {head : Option ℕ} {free : List ℕ}, FreeChain slots head free →
      (∀ i ∈ free, slots' i = slots i) → FreeChain slots' head free := by
  intro head free
  induction free generalizing head with
  | nil => intro h _; exact h
  | cons i is ih =>
    rintro ⟨hhead, n, hslot, hrest⟩ hs
    exact ⟨hhead, n, by rw [hs i List.mem_cons_self, hslot],
      ih hrest fun j hj => hs j (List.mem_cons_of_mem _ hj)⟩

/-- The free list of a new pool, from slot `i` on. -/
theorem freeChain_new (capacity : ℕ) :
    ∀ (k i : ℕ), i + k = capacity →
      FreeChain (new T capacity).slots (if i < capacity then some i else none)
        (List.range' i k) := by
  intro k
  induction k with
  | zero =>
    intro i hi
    rw [if_neg (by omega)]
    rfl
  | succ k ih =>
    intro i hi
    rw [if_pos (by omega), List.range'_succ]
    exact ⟨rfl, _, rfl, ih (i + 1) (by omega)⟩

theorem inv_new (capacity : ℕ) : Inv (new T capacity) [] (List.range capacity) where
  chain := by
    rw [List.range_eq_range']
    exact freeChain_new capacity capacity 0 (by omega)
  perm := List.Perm.refl _
  values := by simp
  size_eq := rfl

namespace Inv

variable {pool : ObjectPool T} {live free rest : List ℕ} {i : ℕ}

theorem nodup (h : Inv pool live free) : (live ++ free).Nodup :=
  h.perm.nodup_iff.mpr List.nodup_range

theorem live_nodup (h : Inv pool live free) : live.Nodup :=
  (List.nodup_append.mp h.nodup).1

theorem not_mem_free (h : Inv pool live free) (hi : i ∈ live) : i ∉ free :=
  fun hf => (List.nodup_append.mp h.nodup).2.2 i hi i hf rfl

theorem lt_capacity (h : Inv pool live free) (hi : i ∈ live) : i < pool.capacity :=
  List.mem_range.mp (h.perm.mem_iff.mp (List.mem_append_left _ hi))

theorem length_add (h : Inv pool live free) : live.length + free.length = pool.capacity := by
  simpa using h.perm.length_eq

/-- Writing through a pointer to a live object keeps the pool. -/
theorem modify [Inhabited T] (h : Inv pool live free) (hi : i ∈ live) (f : T → T) :
    Inv (pool.modify i f) live free where
  chain := h.chain.congr fun _ hj =>
    Function.update_of_ne (ne_of_mem_of_not_mem hj (h.not_mem_free hi)) _ _
  perm := h.perm
  values := by
    intro j hj
    by_cases e : j = i
    · exact ⟨f (pool.get i), by rw [e]; exact Function.update_self _ _ _⟩
    · obtain ⟨v, hv⟩ := h.values j hj
      exact ⟨v, by rw [← hv]; exact Function.update_of_ne e _ _⟩
  size_eq := h.size_eq

/-- The pool is exhausted exactly when every slot is acquired. -/
theorem acquire_eq_none_iff (h : Inv pool live free) (v : T) :
    pool.acquire v = none ↔ live.length = pool.capacity := by
  have hlen := h.length_add
  have hchain := h.chain
  cases free with
  | nil =>
    have hhead : pool.freeHead = none := hchain
    simp only [acquire, hhead, true_iff]
    simpa using hlen
  | cons i is =>
    have hhead : pool.freeHead = some i := hchain.1
    simp only [acquire, hhead, reduceCtorEq, false_iff]
    simp only [List.length_cons] at hlen
    omega

/-- **`acquire` hands out the head of the free list.** -/
theorem acquire [Inhabited T] (h : Inv pool live free) (v : T)
    (hlt : live.length < pool.capacity) :
    ∃ i rest pool', free = i :: rest ∧ pool.acquire v = some (i, pool') ∧
      Inv pool' (live ++ [i]) rest ∧ pool'.capacity = pool.capacity ∧
      pool'.get i = v ∧ ∀ j, j ≠ i → pool'.get j = pool.get j := by
  have hlen := h.length_add
  have hchain := h.chain
  cases free with
  | nil => simp only [List.length_nil] at hlen; omega
  | cons i is =>
    obtain ⟨hhead, n, hslot, hrest⟩ := hchain
    have hnd := h.nodup
    rw [List.nodup_append, List.nodup_cons] at hnd
    obtain ⟨-, ⟨hi, -⟩, hdis⟩ := hnd
    refine ⟨i, is, { pool with
      freeHead := (pool.slots i).next
      slots := Function.update pool.slots i (.value v)
      size := pool.size + 1 }, rfl, by rw [ObjectPool.acquire, hhead], ⟨?_, ?_, ?_, ?_⟩, rfl, ?_, ?_⟩
    · rw [hslot]
      exact hrest.congr fun _ hj => Function.update_of_ne (ne_of_mem_of_not_mem hj hi) _ _
    · simpa using h.perm
    · intro j hj
      rcases List.mem_append.mp hj with hl | hl
      · obtain ⟨w, hw⟩ := h.values j hl
        have hji : j ≠ i := fun e => hdis j hl i List.mem_cons_self e
        exact ⟨w, by rw [← hw]; exact Function.update_of_ne hji _ _⟩
      · rw [List.mem_singleton.mp hl]
        exact ⟨v, Function.update_self _ _ _⟩
    · simp [h.size_eq]
    · simp [get]
    · intro j hj
      exact get_eq_of_slots (Function.update_of_ne hj _ _)

/-- **`release` puts the slot at the head of the free list.** -/
theorem release (h : Inv pool live free) (hi : i ∈ live) :
    Inv (pool.release i) (live.filter (· ≠ i)) (i :: free) where
  chain := ⟨rfl, pool.freeHead, Function.update_self _ _ _,
    h.chain.congr fun _ hj =>
      Function.update_of_ne (ne_of_mem_of_not_mem hj (h.not_mem_free hi)) _ _⟩
  perm := by
    refine List.Perm.trans ?_ h.perm
    refine List.perm_middle.trans ?_
    rw [← List.cons_append]
    refine List.Perm.append_right _ ?_
    rw [← erase_eq_filter_ne h.live_nodup]
    exact (List.perm_cons_erase hi).symm
  values := by
    intro j hj
    obtain ⟨hjl, hji⟩ := List.mem_filter.mp hj
    obtain ⟨v, hv⟩ := h.values j hjl
    exact ⟨v, by rw [← hv]; exact Function.update_of_ne (by simpa using hji) _ _⟩
  size_eq := by
    rw [← erase_eq_filter_ne h.live_nodup, List.length_erase_of_mem hi, ← h.size_eq]
    rfl

end Inv

end ObjectPool
end Liquibook
