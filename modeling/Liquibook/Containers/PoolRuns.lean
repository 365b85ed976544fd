import Liquibook.Containers.ObjectPool

/-!
# Runs of the object pool

The pool in the hands of a client.  The client acquires objects, writes to the ones it
holds and releases them, in any order it likes, and it keeps a note of the pointers it
holds with what it last wrote there.  The comment on `release` asks one thing of it: that
`ptr` was returned by `acquire` and is not already released, and a run that does so is
legal.  The free list is threaded through the very slots the client gives back, so what
has to hold is that neither side ever steps on the other.

## Main definitions

* `PoolCall`, `PoolClient`, `PoolClient.step`, `PoolClient.run` — the calls of a client,
  and runs of them.
* `PoolClient.Legal` — only pointers held are written to or released.
* `PoolClient.Sound` — what a client may rely on.
* `PoolClient.Keeps` — what one call leaves alone.

## Main results

* `Tracks.step`, `Tracks.run` — the client's notes and the pool agree after every call.
* `objectPool_never_loses_a_slot` — **in every legal run the slots are either held or on
  the free list, and what is held stays as its holder left it.**
-/

namespace Liquibook

/-- What a client of the pool can do. -/
inductive PoolCall (T : Type) where
  | acquire (v : T)
  | release (ptr : ℕ)
  /-- Write to an object through its pointer. -/
  | write (ptr : ℕ) (v : T)
  deriving DecidableEq, Repr

/-- The pointer a call is made with. -/
def PoolCall.target {T : Type} : PoolCall T → Option ℕ
  | .acquire _ => none
  | .release ptr => some ptr
  | .write ptr _ => some ptr

/-- A pool and its client, who knows which pointers it holds and what it last wrote
there. -/
structure PoolClient (T : Type) where
  pool : ObjectPool T
  held : List (ℕ × T) := []

namespace PoolClient

open ObjectPool

variable {T : Type} [Inhabited T]

/-- A client of a new pool. -/
def start (T : Type) (capacity : ℕ) : PoolClient T where
  pool := ObjectPool.new T capacity

/-- The pointers held. -/
def ptrs (c : PoolClient T) : List ℕ := c.held.map Prod.fst

/-- Make a call. -/
def step (c : PoolClient T) : PoolCall T → PoolClient T
  | .acquire v =>
      match c.pool.acquire v with
      | none => c
      | some (ptr, pool) => { pool := pool, held := c.held ++ [(ptr, v)] }
  | .release ptr =>
      { pool := c.pool.release ptr, held := c.held.filter fun p => p.1 ≠ ptr }
  | .write ptr v =>
      { pool := c.pool.modify ptr fun _ => v
        held := c.held.map fun p => if p.1 = ptr then (ptr, v) else p }

/-- Make a sequence of calls. -/
def run (c : PoolClient T) (calls : List (PoolCall T)) : PoolClient T := calls.foldl step c

/-- The pointer of the call, if it takes one, is held. -/
def LegalCall (c : PoolClient T) (call : PoolCall T) : Prop :=
  ∀ ptr, call.target = some ptr → ptr ∈ c.ptrs

/-- Every pointer released or written to is held at that moment. -/
def Legal : PoolClient T → List (PoolCall T) → Prop
  | _, [] => True
  | c, call :: calls => c.LegalCall call ∧ (c.step call).Legal calls

/-- What a client of a pool with `capacity` slots may rely on. -/
structure Sound (capacity : ℕ) (c : PoolClient T) : Prop where
  capacity_eq : c.pool.capacity = capacity
  /-- The free list ends, visits no slot twice and lists the slots that are not held. -/
  free_eq : ∃ free, FreeChain c.pool.slots c.pool.freeHead free ∧ free.Nodup ∧
    ∀ i, i ∈ free ↔ i < capacity ∧ i ∉ c.ptrs
  ptrs_nodup : c.ptrs.Nodup
  ptrs_lt : ∀ i ∈ c.ptrs, i < capacity
  /-- Every object is what its holder last wrote. -/
  contents : ∀ p ∈ c.held, c.pool.slots p.1 = .value p.2
  /-- A call leaves every other object as it is. -/
  untouched : ∀ call, c.LegalCall call → ∀ i ∈ c.ptrs, call.target ≠ some i →
    (c.step call).pool.slots i = c.pool.slots i
  size_eq : c.pool.size = c.held.length
  acquire_eq_none_iff : ∀ v, c.pool.acquire v = none ↔ c.pool.size = c.pool.capacity
  /-- The slot released last is the first to be used again. -/
  acquire_release : ∀ ptr ∈ c.ptrs, ∀ v,
    ((c.pool.release ptr).acquire v).map Prod.fst = some ptr

/-- The client's notes and the pool agree; `free` is the free list. -/
structure Tracks (c : PoolClient T) (free : List ℕ) : Prop where
  inv : Inv c.pool c.ptrs free
  get_eq : ∀ p ∈ c.held, c.pool.get p.1 = p.2

/-- A call keeps the client's notes right, and leaves every other object as it is. -/
structure Keeps (c : PoolClient T) (call : PoolCall T) : Prop where
  tracks : ∃ free, Tracks (c.step call) free
  capacity_eq : (c.step call).pool.capacity = c.pool.capacity
  get_eq : ∀ i ∈ c.ptrs, call.target ≠ some i → (c.step call).pool.get i = c.pool.get i

/-! ### What the client holds -/

section Held

variable {c : PoolClient T} {p : ℕ × T}

omit [Inhabited T] in
theorem fst_mem_ptrs (hp : p ∈ c.held) : p.1 ∈ c.ptrs := List.mem_map_of_mem hp

omit [Inhabited T] in
theorem ptrs_filter (held : List (ℕ × T)) (ptr : ℕ) :
    (held.filter fun p => p.1 ≠ ptr).map Prod.fst = (held.map Prod.fst).filter (· ≠ ptr) := by
  rw [List.filter_map]
  rfl

omit [Inhabited T] in
theorem ptrs_map_write (held : List (ℕ × T)) (ptr : ℕ) (v : T) :
    (held.map fun p => if p.1 = ptr then (ptr, v) else p).map Prod.fst = held.map Prod.fst := by
  rw [List.map_map]
  refine List.map_congr_left fun p _ => ?_
  show (if p.1 = ptr then (ptr, v) else p).1 = p.1
  split
  · next h => exact h.symm
  · rfl

/-- A pointer stays held until a call is made with it. -/
theorem mem_ptrs_step {i : ℕ} {call : PoolCall T} (hi : i ∈ c.ptrs)
    (hne : call.target ≠ some i) : i ∈ (c.step call).ptrs := by
  cases call with
  | acquire v =>
    obtain ⟨p, hp, rfl⟩ := List.mem_map.mp hi
    rw [step]
    split
    · exact hi
    · exact fst_mem_ptrs (List.mem_append_left _ hp)
  | release ptr =>
    show i ∈ (c.held.filter fun p => p.1 ≠ ptr).map Prod.fst
    rw [ptrs_filter, List.mem_filter]
    exact ⟨hi, by simpa using fun e : i = ptr => hne (e ▸ rfl)⟩
  | write ptr v =>
    show i ∈ (c.held.map fun p => if p.1 = ptr then (ptr, v) else p).map Prod.fst
    rw [ptrs_map_write]
    exact hi

end Held

/-! ### A call -/

namespace Tracks

variable {c : PoolClient T} {free : List ℕ} {ptr i : ℕ}

theorem start (T : Type) [Inhabited T] (capacity : ℕ) :
    Tracks (start T capacity) (List.range capacity) where
  inv := inv_new capacity
  get_eq := by simp [PoolClient.start]

/-- A held slot is a live object. -/
theorem slots_eq (h : Tracks c free) (hi : i ∈ c.ptrs) :
    c.pool.slots i = .value (c.pool.get i) := by
  obtain ⟨v, hv⟩ := h.inv.values i hi
  rw [ObjectPool.get, hv]

theorem slots_eq_of_mem (h : Tracks c free) {p : ℕ × T} (hp : p ∈ c.held) :
    c.pool.slots p.1 = .value p.2 := by
  rw [h.slots_eq (fst_mem_ptrs hp), h.get_eq p hp]

theorem keeps_acquire (h : Tracks c free) (v : T) : Keeps c (.acquire v) := by
  by_cases hfull : c.ptrs.length = c.pool.capacity
  · have hnone : c.pool.acquire v = none := (h.inv.acquire_eq_none_iff v).mpr hfull
    have hstep : c.step (.acquire v) = c := by rw [PoolClient.step, hnone]
    refine ⟨?_, ?_, ?_⟩ <;> rw [hstep]
    · exact ⟨free, h⟩
    · exact fun _ _ _ => rfl
  · have hlt : c.ptrs.length < c.pool.capacity := by
      have := h.inv.length_add
      omega
    obtain ⟨new, rest, pool, hfree, hacq, hinv, hcap, hnew, hold⟩ := h.inv.acquire v hlt
    have hstep : c.step (.acquire v) = { pool := pool, held := c.held ++ [(new, v)] } := by
      rw [PoolClient.step, hacq]
    have hptrs : (c.held ++ [(new, v)]).map Prod.fst = c.ptrs ++ [new] := by
      rw [List.map_append]
      rfl
    -- the slot handed out was on the free list, so it is none of those held
    have hne : ∀ i ∈ c.ptrs, i ≠ new := by
      rintro i hi rfl
      exact h.inv.not_mem_free hi (by simp [hfree])
    refine ⟨?_, ?_, ?_⟩ <;> rw [hstep]
    · refine ⟨rest, ⟨?_, ?_⟩⟩
      · show Inv pool ((c.held ++ [(new, v)]).map Prod.fst) rest
        rw [hptrs]
        exact hinv
      · intro p hp
        rcases List.mem_append.mp hp with hp | hp
        · exact (hold p.1 (hne p.1 (fst_mem_ptrs hp))).trans (h.get_eq p hp)
        · rw [List.mem_singleton.mp hp]
          exact hnew
    · exact hcap
    · exact fun i hi _ => hold i (hne i hi)

theorem keeps_release (h : Tracks c free) (hptr : ptr ∈ c.ptrs) : Keeps c (.release ptr) := by
  refine ⟨⟨ptr :: free, ⟨?_, ?_⟩⟩, rfl, ?_⟩
  · show Inv (c.pool.release ptr) ((c.held.filter fun p => p.1 ≠ ptr).map Prod.fst) (ptr :: free)
    rw [ptrs_filter]
    exact h.inv.release hptr
  · intro p hp
    obtain ⟨hmem, hne⟩ := List.mem_filter.mp hp
    rw [← h.get_eq p hmem]
    exact get_release_of_ne c.pool (by simpa using hne)
  · intro i _ hne
    exact get_release_of_ne c.pool fun e => hne (e ▸ rfl)

theorem keeps_write (h : Tracks c free) (hptr : ptr ∈ c.ptrs) (v : T) : Keeps c (.write ptr v) := by
  refine ⟨⟨free, ⟨?_, ?_⟩⟩, rfl, ?_⟩
  · show Inv (c.pool.modify ptr fun _ => v)
      ((c.held.map fun p => if p.1 = ptr then (ptr, v) else p).map Prod.fst) free
    rw [ptrs_map_write]
    exact h.inv.modify hptr _
  · intro p hp
    obtain ⟨q, hq, rfl⟩ := List.mem_map.mp hp
    show (c.pool.modify ptr fun _ => v).get _ = _
    rw [get_modify]
    by_cases hqp : q.1 = ptr
    · simp [hqp]
    · rw [if_neg hqp, if_neg hqp]
      exact h.get_eq q hq
  · intro i _ hne
    show (c.pool.modify ptr fun _ => v).get i = _
    rw [get_modify, if_neg fun e : i = ptr => hne (e ▸ rfl)]

/-- **A call keeps the client's notes right**, whatever the client does. -/
theorem step (h : Tracks c free) (call : PoolCall T) (hlegal : c.LegalCall call) :
    Keeps c call := by
  cases call with
  | acquire v => exact h.keeps_acquire v
  | release ptr => exact h.keeps_release (hlegal ptr rfl)
  | write ptr v => exact h.keeps_write (hlegal ptr rfl) v

/-- Notes that are right say what the client may rely on. -/
theorem sound (h : Tracks c free) : Sound c.pool.capacity c where
  capacity_eq := rfl
  free_eq := by
    have hnd := h.inv.nodup
    refine ⟨free, h.inv.chain, (List.nodup_append.mp hnd).2.1, fun i => ?_⟩
    have hall : i ∈ c.ptrs ++ free ↔ i < c.pool.capacity :=
      h.inv.perm.mem_iff.trans List.mem_range
    rw [List.mem_append] at hall
    constructor
    · intro hi
      exact ⟨hall.mp (Or.inr hi), fun hp => h.inv.not_mem_free hp hi⟩
    · rintro ⟨hlt, hnot⟩
      exact (hall.mpr hlt).resolve_left hnot
  ptrs_nodup := h.inv.live_nodup
  ptrs_lt := fun _ hi => h.inv.lt_capacity hi
  contents := fun _ hp => h.slots_eq_of_mem hp
  untouched := by
    intro call hlegal i hi hne
    have hkeeps := h.step call hlegal
    obtain ⟨free', h'⟩ := hkeeps.tracks
    have hstill := mem_ptrs_step hi hne
    rw [h'.slots_eq hstill, h.slots_eq hi, hkeeps.get_eq i hi hne]
  size_eq := by rw [h.inv.size_eq, ptrs, List.length_map]
  acquire_eq_none_iff := by
    intro v
    rw [h.inv.acquire_eq_none_iff, h.inv.size_eq]
  acquire_release := fun _ _ _ => rfl

/-- **The client's notes are right after every legal run.** -/
theorem run (h : Tracks c free) (calls : List (PoolCall T)) (hlegal : c.Legal calls) :
    (∃ free', Tracks (c.run calls) free') ∧ (c.run calls).pool.capacity = c.pool.capacity := by
  induction calls generalizing c free with
  | nil => exact ⟨⟨free, h⟩, rfl⟩
  | cons call calls ih =>
    have hkeeps := h.step call hlegal.1
    obtain ⟨free', h'⟩ := hkeeps.tracks
    obtain ⟨hrun, hcap⟩ := ih h' hlegal.2
    exact ⟨hrun, hcap.trans hkeeps.capacity_eq⟩

end Tracks

/-- **The pool never hands out a slot that is held and never loses one.**  After every
legal run from a new pool of any capacity the free list is finite, visits no slot twice
and lists exactly the slots that are not held; the slots held are distinct and hold what
was last written to them, and no call but the holder's own changes them; the size is the
number held, `acquire` fails exactly when it is the capacity, and the slot released last
is handed out first. -/
theorem objectPool_never_loses_a_slot (capacity : ℕ) (calls : List (PoolCall T))
    (hlegal : (start T capacity).Legal calls) :
    Sound capacity ((start T capacity).run calls) := by
  obtain ⟨⟨free, h⟩, hcap⟩ := (Tracks.start T capacity).run calls hlegal
  have hsound := h.sound
  rw [hcap] at hsound
  exact hsound

/-- Two slots: both are taken, the first is given back and is taken again. -/
theorem objectPool_never_loses_a_slot_two :
    Sound 2 ((start ℕ 2).run [.acquire 5, .acquire 6, .release 0, .write 1 8, .acquire 7]) ∧
      ((start ℕ 2).run [.acquire 5, .acquire 6, .release 0, .write 1 8, .acquire 7]).held =
        [(1, 8), (0, 7)] := by
  refine ⟨objectPool_never_loses_a_slot 2 _ ⟨?_, ?_, ?_, ?_, ?_, trivial⟩, rfl⟩
  · rintro ptr ⟨⟩
  · rintro ptr ⟨⟩
  · rintro ptr ⟨⟩
    decide
  · rintro ptr ⟨⟩
    decide
  · rintro ptr ⟨⟩

end PoolClient
end Liquibook
