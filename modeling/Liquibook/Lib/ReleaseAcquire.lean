import Mathlib.Algebra.Order.Pi
import Mathlib.Order.Lattice

/-!
# Atomic variables with release and acquire

Two threads need not see the stores of each other in the order in which they were made.  What
a thread may read is told here by *views*: a view says how many steps of each thread and
how many stores to each atomic variable are known.  A load may return any store that is
not older than the newest one that the thread knows of.  A store with release order
hands the view of its thread on with the value, and a load with acquire order that
returns the value takes it up.

Variables that are not atomic must not be accessed by two threads at once: an access *races*
when another one, one of the two being a write, is not known to the thread that makes it.
A program without races may take what was written last for the value of such a variable.

Every atomic variable has one thread that stores to it, so the order of the stores is the
order in which that thread makes them.

## Main definitions

* `View`, `Memory` — what a thread knows, and the state of the memory.
* `Memory.load`, `Memory.store`, `Memory.access` — the steps.
* `Memory.Race` — an access would race.
* `Memory.Released` — all stores so far were made with release order.
* `Publishes k n w` — who knows more than `n` stores to `k` knows `w`.
* `Memory.Accounted` — the stores to a variable count the accesses of its thread.

## Main results

* `Memory.Released.load`, `Memory.Released.store`, `Memory.Released.access` — the steps keep
  the discipline.
* `Memory.All.load`, `Memory.All.store`, `Memory.All.access` — **what a store publishes stays
  published.**
* `Memory.Accounted.known` — **an access that was published is known.**
-/

namespace Liquibook
namespace Lib

/-- `std::memory_order` -/
inductive MemoryOrder where
  | relaxed
  | acquire
  | release
  deriving DecidableEq, Repr

variable {ι κ l : Type*} {V : κ → Type*}

/-- How many steps of each thread, and how many stores to each variable, are known. -/
abbrev View (ι κ : Type*) := (ι → ℕ) × (κ → ℕ)

namespace View

/-- The steps of each thread that are known. -/
abbrev steps (v : View ι κ) : ι → ℕ := v.1

/-- The number of the newest store to each variable that is known. -/
abbrev stores (v : View ι κ) : κ → ℕ := v.2

/-- Nothing is known. -/
def nothing : View ι κ := (fun _ => 0, fun _ => 0)

/-- The thread makes a step. -/
def tick [DecidableEq ι] (v : View ι κ) (t : ι) : View ι κ :=
  (Function.update v.steps t (v.steps t + 1), v.stores)

/-- A store is seen. -/
def see [DecidableEq κ] (v : View ι κ) (k : κ) (i : ℕ) : View ι κ :=
  (v.steps, Function.update v.stores k (max (v.stores k) i))

/-- The first `n` steps of a thread. -/
def step [DecidableEq ι] (t : ι) (n : ℕ) : View ι κ :=
  (Function.update (fun _ => 0) t n, fun _ => 0)

/-- The first stores to a variable, up to the `i`th. -/
def store [DecidableEq κ] (k : κ) (i : ℕ) : View ι κ :=
  (fun _ => 0, Function.update (fun _ => 0) k i)

section Steps

variable [DecidableEq ι] {v : View ι κ} {t : ι} {n : ℕ}

@[simp] theorem tick_stores (v : View ι κ) (t : ι) : (v.tick t).stores = v.stores := rfl

@[simp] theorem tick_steps_self (v : View ι κ) (t : ι) : (v.tick t).steps t = v.steps t + 1 :=
  Function.update_self ..

theorem le_tick (v : View ι κ) (t : ι) : v ≤ v.tick t :=
  ⟨le_update_iff.mpr ⟨Nat.le_succ _, fun _ _ => le_rfl⟩, le_rfl⟩

theorem step_le_iff : step t n ≤ v ↔ n ≤ v.steps t := by
  constructor
  · exact fun h => (update_le_iff.mp h.1).1
  · exact fun h => ⟨update_le_iff.mpr ⟨h, fun _ _ => Nat.zero_le _⟩, fun _ => Nat.zero_le _⟩

end Steps

section Stores

variable [DecidableEq κ] {v : View ι κ} {k : κ} {i : ℕ}

@[simp] theorem see_stores_self (v : View ι κ) (k : κ) (i : ℕ) :
    (v.see k i).stores k = max (v.stores k) i := Function.update_self ..

theorem see_stores_of_ne {k' : κ} (h : k' ≠ k) : (v.see k i).stores k' = v.stores k' :=
  Function.update_of_ne h ..

theorem le_see (v : View ι κ) (k : κ) (i : ℕ) : v ≤ v.see k i :=
  ⟨le_rfl, le_update_iff.mpr ⟨le_max_left _ _, fun _ _ => le_rfl⟩⟩

/-- Seeing what is known already changes nothing. -/
theorem see_of_le (h : i ≤ v.stores k) : v.see k i = v := by
  rw [see, max_eq_left h, Function.update_eq_self]

theorem store_le_iff : store k i ≤ v ↔ i ≤ v.stores k := by
  constructor
  · exact fun h => (update_le_iff.mp h.2).1
  · exact fun h => ⟨fun _ => Nat.zero_le _, update_le_iff.mpr ⟨h, fun _ _ => Nat.zero_le _⟩⟩

end Stores

end View

/-- A store: its value, and the view that it hands on. -/
structure Message (ι κ α : Type*) where
  value : α
  view : View ι κ

/-- An access to a variable that is not atomic. -/
structure Access (ι : Type*) where
  thread : ι
  /-- Which step of the thread it is. -/
  step : ℕ
  write : Bool
  deriving DecidableEq, Repr

/-- The state of the memory: what each thread knows, the stores to each atomic variable in the
order in which they were made, and the accesses to each other variable. -/
structure Memory (ι κ l : Type*) (V : κ → Type*) where
  view : ι → View ι κ
  /-- The number of the newest store. -/
  last : κ → ℕ
  /-- The stores by their numbers, from the initial value on. -/
  message : ∀ k, ℕ → Message ι κ (V k)
  accesses : l → List (Access ι)

namespace Memory

/-- No thread has made a step. -/
def new (init : ∀ k, V k) : Memory ι κ l V where
  view _ := View.nothing
  last _ := 0
  message k _ := ⟨init k, View.nothing⟩
  accesses _ := []

/-- The store that a load returns: the one that is `stale` stores old, or the oldest that the
thread may read if that one is too old.  Every store that it may read is returned for some
`stale`. -/
def pick (m : Memory ι κ l V) (t : ι) (k : κ) (stale : ℕ) : ℕ :=
  max ((m.view t).stores k) (m.last k - stale)

/-- The value that a load returns. -/
def read (m : Memory ι κ l V) (t : ι) (k : κ) (stale : ℕ) : V k :=
  (m.message k (m.pick t k stale)).value

/-- `load` -/
def load [DecidableEq ι] [DecidableEq κ] (m : Memory ι κ l V) (order : MemoryOrder) (t : ι)
    (k : κ) (stale : ℕ) : Memory ι κ l V :=
  let seen := ((m.view t).tick t).see k (m.pick t k stale)
  { m with
    view := Function.update m.view t <|
      match order with
      | .acquire => seen ⊔ (m.message k (m.pick t k stale)).view
      | _ => seen }

/-- `store` -/
def store [DecidableEq ι] [DecidableEq κ] (m : Memory ι κ l V) (order : MemoryOrder) (t : ι)
    (k : κ) (value : V k) : Memory ι κ l V :=
  let seen := ((m.view t).tick t).see k (m.last k + 1)
  { m with
    view := Function.update m.view t seen
    last := Function.update m.last k (m.last k + 1)
    message := Function.update m.message k <| Function.update (m.message k) (m.last k + 1) <|
      match order with
      | .release => ⟨value, seen⟩
      | _ => ⟨value, View.nothing⟩ }

/-- A read or a write of a variable that is not atomic. -/
def access [DecidableEq ι] [DecidableEq l] (m : Memory ι κ l V) (t : ι) (x : l) (write : Bool) :
    Memory ι κ l V :=
  { m with
    view := Function.update m.view t ((m.view t).tick t)
    accesses := Function.update m.accesses x <|
      ⟨t, ((m.view t).tick t).steps t, write⟩ :: m.accesses x }

/-- The access would race: an earlier one, one of the two being a write, is not known to the
thread. -/
def Race (m : Memory ι κ l V) (t : ι) (x : l) (write : Bool) : Prop :=
  ∃ a ∈ m.accesses x, (a.write || write) = true ∧ (m.view t).steps a.thread < a.step

variable {m : Memory ι κ l V} {t u : ι} {k k' : κ} {x y : l} {order : MemoryOrder} {stale : ℕ}
  {value : V k} {write : Bool}

/-! ### The parts of a step -/

section Parts

variable [DecidableEq ι] [DecidableEq κ]

theorem load_view_self : (m.load .acquire t k stale).view t =
    ((m.view t).tick t).see k (m.pick t k stale) ⊔ (m.message k (m.pick t k stale)).view :=
  Function.update_self ..

theorem load_view_of_ne (h : u ≠ t) : (m.load order t k stale).view u = m.view u :=
  Function.update_of_ne h ..

theorem store_view_self : (m.store order t k value).view t =
    ((m.view t).tick t).see k (m.last k + 1) := Function.update_self ..

theorem store_view_of_ne (h : u ≠ t) : (m.store order t k value).view u = m.view u :=
  Function.update_of_ne h ..

@[simp] theorem store_last_self : (m.store order t k value).last k = m.last k + 1 :=
  Function.update_self ..

theorem store_last_of_ne (h : k' ≠ k) : (m.store order t k value).last k' = m.last k' :=
  Function.update_of_ne h ..

theorem last_le_store (k' : κ) : m.last k' ≤ (m.store order t k value).last k' := by
  by_cases h : k' = k
  · subst h
    rw [store_last_self]
    exact Nat.le_succ _
  · rw [store_last_of_ne h]

/-- Nothing that is known is forgotten. -/
theorem view_le_load (u : ι) : m.view u ≤ (m.load order t k stale).view u := by
  by_cases hu : u = t
  · subst hu
    have hseen : m.view u ≤ ((m.view u).tick u).see k (m.pick u k stale) :=
      (View.le_tick _ _).trans (View.le_see _ _ _)
    change _ ≤ Function.update m.view u _ u
    rw [Function.update_self]
    cases order with
    | acquire => exact hseen.trans le_sup_left
    | _ => exact hseen
  · rw [load_view_of_ne hu]

/-- The store that a load returns is known to its thread. -/
theorem pick_le_load : m.pick t k stale ≤ ((m.load order t k stale).view t).stores k := by
  have hseen : m.pick t k stale ≤ (((m.view t).tick t).see k (m.pick t k stale)).stores k := by
    rw [View.see_stores_self]
    exact le_max_right _ _
  change _ ≤ (Function.update m.view t _ t).stores k
  rw [Function.update_self]
  cases order with
  | acquire => exact hseen.trans le_sup_left
  | _ => exact hseen

@[inherit_doc view_le_load]
theorem view_le_store (u : ι) : m.view u ≤ (m.store order t k value).view u := by
  by_cases hu : u = t
  · subst hu
    rw [store_view_self]
    exact (View.le_tick _ _).trans (View.le_see _ _ _)
  · rw [store_view_of_ne hu]

/-- The new store is behind the others. -/
theorem store_message_last : (m.store .release t k value).message k (m.last k + 1) =
    ⟨value, ((m.view t).tick t).see k (m.last k + 1)⟩ := by
  change Function.update m.message k _ k _ = _
  rw [Function.update_self, Function.update_self]

theorem store_message_of_le {i : ℕ} (h : i ≤ m.last k') :
    (m.store order t k value).message k' i = m.message k' i := by
  change Function.update m.message k _ k' i = _
  by_cases hk : k' = k
  · subst hk
    rw [Function.update_self, Function.update_of_ne (by omega)]
  · rw [Function.update_of_ne hk]

end Parts

section AccessParts

variable [DecidableEq ι] [DecidableEq l]

theorem access_view_self : (m.access t x write).view t = (m.view t).tick t :=
  Function.update_self ..

theorem access_view_of_ne (h : u ≠ t) : (m.access t x write).view u = m.view u :=
  Function.update_of_ne h ..

@[inherit_doc view_le_load]
theorem view_le_access (u : ι) : m.view u ≤ (m.access t x write).view u := by
  by_cases hu : u = t
  · subst hu
    rw [access_view_self]
    exact View.le_tick _ _
  · rw [access_view_of_ne hu]

theorem access_accesses_self : (m.access t x write).accesses x =
    ⟨t, (m.view t).steps t + 1, write⟩ :: m.accesses x := by
  change Function.update m.accesses x _ x = _
  rw [Function.update_self, View.tick_steps_self]

theorem access_accesses_of_ne (h : y ≠ x) : (m.access t x write).accesses y = m.accesses y :=
  Function.update_of_ne h ..

theorem mem_access {a : Access ι} : a ∈ (m.access t x write).accesses y ↔
    y = x ∧ a = ⟨t, (m.view t).steps t + 1, write⟩ ∨ a ∈ m.accesses y := by
  by_cases h : y = x
  · subst h
    rw [access_accesses_self, List.mem_cons]
    simp
  · rw [access_accesses_of_ne h]
    simp [h]

end AccessParts

/-! ### What stays published -/

/-- A property of every view that a thread has or can take up. -/
def All (m : Memory ι κ l V) (Q : View ι κ → Prop) : Prop :=
  (∀ t, Q (m.view t)) ∧ ∀ k i, i ≤ m.last k → Q (m.message k i).view

end Memory

/-- Who knows more than `n` stores to `k` knows `w`. -/
def Publishes (k : κ) (n : ℕ) (w v : View ι κ) : Prop := n < v.stores k → w ≤ v

theorem Publishes.sup {k : κ} {n : ℕ} {w v v' : View ι κ} (h : Publishes k n w v)
    (h' : Publishes k n w v') : Publishes k n w (v ⊔ v') := by
  intro hlt
  rcases lt_max_iff.mp (show n < max (v.stores k) (v'.stores k) from hlt) with hlt | hlt
  · exact (h hlt).trans le_sup_left
  · exact (h' hlt).trans le_sup_right

theorem Publishes.tick [DecidableEq ι] {k : κ} {n : ℕ} {w v : View ι κ}
    (h : Publishes k n w v) (t : ι) : Publishes k n w (v.tick t) :=
  fun hlt => (h hlt).trans (v.le_tick t)

namespace Memory

/-- **All stores so far were made with release order**, so who takes one up knows it; and
nobody knows of stores and accesses that have not been made. -/
structure Released (m : Memory ι κ l V) : Prop where
  stores_le : m.All fun v => ∀ k, v.stores k ≤ m.last k
  own : ∀ k i, i ≤ m.last k → (m.message k i).view.stores k = i
  access_le : ∀ x, ∀ a ∈ m.accesses x, a.step ≤ (m.view a.thread).steps a.thread

variable {m : Memory ι κ l V} {t u : ι} {k k' : κ} {x y : l} {order : MemoryOrder} {stale : ℕ}
  {value : V k} {write : Bool} {n : ℕ} {w : View ι κ} {Q : View ι κ → Prop}

/-- What has not been stored yet publishes anything. -/
theorem Released.publishes (h : m.Released) (hle : m.last k ≤ n) : m.All (Publishes k n w) :=
  ⟨fun t hlt => absurd (h.stores_le.1 t k) (by omega),
    fun k' i hi hlt => absurd (h.stores_le.2 k' i hi k) (by omega)⟩

theorem released_new (init : ∀ k, V k) : (new init : Memory ι κ l V).Released where
  stores_le := ⟨fun _ _ => le_rfl, fun _ _ _ _ => le_rfl⟩
  own k i hi := (Nat.le_zero.mp hi).symm
  access_le x a ha := by cases ha

/-! ### Loads -/

section Loads

namespace Released

theorem pick_le (h : m.Released) : m.pick t k stale ≤ m.last k :=
  max_le (h.stores_le.1 t k) (Nat.sub_le _ _)

variable [DecidableEq ι] [DecidableEq κ]

/-- A load with acquire order takes up the view of the store that it returns. -/
theorem load_acquire_eq (h : m.Released) : (m.load .acquire t k stale).view t =
    (m.view t).tick t ⊔ (m.message k (m.pick t k stale)).view := by
  rw [load_view_self]
  refine le_antisymm (sup_le ⟨le_sup_left, ?_⟩ le_sup_right) ?_
  · refine update_le_iff.mpr ⟨max_le (le_sup_left) ?_, fun j _ => le_sup_left⟩
    exact le_trans (h.own k _ h.pick_le).ge le_sup_right
  · exact sup_le_sup_right (View.le_see _ _ _) _

/-- The thread that stores to a variable reads its own last store. -/
theorem load_own_eq (hown : (m.view t).stores k = m.last k) :
    (m.load .relaxed t k stale).view t = (m.view t).tick t := by
  have hpick : m.pick t k stale = m.last k := by
    rw [pick, hown]
    exact max_eq_left (Nat.sub_le _ _)
  change Function.update m.view t _ t = _
  rw [Function.update_self]
  exact View.see_of_le (by rw [hpick, View.tick_stores, hown])

end Released

/-- What the steps of a thread that are not stores do to the views. -/
theorem All.of_view {m' : Memory ι κ l V} (h : m.All Q) (hlast : m'.last = m.last)
    (hmessage : m'.message = m.message) (hview : ∀ u, u ≠ t → m'.view u = m.view u)
    (hself : Q (m'.view t)) : m'.All Q := by
  refine ⟨fun u => ?_, fun k i hi => ?_⟩
  · by_cases hu : u = t
    · rw [hu]
      exact hself
    · rw [hview u hu]
      exact h.1 u
  · rw [hlast] at hi
    rw [hmessage]
    exact h.2 k i hi

variable [DecidableEq ι] [DecidableEq κ]

theorem All.load (h : m.All (Publishes k' n w)) (hr : m.Released) :
    (m.load .acquire t k stale).All (Publishes k' n w) := by
  refine h.of_view rfl rfl (fun u hu => load_view_of_ne hu) ?_
  rw [hr.load_acquire_eq]
  exact ((h.1 t).tick t).sup (h.2 k _ hr.pick_le)

theorem All.load_own (h : m.All (Publishes k' n w)) (hown : (m.view t).stores k = m.last k) :
    (m.load .relaxed t k stale).All (Publishes k' n w) := by
  refine h.of_view rfl rfl (fun u hu => load_view_of_ne hu) ?_
  rw [Released.load_own_eq hown]
  exact (h.1 t).tick t

theorem Released.load (h : m.Released) : (m.load .acquire t k stale).Released where
  stores_le := by
    refine h.stores_le.of_view rfl rfl (fun u hu => load_view_of_ne hu) fun j => ?_
    rw [h.load_acquire_eq]
    exact max_le (h.stores_le.1 t j) (h.stores_le.2 k _ h.pick_le j)
  own := h.own
  access_le x a ha := (h.access_le x a ha).trans ((view_le_load a.thread).1 _)

theorem Released.load_own (h : m.Released) (hown : (m.view t).stores k = m.last k) :
    (m.load .relaxed t k stale).Released where
  stores_le := by
    refine h.stores_le.of_view rfl rfl (fun u hu => load_view_of_ne hu) fun j => ?_
    rw [Released.load_own_eq hown]
    exact h.stores_le.1 t j
  own := h.own
  access_le x a ha := (h.access_le x a ha).trans ((view_le_load a.thread).1 _)

end Loads

/-! ### Accesses -/

section Accesses

variable [DecidableEq ι] [DecidableEq l]

theorem All.access (h : m.All (Publishes k n w)) : (m.access t x write).All (Publishes k n w) := by
  refine h.of_view rfl rfl (fun u hu => access_view_of_ne hu) ?_
  rw [access_view_self]
  exact (h.1 t).tick t

theorem Released.access (h : m.Released) : (m.access t x write).Released where
  stores_le := by
    refine h.stores_le.of_view rfl rfl (fun u hu => access_view_of_ne hu) fun j => ?_
    rw [access_view_self]
    exact h.stores_le.1 t j
  own := h.own
  access_le y a ha := by
    rcases mem_access.mp ha with ⟨-, rfl⟩ | ha
    · rw [access_view_self, View.tick_steps_self]
    · exact (h.access_le y a ha).trans ((view_le_access a.thread).1 _)

end Accesses

/-! ### Stores -/

section Stores

variable [DecidableEq ι] [DecidableEq κ]

theorem All.store_of (h : m.All Q) (hself : Q ((m.store .release t k value).view t)) :
    (m.store .release t k value).All Q := by
  refine ⟨fun u => ?_, fun k' i hi => ?_⟩
  · by_cases hu : u = t
    · rw [hu]
      exact hself
    · rw [store_view_of_ne hu]
      exact h.1 u
  · by_cases hle : i ≤ m.last k'
    · rw [store_message_of_le hle]
      exact h.2 k' i hle
    · have hk : k' = k := by
        by_contra hne
        rw [store_last_of_ne hne] at hi
        exact hle hi
      subst hk
      rw [store_last_self] at hi
      obtain rfl : i = m.last k' + 1 := by omega
      rw [store_message_last]
      rwa [store_view_self] at hself

/-- **What a store publishes stays published**, and a store publishes what its thread
knows. -/
theorem All.store (h : m.All (Publishes k' n w)) (hown : (m.view t).stores k = m.last k)
    (hnew : k' = k → m.last k = n → w ≤ (m.view t).tick t) :
    (m.store .release t k value).All (Publishes k' n w) := by
  refine h.store_of ?_
  rw [store_view_self]
  intro hlt
  refine le_trans ?_ (View.le_see _ _ _)
  by_cases hk : k' = k
  · subst hk
    rw [View.see_stores_self, View.tick_stores, hown, max_eq_right (Nat.le_succ _)] at hlt
    rcases Nat.lt_or_ge n (m.last k') with hn | hn
    · exact (h.1 t (by rwa [hown])).trans (View.le_tick _ _)
    · exact hnew rfl (by omega)
  · rw [View.see_stores_of_ne hk] at hlt
    exact (h.1 t hlt).trans (View.le_tick _ _)

theorem Released.store (h : m.Released) (hown : (m.view t).stores k = m.last k) :
    (m.store .release t k value).Released where
  stores_le := by
    have hle : m.All fun v => ∀ j, v.stores j ≤ (m.store .release t k value).last j :=
      ⟨fun u j => (h.stores_le.1 u j).trans (last_le_store j),
        fun k' i hi j => (h.stores_le.2 k' i hi j).trans (last_le_store j)⟩
    refine hle.store_of fun j => ?_
    rw [store_view_self]
    by_cases hj : j = k
    · subst hj
      rw [View.see_stores_self, View.tick_stores, hown, store_last_self,
        max_eq_right (Nat.le_succ _)]
    · rw [View.see_stores_of_ne hj]
      exact hle.1 t j
  own k' i hi := by
    by_cases hle : i ≤ m.last k'
    · rw [store_message_of_le hle]
      exact h.own k' i hle
    · have hk : k' = k := by
        by_contra hne
        rw [store_last_of_ne hne] at hi
        exact hle hi
      subst hk
      rw [store_last_self] at hi
      obtain rfl : i = m.last k' + 1 := by omega
      rw [store_message_last, View.see_stores_self, View.tick_stores, hown,
        max_eq_right (Nat.le_succ _)]
  access_le x a ha := (h.access_le x a ha).trans ((view_le_store a.thread).1 _)

end Stores

/-! ### Accesses that are counted -/

section Accounted

variable {place : ℕ → l}

/-- The accesses of a thread are counted: each has a number below `n` that tells its variable,
and who knows more than that many stores to `k` knows of the access. -/
def Accounted [DecidableEq ι] (m : Memory ι κ l V) (t : ι) (k : κ) (place : ℕ → l) (n : ℕ) :
    Prop :=
  ∀ x, ∀ a ∈ m.accesses x, a.thread = t →
    ∃ i < n, place i = x ∧ m.All (Publishes k i (View.step t a.step))

theorem accounted_new [DecidableEq ι] (init : ∀ k, V k) (t : ι) (k : κ) (place : ℕ → l) (n : ℕ) :
    (new init : Memory ι κ l V).Accounted t k place n := by
  intro x a ha
  cases ha

namespace Accounted

variable [DecidableEq ι]

/-- **An access that was published is known**, to whom knows of enough stores. -/
theorem known (h : m.Accounted t k place n) {a : Access ι} (ha : a ∈ m.accesses x)
    (ht : a.thread = t) (hstores : ∀ i < n, place i = x → i < (m.view u).stores k) :
    a.step ≤ (m.view u).steps a.thread := by
  obtain ⟨i, hi, hplace, hall⟩ := h x a ha ht
  rw [ht]
  exact View.step_le_iff.mp (hall.1 u (hstores i hi hplace))

variable [DecidableEq κ]

theorem load (h : m.Accounted t k place n) (hr : m.Released) :
    (m.load .acquire u k' stale).Accounted t k place n := by
  intro x a ha ht
  obtain ⟨i, hi, hplace, hall⟩ := h x a ha ht
  exact ⟨i, hi, hplace, hall.load hr⟩

theorem load_own (h : m.Accounted t k place n) (hown : (m.view u).stores k' = m.last k') :
    (m.load .relaxed u k' stale).Accounted t k place n := by
  intro x a ha ht
  obtain ⟨i, hi, hplace, hall⟩ := h x a ha ht
  exact ⟨i, hi, hplace, hall.load_own hown⟩

/-- The store that counts the accesses hands them on. -/
theorem store_self (h : m.Accounted t k place n) (hr : m.Released)
    (hown : (m.view t).stores k = m.last k) :
    (m.store .release t k value).Accounted t k place n := by
  intro x a ha ht
  obtain ⟨i, hi, hplace, hall⟩ := h x a ha ht
  refine ⟨i, hi, hplace, hall.store hown fun _ _ => ?_⟩
  refine le_trans (View.step_le_iff.mpr ?_) (View.le_tick _ _)
  rw [← ht]
  exact hr.access_le x a ha

theorem store_of_ne {value : V k'} (h : m.Accounted t k place n)
    (hown : (m.view u).stores k' = m.last k') (hne : k ≠ k') :
    (m.store .release u k' value).Accounted t k place n := by
  intro x a ha ht
  obtain ⟨i, hi, hplace, hall⟩ := h x a ha ht
  exact ⟨i, hi, hplace, hall.store hown fun e => absurd e hne⟩

end Accounted

namespace Accounted

variable [DecidableEq ι] [DecidableEq l]

theorem access_of_ne (h : m.Accounted t k place n) (hne : u ≠ t) :
    (m.access u y write).Accounted t k place n := by
  intro x a ha ht
  rcases mem_access.mp ha with ⟨-, rfl⟩ | ha
  · exact absurd ht hne
  · obtain ⟨i, hi, hplace, hall⟩ := h x a ha ht
    exact ⟨i, hi, hplace, hall.access⟩

/-- The next access gets the next number. -/
theorem access_self (h : m.Accounted t k place n) (hr : m.Released) (hle : m.last k ≤ n) :
    (m.access t (place n) write).Accounted t k place (n + 1) := by
  intro x a ha ht
  rcases mem_access.mp ha with ⟨hx, rfl⟩ | ha
  · refine ⟨n, Nat.lt_succ_self n, hx.symm, ?_⟩
    exact hr.access.publishes hle
  · obtain ⟨i, hi, hplace, hall⟩ := h x a ha ht
    exact ⟨i, Nat.lt_succ_of_lt hi, hplace, hall.access⟩

end Accounted

end Accounted

end Memory

end Lib
end Liquibook
