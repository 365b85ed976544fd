import Liquibook.Book.Levels
import Mathlib.Algebra.BigOperators.Group.List.Lemmas

/-!
# The queues of the book

`Queued b live` ties the pool, the levels and the queues together: `live` lists the
pool slots of the resting orders in order of arrival, and the queue of every price
and side holds exactly those of them that rest there, in that order.  Nothing here
depends on the hash index or on the cached best prices.

Orders are enqueued and dequeued one at a time, and either touches the links of
orders at the same price and side only, so all other queues keep their contents.

## Main definitions

* `Order.core` — an order without its links.
* `RestsAt pool p side s` — the order in slot `s` rests at price `p` on `side`.
* `Queued b live` — the queues and totals of `b` are those of the orders `live`.

## Main results

* `Queued.enqueue`, `Queued.dequeue`, `Queued.reduce` — what the three primitive
  steps of the book do to the queues.
* `Queued.congr_pool` — the queues do not depend on the slots outside `live`.
-/

namespace Liquibook

open Lib

/-- An order without its links. -/
def Order.core (o : Order) : Order := { o with prev := none, next := none }

/-- Orders that differ in their links only agree on every other member. -/
theorem Order.core_eq_iff {o o' : Order} : o.core = o'.core ↔
    o.orderRef = o'.orderRef ∧ o.price = o'.price ∧ o.shares = o'.shares ∧ o.isBuy = o'.isBuy ∧
      o.traderId = o'.traderId ∧ o.level = o'.level := by
  simp [Order.core, Order.mk.injEq]

/-- The core and the links make up the order. -/
theorem Order.eq_of_core_eq {o o' : Order} (hc : o.core = o'.core) (hp : o.prev = o'.prev)
    (hn : o.next = o'.next) : o = o' := by
  obtain ⟨h1, h2, h3, h4, h5, h6⟩ := Order.core_eq_iff.mp hc
  cases o
  cases o'
  simp_all

namespace OrderBook

/-- The order in slot `s` rests at price `p` on `side`. -/
def RestsAt (pool : ObjectPool Order) (p : Price4) (side : Bool) (s : ℕ) : Bool :=
  decide ((pool.get s).price = p ∧ (pool.get s).isBuy = side)

theorem restsAt_iff {pool : ObjectPool Order} {p : Price4} {side : Bool} {s : ℕ} :
    RestsAt pool p side s = true ↔ (pool.get s).price = p ∧ (pool.get s).isBuy = side := by
  rw [RestsAt, decide_eq_true_eq]

theorem filter_restsAt_congr {pool pool' : ObjectPool Order} {live : List ℕ} (p : Price4)
    (side : Bool) (h : ∀ s ∈ live, (pool'.get s).core = (pool.get s).core) :
    live.filter (RestsAt pool' p side) = live.filter (RestsAt pool p side) := by
  refine List.filter_congr fun s hs => ?_
  obtain ⟨-, hp, -, hb, -, -⟩ := Order.core_eq_iff.mp (h s hs)
  rw [RestsAt, RestsAt, hp, hb]

/-- The queues, totals and back-pointers of the book are those of the orders in the
slots `live`, listed in order of arrival. -/
structure Queued (b : OrderBook) (live : List ℕ) : Prop where
  levels : LevelsOK b
  order_level : ∀ s ∈ live,
    (b.orderPool.get s).level = some (b.ptrFor (b.orderPool.get s).price) ∧
      b.HasLevel (b.orderPool.get s).price
  queue : ∀ p side, ((b.levelAt p).queue side).Represents b.orderPool
    (live.filter (RestsAt b.orderPool p side))
  total : ∀ p side, (b.levelAt p).total side =
    ((live.filter (RestsAt b.orderPool p side)).map fun s => (b.orderPool.get s).shares).sum

/-! ### The primitive steps in terms of sides -/

theorem enqueue_eq (b : OrderBook) (s : ℕ) (ptr : Option LevelPtr) (side : Bool) (n : Shares) :
    b.enqueue s ptr side n =
      { b with orderPool := (((b.level ptr).queue side).pushBack b.orderPool s).1 }.setLevel ptr
        ((b.level ptr).withSide side (((b.level ptr).queue side).pushBack b.orderPool s).2
          ((b.level ptr).total side + n)) := by
  cases side <;> rfl

theorem dequeue_eq (b : OrderBook) (s : ℕ) (ptr : Option LevelPtr) (side : Bool) (n : Shares) :
    b.dequeue s ptr side n =
      { b with orderPool := (((b.level ptr).queue side).remove b.orderPool s).1 }.setLevel ptr
        ((b.level ptr).withSide side (((b.level ptr).queue side).remove b.orderPool s).2
          ((b.level ptr).total side - n)) := by
  cases side <;> rfl

theorem reduceTotal_eq (b : OrderBook) (ptr : Option LevelPtr) (side : Bool) (n : Shares) :
    b.reduceTotal ptr side n =
      b.setLevel ptr ((b.level ptr).withSide side ((b.level ptr).queue side)
        ((b.level ptr).total side - n)) := by
  cases side <;> rfl

/-! ### Link writes -/

/-- What a write to a link of a live order keeps: the pool, and every order up to its
links. -/
structure SameOrders (pool pool' : ObjectPool Order) (live free : List ℕ) : Prop where
  inv : pool'.Inv live free
  capacity : pool'.capacity = pool.capacity
  core : ∀ j, (pool'.get j).core = (pool.get j).core

theorem SameOrders.modify {pool pool' : ObjectPool Order} {live free : List ℕ} {i : ℕ}
    {f : Order → Order} (h : SameOrders pool pool' live free) (hi : i ∈ live)
    (hf : ∀ o, (f o).core = o.core) : SameOrders pool (pool'.modify i f) live free where
  inv := h.inv.modify hi f
  capacity := h.capacity
  core := by
    intro j
    rw [ObjectPool.get_modify]
    split
    · next e => rw [hf, e, h.core]
    · exact h.core j

section Links

variable {pool : ObjectPool Order} {l : IntrusiveList} {xs live free : List ℕ} {s : ℕ}

theorem sameOrders_pushBack (hr : l.Represents pool xs) (hinv : pool.Inv live free)
    (hs : s ∈ live) (hxs : ∀ i ∈ xs, i ∈ live) :
    SameOrders pool (l.pushBack pool s).1 live free := by
  refine hr.pushBack_preserves (P := fun h => SameOrders pool h live free) ?_
    ⟨hinv, rfl, fun _ => rfl⟩
  intro h i v hi hP
  have hil : i ∈ live := hi.elim (fun e => e ▸ hs) (hxs i)
  exact ⟨hP.modify hil fun _ => rfl, hP.modify hil fun _ => rfl⟩

theorem sameOrders_remove (hr : l.Represents pool xs) (hinv : pool.Inv live free)
    (hs : s ∈ xs) (hxs : ∀ i ∈ xs, i ∈ live) :
    SameOrders pool (l.remove pool s).1 live free := by
  refine hr.remove_preserves hs (P := fun h => SameOrders pool h live free) ?_
    ⟨hinv, rfl, fun _ => rfl⟩
  intro h i v hi hP
  exact ⟨hP.modify (hxs i hi) fun _ => rfl, hP.modify (hxs i hi) fun _ => rfl⟩

end Links

/-! ### The queues under the primitive steps -/

namespace Queued

variable {b : OrderBook} {live free : List ℕ} {s : ℕ} {p : Price4} {side : Bool}

theorem restsAt_self (hs : s ∈ live) :
    s ∈ live.filter (RestsAt b.orderPool (b.orderPool.get s).price (b.orderPool.get s).isBuy) :=
  List.mem_filter.mpr ⟨hs, restsAt_iff.mpr ⟨rfl, rfl⟩⟩

/-- An order rests at one price and side only. -/
theorem not_restsAt_of_ne {q : Price4} {side' : Bool}
    (hps : s ∈ live.filter (RestsAt b.orderPool p side))
    (hne : ¬ (q = p ∧ side' = side)) : s ∉ live.filter (RestsAt b.orderPool q side') := by
  intro hq
  have h1 := restsAt_iff.mp (List.mem_filter.mp hps).2
  have h2 := restsAt_iff.mp (List.mem_filter.mp hq).2
  exact hne ⟨h2.1.symm.trans h1.1, h2.2.symm.trans h1.2⟩

/-- The queues do not depend on the slots outside `live`. -/
theorem congr_pool (h : Queued b live) {pool : ObjectPool Order}
    (hget : ∀ j ∈ live, pool.get j = b.orderPool.get j) :
    Queued { b with orderPool := pool } live := by
  have hfilter : ∀ p side, live.filter (RestsAt pool p side) =
      live.filter (RestsAt b.orderPool p side) := fun p side =>
    filter_restsAt_congr p side fun j hj => by rw [hget j hj]
  refine ⟨⟨h.levels.flat_price, h.levels.flat_unused, h.levels.outlier_key⟩, ?_, ?_, ?_⟩
  · intro j hj
    dsimp only
    rw [hget j hj]
    exact h.order_level j hj
  · intro p side
    dsimp only
    rw [hfilter]
    refine (h.queue p side).frame ?_ ?_
    · intro j hj
      exact congrArg Order.next (hget j (List.mem_filter.mp hj).1)
    · intro j hj
      exact congrArg Order.prev (hget j (List.mem_filter.mp hj).1)
  · intro p side
    dsimp only
    rw [hfilter]
    refine (h.total p side).trans ?_
    congr 1
    refine List.map_congr_left fun j hj => ?_
    rw [hget j (List.mem_filter.mp hj).1]

/-- The queues do not depend on the index and the cached best prices. -/
theorem congr_rest (h : Queued b live) {b' : OrderBook} (hp : b'.orderPool = b.orderPool)
    (hf : b'.flatLevels = b.flatLevels) (ho : b'.outlierLevels = b.outlierLevels)
    (hr : b'.referencePrice = b.referencePrice)
    (hw : b'.flatArrayHalfWidth = b.flatArrayHalfWidth) : Queued b' live := by
  obtain ⟨⟨h1, h2, h3⟩, h4, h5, h6⟩ := h
  cases b
  cases b'
  simp only at hp hf ho hr hw
  subst hp hf ho hr hw
  exact ⟨⟨h1, h2, h3⟩, h4, h5, h6⟩

/-- `level_for_mutation` leaves the queues alone. -/
theorem levelForMutation (h : Queued b live) (p : Price4) :
    Queued (b.levelForMutation p).2 live := by
  obtain ⟨hlev, -, hhas⟩ := h.levels.levelForMutation p
  obtain ⟨m, hm⟩ := b.levelForMutation_snd p
  have hpool : (b.levelForMutation p).2.orderPool = b.orderPool := by rw [hm]
  have hptr : (b.levelForMutation p).2.ptrFor = b.ptrFor := ptrFor_congr (by rw [hm]) (by rw [hm])
  refine ⟨hlev, ?_, ?_, ?_⟩
  · intro j hj
    rw [hpool, hptr]
    exact ⟨(h.order_level j hj).1, hhas _ (h.order_level j hj).2⟩
  · intro q side
    rw [hpool, (b.levelForMutation_levelAt p q side).1]
    exact h.queue q side
  · intro q side
    rw [hpool, (b.levelForMutation_levelAt p q side).2]
    exact h.total q side

/-- **Rewriting one queue.**  The queue and the total of one price and side are
rewritten together with the pool; every other queue keeps its orders, untouched. -/
theorem writeQueue (h : Queued b live) {pool : ObjectPool Order} {live' : List ℕ}
    {l : IntrusiveList} {t : Shares} (hhas : b.HasLevel p)
    (hself : l.Represents pool (live'.filter (RestsAt pool p side)))
    (htotal : t = ((live'.filter (RestsAt pool p side)).map fun s => (pool.get s).shares).sum)
    (hother : ∀ q side', ¬ (q = p ∧ side' = side) →
      live'.filter (RestsAt pool q side') = live.filter (RestsAt b.orderPool q side') ∧
        ∀ j ∈ live.filter (RestsAt b.orderPool q side'), pool.get j = b.orderPool.get j)
    (hlevel : ∀ j ∈ live', (pool.get j).level = some (b.ptrFor (pool.get j).price) ∧
      b.HasLevel (pool.get j).price) :
    Queued ({ b with orderPool := pool }.setLevel (some (b.ptrFor p))
      ((b.levelAt p).withSide side l t)) live' := by
  set b₁ : OrderBook := { b with orderPool := pool } with hb₁
  have hlev₁ : LevelsOK b₁ := ⟨h.levels.flat_price, h.levels.flat_unused, h.levels.outlier_key⟩
  have hprice : ((b.levelAt p).withSide side l t).price = p := by
    rw [PriceLevel.withSide_price, h.levels.levelAt_price hhas]
  -- the level of `p` is written, and all other levels are as they were
  have hat : ∀ q, (b₁.setLevel (some (b.ptrFor p)) ((b.levelAt p).withSide side l t)).levelAt q =
      if q = p then (b.levelAt p).withSide side l t else b.levelAt q :=
    fun q => b₁.levelAt_setLevel p q _
  refine ⟨hlev₁.setLevel hprice, ?_, ?_, ?_⟩
  · intro j hj
    rw [setLevel_orderPool, ptrFor_setLevel]
    exact ⟨(hlevel j hj).1, HasLevel.setLevel (b := b₁) (hlevel j hj).2⟩
  · intro q side'
    rw [setLevel_orderPool, hat]
    by_cases hq : q = p ∧ side' = side
    · rw [if_pos hq.1, PriceLevel.queue_withSide, if_pos hq.2, hq.1, hq.2]
      exact hself
    · obtain ⟨hlist, hget⟩ := hother q side' hq
      have hkeep : (if q = p then (b.levelAt p).withSide side l t else b.levelAt q).queue side' =
          (b.levelAt q).queue side' := by
        by_cases hqp : q = p
        · rw [if_pos hqp, PriceLevel.queue_withSide, if_neg fun e => hq ⟨hqp, e⟩, hqp]
        · rw [if_neg hqp]
      rw [hkeep, hlist]
      refine (h.queue q side').frame ?_ ?_
      · intro j hj
        exact congrArg Order.next (hget j hj)
      · intro j hj
        exact congrArg Order.prev (hget j hj)
  · intro q side'
    rw [setLevel_orderPool, hat]
    by_cases hq : q = p ∧ side' = side
    · rw [if_pos hq.1, PriceLevel.total_withSide, if_pos hq.2, hq.1, hq.2]
      exact htotal
    · obtain ⟨hlist, hget⟩ := hother q side' hq
      have hkeep : (if q = p then (b.levelAt p).withSide side l t else b.levelAt q).total side' =
          (b.levelAt q).total side' := by
        by_cases hqp : q = p
        · rw [if_pos hqp, PriceLevel.total_withSide, if_neg fun e => hq ⟨hqp, e⟩, hqp]
        · rw [if_neg hqp]
      rw [hkeep, hlist, h.total q side']
      congr 1
      exact List.map_congr_left fun j hj => by rw [hget j hj]

/-- **Enqueueing** appends the order to the queue of its price and side. -/
theorem enqueue (h : Queued b live) (hinv : b.orderPool.Inv (live ++ [s]) free)
    (hlevel : (b.orderPool.get s).level = some (b.ptrFor (b.orderPool.get s).price))
    (hhas : b.HasLevel (b.orderPool.get s).price) :
    Queued (b.enqueue s (some (b.ptrFor (b.orderPool.get s).price)) (b.orderPool.get s).isBuy
        (b.orderPool.get s).shares) (live ++ [s]) ∧
      SameOrders b.orderPool (b.enqueue s (some (b.ptrFor (b.orderPool.get s).price))
        (b.orderPool.get s).isBuy (b.orderPool.get s).shares).orderPool (live ++ [s]) free := by
  set o := b.orderPool.get s with ho
  set xs := live.filter (RestsAt b.orderPool o.price o.isBuy) with hxs
  have hr : ((b.levelAt o.price).queue o.isBuy).Represents b.orderPool xs := h.queue _ _
  have hslive : s ∉ live := by
    intro hs
    exact (List.nodup_append.mp hinv.live_nodup).2.2 s hs s List.mem_cons_self rfl
  have hsxs : s ∉ xs := fun hs => hslive (List.mem_filter.mp hs).1
  have hso := sameOrders_pushBack hr hinv (List.mem_append_right live List.mem_cons_self)
    fun i hi => List.mem_append_left _ (List.mem_filter.mp hi).1
  set pool := (((b.levelAt o.price).queue o.isBuy).pushBack b.orderPool s).1 with hpool
  -- appending `s` appends to its own queue and to no other
  have hfilter : ∀ q side', (live ++ [s]).filter (RestsAt pool q side') =
      live.filter (RestsAt b.orderPool q side') ++
        if q = o.price ∧ side' = o.isBuy then [s] else [] := by
    intro q side'
    rw [filter_restsAt_congr q side' fun j _ => hso.core j, List.filter_append]
    congr 1
    by_cases hq : q = o.price ∧ side' = o.isBuy
    · rw [if_pos hq, List.filter_cons, if_pos (restsAt_iff.mpr ⟨hq.1.symm, hq.2.symm⟩)]
      rfl
    · rw [if_neg hq, List.filter_cons, if_neg fun e => hq ?_]
      · rfl
      · have := restsAt_iff.mp e
        exact ⟨this.1.symm, this.2.symm⟩
  rw [enqueue_eq]
  refine ⟨?_, by rw [setLevel_orderPool]; exact hso⟩
  refine @writeQueue b live _ _ h pool _ _ _ hhas ?_ ?_ ?_ ?_
  · rw [hfilter, if_pos ⟨rfl, rfl⟩]
    exact hr.pushBack hsxs
  · rw [hfilter, if_pos ⟨rfl, rfl⟩, List.map_append, List.sum_append]
    have hshares : ∀ j, (pool.get j).shares = (b.orderPool.get j).shares := fun j =>
      (Order.core_eq_iff.mp (hso.core j)).2.2.1
    simp only [hshares, List.map_cons, List.map_nil, List.sum_cons, List.sum_nil, add_zero]
    rw [← h.total o.price o.isBuy]
    rfl
  · intro q side' hq
    rw [hfilter, if_neg hq, List.append_nil]
    refine ⟨rfl, fun j hj => ?_⟩
    -- links are written in the queue of `s` only, so an order elsewhere is untouched
    have hjxs : j ∉ xs := fun hx => not_restsAt_of_ne hx hq hj
    have hjs : j ≠ s := fun e => hslive (e ▸ (List.mem_filter.mp hj).1)
    obtain ⟨hn, hp⟩ := hr.pushBack_outside hjxs hjs
    exact Order.eq_of_core_eq (hso.core j) hp hn
  · intro j hj
    obtain ⟨-, hp, -, -, -, hl⟩ := Order.core_eq_iff.mp (hso.core j)
    rw [hp, hl]
    rcases List.mem_append.mp hj with hj | hj
    · exact h.order_level j hj
    · rw [List.mem_singleton.mp hj]
      exact ⟨hlevel, hhas⟩

/-- **Dequeueing** drops the order from the queue of its price and side. -/
theorem dequeue (h : Queued b live) (hinv : b.orderPool.Inv live free) (hs : s ∈ live) :
    Queued (b.dequeue s (b.orderPool.get s).level (b.orderPool.get s).isBuy
        (b.orderPool.get s).shares) (live.filter (· ≠ s)) ∧
      SameOrders b.orderPool (b.dequeue s (b.orderPool.get s).level (b.orderPool.get s).isBuy
        (b.orderPool.get s).shares).orderPool live free := by
  set o := b.orderPool.get s with ho
  set xs := live.filter (RestsAt b.orderPool o.price o.isBuy) with hxs
  obtain ⟨hlevel, hhas⟩ := h.order_level s hs
  have hr : ((b.levelAt o.price).queue o.isBuy).Represents b.orderPool xs := h.queue _ _
  have hsxs : s ∈ xs := restsAt_self hs
  have hso := sameOrders_remove hr hinv hsxs fun i hi => (List.mem_filter.mp hi).1
  set pool := (((b.levelAt o.price).queue o.isBuy).remove b.orderPool s).1 with hpool
  have hfilter : ∀ q side', (live.filter (· ≠ s)).filter (RestsAt pool q side') =
      (live.filter (RestsAt b.orderPool q side')).filter (· ≠ s) := by
    intro q side'
    rw [filter_restsAt_congr q side' fun j _ => hso.core j, List.filter_comm]
  rw [← ho] at hlevel
  rw [hlevel, dequeue_eq]
  refine ⟨?_, by rw [setLevel_orderPool]; exact hso⟩
  refine @writeQueue b live _ _ h pool _ _ _ hhas ?_ ?_ ?_ ?_
  · rw [hfilter]
    exact hr.remove hsxs
  · have hshares : ∀ j, (pool.get j).shares = (b.orderPool.get j).shares := fun j =>
      (Order.core_eq_iff.mp (hso.core j)).2.2.1
    have hnd : xs.Nodup := hinv.live_nodup.filter _
    rw [hfilter, ← ObjectPool.erase_eq_filter_ne hnd]
    simp only [hshares]
    -- the total wraps like the sum does, so taking the shares off again is exact
    have hsum := List.sum_map_erase (fun j => (b.orderPool.get j).shares) hsxs
    have htot : (b.level (some (b.ptrFor o.price))).total o.isBuy =
        (xs.map fun j => (b.orderPool.get j).shares).sum := h.total o.price o.isBuy
    rw [htot, ← hsum, add_sub_cancel_left]
  · intro q side' hq
    have hsq : s ∉ live.filter (RestsAt b.orderPool q side') := not_restsAt_of_ne hsxs hq
    rw [hfilter]
    refine ⟨List.filter_eq_self.mpr fun j hj => ?_, fun j hj => ?_⟩
    · have : j ≠ s := fun e => hsq (e ▸ hj)
      simpa using this
    · have hjxs : j ∉ xs := fun hx => not_restsAt_of_ne hx hq hj
      obtain ⟨hn, hp⟩ := hr.remove_outside hsxs hjxs
      exact Order.eq_of_core_eq (hso.core j) hp hn
  · intro j hj
    obtain ⟨-, hp, -, -, -, hl⟩ := Order.core_eq_iff.mp (hso.core j)
    rw [hp, hl]
    exact h.order_level j (List.mem_filter.mp hj).1

/-- **Taking shares off an order** takes them off the total of its level. -/
theorem reduce (h : Queued b live) (hinv : b.orderPool.Inv live free) (hs : s ∈ live)
    (delta : Shares) :
    Queued ((b.modifyOrder s fun o => { o with shares := o.shares - delta }).reduceTotal
      (b.orderPool.get s).level (b.orderPool.get s).isBuy delta) live := by
  set o := b.orderPool.get s with ho
  set xs := live.filter (RestsAt b.orderPool o.price o.isBuy) with hxs
  obtain ⟨hlevel, hhas⟩ := h.order_level s hs
  rw [← ho] at hlevel
  set pool := b.orderPool.modify s fun o => { o with shares := o.shares - delta } with hpool
  have hget : ∀ j, pool.get j = if j = s then { o with shares := o.shares - delta } else
      b.orderPool.get j := fun j => by rw [hpool, ObjectPool.get_modify]
  -- only the shares of `s` are written
  have hfield : ∀ j, (pool.get j).price = (b.orderPool.get j).price ∧
      (pool.get j).isBuy = (b.orderPool.get j).isBuy ∧
      (pool.get j).level = (b.orderPool.get j).level ∧
      (pool.get j).next = (b.orderPool.get j).next ∧
      (pool.get j).prev = (b.orderPool.get j).prev := by
    intro j
    rw [hget]
    split
    · next e => rw [e]; exact ⟨rfl, rfl, rfl, rfl, rfl⟩
    · exact ⟨rfl, rfl, rfl, rfl, rfl⟩
  have hfilter : ∀ q side', live.filter (RestsAt pool q side') =
      live.filter (RestsAt b.orderPool q side') := by
    intro q side'
    refine List.filter_congr fun j _ => ?_
    rw [RestsAt, RestsAt, (hfield j).1, (hfield j).2.1]
  have hsxs : s ∈ xs := restsAt_self hs
  rw [reduceTotal_eq, hlevel]
  refine h.writeQueue hhas ?_ ?_ ?_ ?_
  · rw [hfilter]
    refine (h.queue o.price o.isBuy).frame ?_ ?_
    · exact fun j _ => (hfield j).2.2.2.1
    · exact fun j _ => (hfield j).2.2.2.2
  · have hnd : xs.Nodup := hinv.live_nodup.filter _
    rw [hfilter]
    have hsum := List.sum_map_erase (fun j => (b.orderPool.get j).shares) hsxs
    have hsum' := List.sum_map_erase (fun j => (pool.get j).shares) hsxs
    have hrest : (xs.erase s).map (fun j => (pool.get j).shares) =
        (xs.erase s).map fun j => (b.orderPool.get j).shares := by
      refine List.map_congr_left fun j hj => ?_
      have hjs : j ≠ s := fun e => hnd.not_mem_erase (e ▸ hj)
      rw [hget, if_neg hjs]
    have htot : (b.level (some (b.ptrFor o.price))).total o.isBuy =
        (xs.map fun j => (b.orderPool.get j).shares).sum := h.total o.price o.isBuy
    rw [hrest, hget, if_pos rfl] at hsum'
    rw [← hsum']
    show (b.level (some (b.ptrFor o.price))).total o.isBuy - delta = _
    rw [htot, ← hsum, ← ho, sub_add_eq_add_sub]
  · intro q side' hq
    refine ⟨hfilter q side', fun j hj => ?_⟩
    have hjs : j ≠ s := fun e => not_restsAt_of_ne hsxs hq (e ▸ hj)
    rw [hget, if_neg hjs]
  · intro j hj
    rw [(hfield j).1, (hfield j).2.2.1]
    exact h.order_level j hj

end Queued

end OrderBook
end Liquibook
