import Liquibook.Book.Queues
import Liquibook.Spec.Ledger

/-!
# The shape of the book

`Shape b live free` adds the hash index to the queues of `Liquibook.Book.Queues`:
the index leads from every reference to the slot of the live order that carries it,
and from no other.  Read in order of arrival, the live slots of such a book are the
orders of a ledger, `b.ledgerOf live`.  Removing, adding and reducing an order keeps
the shape, and does to this ledger what its own operations do.

The roll-back of `add_order` is dead code in such a book.  The pool has at most as
many slots as the table, so when it hands out a slot the table has room.

## Main definitions

* `Shape b live free` — the pool, the index, the levels and the queues agree.
* `OrderBook.ledgerOf` — the ledger of a book, given its slots in order of arrival.

## Main results

* `Shape.removeOrderFully`, `Shape.addOrder`, `Shape.takeOff_shape` — the three
  workhorses of the book, on the ledger.
* `shape_new` — the shape of a new book.
-/

namespace Liquibook

open Lib

/-- An order, without its place in memory. -/
def Order.resting (o : Order) : Resting :=
  { orderRef := o.orderRef, price := o.price, shares := o.shares, isBuy := o.isBuy,
    traderId := o.traderId }

theorem Order.resting_of_core {o o' : Order} (h : o.core = o'.core) : o.resting = o'.resting := by
  obtain ⟨h1, h2, h3, h4, h5, -⟩ := Order.core_eq_iff.mp h
  rw [resting, resting, h1, h2, h3, h4, h5]

namespace OrderBook

/-- The cached best price of a side. -/
def best (b : OrderBook) (side : Bool) : Option Price4 := if side then b.bestBid else b.bestAsk

/-- The ledger of a book whose live slots are `live`, in order of arrival. -/
def ledgerOf (b : OrderBook) (live : List ℕ) : Ledger where
  capacity := b.orderPool.capacity
  orders := live.map fun s => (b.orderPool.get s).resting
  best := b.best

/-- The pool, the index, the levels and the queues agree on the live orders. -/
structure Shape (b : OrderBook) (live free : List ℕ) : Prop where
  queued : Queued b live
  pool : b.orderPool.Inv live free
  index : b.orderIndex.Inv
  find_iff : ∀ ref s, b.orderIndex.find ref = some s ↔
    s ∈ live ∧ (b.orderPool.get s).orderRef = ref
  size_eq : b.orderIndex.size = live.length
  capacity_le : b.orderPool.capacity ≤ b.orderIndex.capacity

/-! ### What the primitive steps leave alone -/

section Frame

variable (b : OrderBook) (ptr : Option LevelPtr) (lvl : PriceLevel) (s : ℕ) (side : Bool)
  (n : Shares) (p : Price4)

@[simp] theorem setLevel_best : (b.setLevel ptr lvl).best = b.best := by
  unfold setLevel; split <;> rfl

@[simp] theorem enqueue_best : (b.enqueue s ptr side n).best = b.best := by
  rw [enqueue_eq, setLevel_best]; rfl

@[simp] theorem dequeue_best : (b.dequeue s ptr side n).best = b.best := by
  rw [dequeue_eq, setLevel_best]; rfl

@[simp] theorem reduceTotal_best : (b.reduceTotal ptr side n).best = b.best := by
  rw [reduceTotal_eq, setLevel_best]

@[simp] theorem levelForMutation_best : (b.levelForMutation p).2.best = b.best := by
  obtain ⟨m, hm⟩ := b.levelForMutation_snd p
  rw [hm]; rfl

@[simp] theorem enqueue_orderIndex : (b.enqueue s ptr side n).orderIndex = b.orderIndex := by
  rw [enqueue_eq, setLevel_orderIndex]

@[simp] theorem dequeue_orderIndex : (b.dequeue s ptr side n).orderIndex = b.orderIndex := by
  rw [dequeue_eq, setLevel_orderIndex]

@[simp] theorem reduceTotal_orderIndex :
    (b.reduceTotal ptr side n).orderIndex = b.orderIndex := by
  rw [reduceTotal_eq, setLevel_orderIndex]

@[simp] theorem reduceTotal_orderPool : (b.reduceTotal ptr side n).orderPool = b.orderPool := by
  rw [reduceTotal_eq, setLevel_orderPool]

@[simp] theorem levelForMutation_orderIndex :
    (b.levelForMutation p).2.orderIndex = b.orderIndex := by
  obtain ⟨m, hm⟩ := b.levelForMutation_snd p
  rw [hm]

@[simp] theorem levelForMutation_orderPool :
    (b.levelForMutation p).2.orderPool = b.orderPool := by
  obtain ⟨m, hm⟩ := b.levelForMutation_snd p
  rw [hm]

end Frame

/-! ### The cached best prices -/

theorem updateBestOnAdd_best (b : OrderBook) (p : Price4) (side side' : Bool) :
    (b.updateBestOnAdd p side).best side' =
      if side' = side then improve (fun p q => better side p q = true) (b.best side) p
      else b.best side' := by
  unfold updateBestOnAdd
  cases side <;> cases side' <;> cases hb : b.hasBestBid <;> cases ha : b.hasBestAsk <;>
    simp [best, bestBid, bestAsk, improve, hb, ha, better] <;> split <;> simp_all

theorem recomputeBest_best (b : OrderBook) (side side' : Bool) :
    (b.recomputeBestAfterLevelEmptied side).best side' =
      if side' = side then b.bestPriceWhere side fun _ => true else b.best side' := by
  unfold recomputeBestAfterLevelEmptied
  cases side <;> cases side' <;> simp only [best, bestBid, bestAsk, if_true, if_false,
    Bool.false_eq_true, Bool.true_eq_false]
  · cases b.bestPriceWhere false fun _ => true <;> rfl
  · cases b.bestPriceWhere true fun _ => true <;> rfl

/-- The source's test whether a price is the cached best one. -/
theorem wasBest_iff (b : OrderBook) (p : Price4) (side : Bool) :
    (if side then b.hasBestBid && p == b.bestBidPrice else b.hasBestAsk && p == b.bestAskPrice) =
      true ↔ b.best side = some p := by
  cases side with
  | true =>
    cases hb : b.hasBestBid
    · simp [best, bestBid, hb]
    · simpa [best, bestBid, hb] using eq_comm
  | false =>
    cases hb : b.hasBestAsk
    · simp [best, bestAsk, hb]
    · simpa [best, bestAsk, hb] using eq_comm

namespace Shape

variable {b b' : OrderBook} {live free : List ℕ} {s : ℕ}

/-- The shape does not depend on the cached best prices. -/
theorem congr_best (h : Shape b live free) (hp : b'.orderPool = b.orderPool)
    (hi : b'.orderIndex = b.orderIndex) (hf : b'.flatLevels = b.flatLevels)
    (ho : b'.outlierLevels = b.outlierLevels) (hr : b'.referencePrice = b.referencePrice)
    (hw : b'.flatArrayHalfWidth = b.flatArrayHalfWidth) : Shape b' live free where
  queued := h.queued.congr_rest hp hf ho hr hw
  pool := by rw [hp]; exact h.pool
  index := by rw [hi]; exact h.index
  find_iff := by rw [hi, hp]; exact h.find_iff
  size_eq := by rw [hi]; exact h.size_eq
  capacity_le := by rw [hi, hp]; exact h.capacity_le

theorem updateBestOnAdd (h : Shape b live free) (p : Price4) (side : Bool) :
    Shape (b.updateBestOnAdd p side) live free := by
  refine h.congr_best ?_ ?_ ?_ ?_ ?_ ?_ <;>
  · unfold OrderBook.updateBestOnAdd
    split <;> split <;> rfl

theorem recomputeBest (h : Shape b live free) (side : Bool) :
    Shape (b.recomputeBestAfterLevelEmptied side) live free := by
  refine h.congr_best ?_ ?_ ?_ ?_ ?_ ?_ <;>
  · unfold OrderBook.recomputeBestAfterLevelEmptied
    split <;> rfl

/-! ### Reading the ledger off the book -/

/-- References lead to one slot each. -/
theorem ref_injective (h : Shape b live free) {i j : ℕ} (hi : i ∈ live) (hj : j ∈ live)
    (href : (b.orderPool.get i).orderRef = (b.orderPool.get j).orderRef) : i = j := by
  have h1 := (h.find_iff _ i).mpr ⟨hi, rfl⟩
  have h2 := (h.find_iff _ j).mpr ⟨hj, rfl⟩
  rw [href, h2] at h1
  exact (Option.some.inj h1).symm

theorem find_ledgerOf (h : Shape b live free) (ref : OrderRef) :
    (b.ledgerOf live).find ref =
      (b.orderIndex.find ref).map fun s => (b.orderPool.get s).resting := by
  cases hf : b.orderIndex.find ref with
  | none =>
    refine Ledger.find_eq_none_iff.mpr ?_
    intro r hr href
    obtain ⟨s, hs, rfl⟩ := List.mem_map.mp hr
    have := (h.find_iff ref s).mpr ⟨hs, href⟩
    rw [hf] at this
    cases this
  | some s =>
    obtain ⟨hs, href⟩ := (h.find_iff ref s).mp hf
    have hnd : ((b.ledgerOf live).orders.map Resting.orderRef).Nodup := by
      rw [ledgerOf, List.map_map]
      refine (List.nodup_map_iff_inj_on h.pool.live_nodup).mpr ?_
      exact fun i hi j hj e => h.ref_injective hi hj e
    have := Ledger.find_of_mem hnd (List.mem_map_of_mem hs)
    rw [← href]
    exact this

theorem queue_ledgerOf (b : OrderBook) (live : List ℕ) (p : Price4) (side : Bool) :
    (b.ledgerOf live).queue p side =
      (live.filter (RestsAt b.orderPool p side)).map fun s => (b.orderPool.get s).resting := by
  rw [Ledger.queue, ledgerOf, List.filter_map]
  rfl

theorem total_ledgerOf (h : Shape b live free) (p : Price4) (side : Bool) :
    (b.ledgerOf live).total p side = (b.levelAt p).total side := by
  rw [Ledger.total, queue_ledgerOf, List.map_map, h.queued.total p side]
  rfl

/-- The scan of the book is the search of the ledger. -/
theorem bestPriceWhere_eq (h : Shape b live free) (side : Bool) :
    b.bestPriceWhere side (fun _ => true) = ((b.ledgerOf live).depth side).levels.head? := by
  refine IsBest.unique (ranking_better side) (h.queued.levels.isBest_bestPriceWhere side _) ?_
  refine ((b.ledgerOf live).isBest_levels side).congr fun p => ?_
  rw [h.total_ledgerOf p side]
  exact ⟨fun hp => ⟨rfl, hp⟩, fun hp => hp.2⟩

/-! ### Removing an order -/

/-- `remove_order_fully` up to the repair of the cached best price. -/
def unhook (b : OrderBook) (s : ℕ) : OrderBook :=
  let o := b.orderPool.get s
  let b := b.dequeue s o.level o.isBuy o.shares
  let b := { b with orderIndex := (b.orderIndex.erase o.orderRef).2 }
  { b with orderPool := b.orderPool.release s }

theorem removeOrderFully_eq (b : OrderBook) (s : ℕ) :
    b.removeOrderFully s =
      if ((unhook b s).level (b.orderPool.get s).level).queue (b.orderPool.get s).isBuy |>.empty then
        if (unhook b s).best (b.orderPool.get s).isBuy = some (b.orderPool.get s).price then
          (unhook b s).recomputeBestAfterLevelEmptied (b.orderPool.get s).isBuy
        else unhook b s
      else unhook b s := by
  -- the source looks at `bids` or `asks`, and at the cached price of that side
  have hside : (if (b.orderPool.get s).isBuy then
      ((unhook b s).level (b.orderPool.get s).level).bids.empty
      else ((unhook b s).level (b.orderPool.get s).level).asks.empty) =
      (((unhook b s).level (b.orderPool.get s).level).queue (b.orderPool.get s).isBuy).empty := by
    cases (b.orderPool.get s).isBuy <;> rfl
  have hbest := (unhook b s).wasBest_iff (b.orderPool.get s).price (b.orderPool.get s).isBuy
  rw [← hside]
  simp only [← hbest]
  unfold removeOrderFully unhook
  dsimp only
  split <;> split <;> simp_all

theorem unhook_shape (h : Shape b live free) (hs : s ∈ live) :
    Shape (unhook b s) (live.filter (· ≠ s)) (s :: free) ∧
      ((∀ j ∈ live.filter (· ≠ s),
        ((unhook b s).orderPool.get j).core = (b.orderPool.get j).core)) ∧
      (unhook b s).orderPool.capacity = b.orderPool.capacity ∧ (unhook b s).best = b.best := by
  obtain ⟨hq, hso⟩ := h.queued.dequeue h.pool hs
  have hfind := (h.find_iff _ s).mpr ⟨hs, rfl⟩
  obtain ⟨m, hm, hminv, hmcap, hmsize, -, hmfind⟩ := h.index.erase_present hfind
  set o := b.orderPool.get s with ho
  set b₁ := b.dequeue s o.level o.isBuy o.shares with hb₁
  have hidx : b₁.orderIndex = b.orderIndex := dequeue_orderIndex _ _ _ _ _
  have hun : unhook b s = { b₁ with orderIndex := m, orderPool := b₁.orderPool.release s } := by
    unfold unhook
    simp only [← ho, ← hb₁, hidx, hm]
  have hne : ∀ j ∈ live.filter (· ≠ s), j ≠ s := by
    intro j hj
    simpa using (List.mem_filter.mp hj).2
  have hcore : ∀ j ∈ live.filter (· ≠ s),
      ((b₁.orderPool.release s).get j).core = (b.orderPool.get j).core := by
    intro j hj
    rw [ObjectPool.get_release_of_ne _ (hne j hj), hso.core]
  rw [hun]
  refine ⟨⟨?_, ?_, hminv, ?_, ?_, ?_⟩, hcore, ?_, ?_⟩
  · have hq' : Queued { b₁ with orderPool := b₁.orderPool.release s } (live.filter (· ≠ s)) :=
      hq.congr_pool fun j hj => ObjectPool.get_release_of_ne _ (hne j hj)
    exact hq'.congr_rest rfl rfl rfl rfl rfl
  · exact hso.inv.release hs
  · intro ref j
    dsimp only
    rw [hmfind]
    constructor
    · intro hj
      split at hj
      · cases hj
      -- a reference that is still found leads to a slot other than `s`
      · next href =>
        obtain ⟨hjl, hjr⟩ := (h.find_iff ref j).mp hj
        have hjs : j ≠ s := by
          rintro rfl
          exact href hjr.symm
        have hjf : j ∈ live.filter (· ≠ s) := List.mem_filter.mpr ⟨hjl, by simpa using hjs⟩
        exact ⟨hjf, (Order.core_eq_iff.mp (hcore j hjf)).1.trans hjr⟩
    · rintro ⟨hjf, hjr⟩
      rw [(Order.core_eq_iff.mp (hcore j hjf)).1] at hjr
      have hjl := (List.mem_filter.mp hjf).1
      rw [if_neg]
      · exact (h.find_iff ref j).mpr ⟨hjl, hjr⟩
      · rintro rfl
        exact hne j hjf (h.ref_injective hjl hs hjr)
  · dsimp only
    rw [← ObjectPool.erase_eq_filter_ne h.pool.live_nodup, List.length_erase_of_mem hs,
      ← h.size_eq]
    omega
  · dsimp only
    rw [ObjectPool.release_capacity, hso.capacity, hmcap]
    exact h.capacity_le
  · exact hso.capacity
  · show b₁.best = b.best
    exact dequeue_best _ _ _ _ _

/-- **Removing an order** from the book removes it from the ledger. -/
theorem removeOrderFully (h : Shape b live free) (hs : s ∈ live) :
    Shape (b.removeOrderFully s) (live.filter (· ≠ s)) (s :: free) ∧
      (b.removeOrderFully s).ledgerOf (live.filter (· ≠ s)) =
        (b.ledgerOf live).remove (b.orderPool.get s).resting := by
  obtain ⟨hsh, hcore, hcap, hbest⟩ := h.unhook_shape hs
  obtain ⟨hlevel, hhas⟩ := h.queued.order_level s hs
  set o := b.orderPool.get s with ho
  set u := unhook b s with hu
  have hptr : u.ptrFor = b.ptrFor := by
    refine ptrFor_congr ?_ ?_ <;>
    · rw [hu, unhook, dequeue_eq]
      simp
  -- the ledger of the unhooked book has lost the order and nothing else
  have hdrop : u.ledgerOf (live.filter (· ≠ s)) = (b.ledgerOf live).drop o.resting := by
    unfold ledgerOf Ledger.drop
    dsimp only
    rw [hcap, hbest, List.filter_map]
    congr 1
    rw [List.map_congr_left fun j hj => Order.resting_of_core (hcore j hj)]
    congr 1
    refine List.filter_congr fun j hj => ?_
    rw [Function.comp_apply, decide_eq_decide]
    exact not_congr ⟨fun e => by rw [e], fun e => h.ref_injective hj hs e⟩
  -- the source asks the queue of the level, the ledger its orders at the price
  have hempty : ((u.level o.level).queue o.isBuy).empty = true ↔
      ((b.ledgerOf live).drop o.resting).queue o.price o.isBuy = [] := by
    rw [hlevel, ← hptr, ← hdrop, queue_ledgerOf, List.map_eq_nil_iff]
    exact (hsh.queued.queue o.price o.isBuy).empty_iff
  have hbest' : u.best o.isBuy = (b.ledgerOf live).best o.isBuy := by rw [hbest]; rfl
  rw [removeOrderFully_eq, ← ho, ← hu, Ledger.remove]
  by_cases hq : ((u.level o.level).queue o.isBuy).empty = true
  · rw [if_pos hq]
    by_cases hc : u.best o.isBuy = some o.price
    · rw [if_pos hc, if_pos ⟨hempty.mp hq, hbest' ▸ hc⟩]
      refine ⟨hsh.recomputeBest _, ?_⟩
      have hledger : (u.recomputeBestAfterLevelEmptied o.isBuy).ledgerOf (live.filter (· ≠ s)) =
          { u.ledgerOf (live.filter (· ≠ s)) with
            best := (u.recomputeBestAfterLevelEmptied o.isBuy).best } := by
        unfold ledgerOf recomputeBestAfterLevelEmptied
        dsimp only
        split <;> rfl
      rw [hledger, hdrop]
      dsimp only
      congr 1
      funext side
      rw [recomputeBest_best, Function.update_apply, hsh.bestPriceWhere_eq, hdrop, hbest]
      rfl
    · rw [if_neg hc, if_neg fun e => hc (hbest'.trans e.2)]
      exact ⟨hsh, hdrop⟩
  · rw [if_neg hq, if_neg fun e => hq (hempty.mpr e.1)]
    exact ⟨hsh, hdrop⟩

/-! ### Adding an order -/

/-- The order that is written into the slot of a new order. -/
def newOrder (r : Resting) (ptr : LevelPtr) (x : Order) : Order :=
  { x with orderRef := r.orderRef, price := r.price, shares := r.shares, isBuy := r.isBuy,
           traderId := r.traderId, level := some ptr }

/-- `add_order` from the acquired slot up to the insertion into the index. -/
def hook (b : OrderBook) (pool : ObjectPool Order) (s : ℕ) (r : Resting) : OrderBook :=
  let b := { b with orderPool := pool }
  let b' := (b.levelForMutation r.price).2
  (b'.modifyOrder s (newOrder r (b'.ptrFor r.price))).enqueue s (some (b'.ptrFor r.price)) r.isBuy
    r.shares

theorem addOrder_eq {pool : ObjectPool Order} {r : Resting} (hpos : r.shares ≠ 0)
    (href : b.orderIndex.find r.orderRef = none) (hacq : b.orderPool.acquire {} = some (s, pool)) :
    b.addOrder r.orderRef r.price r.shares r.isBuy r.traderId =
      match (hook b pool s r).orderIndex.insert r.orderRef s with
      | (false, _) =>
          let b := (hook b pool s r).dequeue s (some (b.ptrFor r.price)) r.isBuy r.shares
          (false, { b with orderPool := b.orderPool.release s })
      | (true, index) =>
          (true, { hook b pool s r with orderIndex := index }.updateBestOnAdd r.price r.isBuy) := by
  have hnone : ¬ (b.orderIndex.find r.orderRef).isSome := by rw [href]; simp
  have hptr : (({ b with orderPool := pool } : OrderBook).levelForMutation r.price).2.ptrFor =
      b.ptrFor := by
    obtain ⟨m, hm⟩ := ({ b with orderPool := pool } : OrderBook).levelForMutation_snd r.price
    rw [hm]
    rfl
  have hfst : (({ b with orderPool := pool } : OrderBook).levelForMutation r.price).1 =
      b.ptrFor r.price := levelForMutation_fst _ _
  unfold OrderBook.addOrder hook
  rw [if_neg hpos, if_neg hnone, hacq]
  dsimp only
  rw [hptr, hfst]
  rfl

/-- The order `r` is in the slot `s` of `b'` and at the end of its queue; the index and
the cached best prices are still those of `b`. -/
structure Hooked (b : OrderBook) (live : List ℕ) (r : Resting) (s : ℕ) (rest : List ℕ)
    (b' : OrderBook) : Prop where
  queued : Queued b' (live ++ [s])
  pool : b'.orderPool.Inv (live ++ [s]) rest
  core : ∀ j ∈ live, (b'.orderPool.get j).core = (b.orderPool.get j).core
  self : (b'.orderPool.get s).resting = r
  capacity : b'.orderPool.capacity = b.orderPool.capacity
  index : b'.orderIndex = b.orderIndex
  best : b'.best = b.best

theorem hook_spec (h : Shape b live free) (r : Resting)
    (hlen : live.length < b.orderPool.capacity) :
    ∃ s rest pool, b.orderPool.acquire {} = some (s, pool) ∧
      Hooked b live r s rest (hook b pool s r) := by
  obtain ⟨s, rest, pool, -, hacq, hpool, hcap, hget, hother⟩ := h.pool.acquire ({} : Order) hlen
  have hslive : s ∉ live := by
    intro hs
    exact (List.nodup_append.mp hpool.live_nodup).2.2 s hs s List.mem_cons_self rfl
  have hne : ∀ j ∈ live, j ≠ s := fun j hj => ne_of_mem_of_not_mem hj hslive
  -- `b₁` has the slot, `b₂` the level, and `b₃` the order in its slot
  set b₁ : OrderBook := { b with orderPool := pool } with hb₁
  set b₂ := (b₁.levelForMutation r.price).2 with hb₂
  set b₃ := b₂.modifyOrder s (newOrder r (b₂.ptrFor r.price)) with hb₃
  have hpool₂ : b₂.orderPool = pool := levelForMutation_orderPool _ _
  have hpool₃ : b₃.orderPool = pool.modify s (newOrder r (b₂.ptrFor r.price)) := by
    rw [hb₃, modifyOrder, hpool₂]
  have hget₃ : ∀ j, j ≠ s → b₃.orderPool.get j = pool.get j := by
    intro j hj
    rw [hpool₃, ObjectPool.get_modify, if_neg hj]
  have hself : b₃.orderPool.get s = newOrder r (b₃.ptrFor r.price) {} := by
    rw [hpool₃, ObjectPool.get_modify_self, hget]
    rfl
  have hq₁ : Queued b₁ live := h.queued.congr_pool fun j hj => hother j (hne j hj)
  have hq₃ : Queued b₃ live := by
    refine (hq₁.levelForMutation r.price).congr_pool fun j hj => ?_
    rw [ObjectPool.get_modify, if_neg (hne j hj)]
  have hinv₃ : b₃.orderPool.Inv (live ++ [s]) rest := by
    rw [hpool₃]
    exact hpool.modify (List.mem_append_right _ List.mem_cons_self) _
  have hhas : b₃.HasLevel r.price := (hq₁.levels.levelForMutation r.price).2.1
  obtain ⟨hq₄, hso⟩ := hq₃.enqueue hinv₃ (by rw [hself]; rfl) (by rw [hself]; exact hhas)
  rw [hself] at hq₄ hso
  have hhook : hook b pool s r =
      b₃.enqueue s (some (b₃.ptrFor r.price)) r.isBuy r.shares := rfl
  refine ⟨s, rest, pool, hacq, hq₄, hso.inv, ?_, ?_, ?_, ?_, ?_⟩
  · intro j hj
    rw [hhook, ← hother j (hne j hj), ← hget₃ j (hne j hj)]
    exact hso.core j
  · have hcore := hso.core s
    rw [hself] at hcore
    exact Order.resting_of_core hcore
  · rw [hhook, ← hcap, ← hpool₂]
    exact hso.capacity
  · rw [hhook, enqueue_orderIndex]
    exact levelForMutation_orderIndex _ _
  · rw [hhook, enqueue_best]
    exact levelForMutation_best _ _

namespace Hooked

variable {r : Resting} {rest : List ℕ} {b₁ : OrderBook}
  {m : OpenAddressingHashMap OrderRef ℕ}

/-- With the reference in the index, the book has its shape again. -/
theorem shape (hk : Hooked b live r s rest b₁) (h : Shape b live free)
    (href : b.orderIndex.find r.orderRef = none) (hminv : m.Inv)
    (hmcap : m.capacity = b.orderIndex.capacity) (hmsize : m.size = b.orderIndex.size + 1)
    (hmfind : ∀ k, m.find k = if k = r.orderRef then some s else b.orderIndex.find k) :
    Shape { b₁ with orderIndex := m } (live ++ [s]) rest := by
  refine ⟨hk.queued.congr_rest rfl rfl rfl rfl rfl, hk.pool, hminv, ?_, ?_, ?_⟩
  · intro ref j
    dsimp only
    rw [hmfind, List.mem_append, List.mem_singleton]
    have href' : (b₁.orderPool.get s).orderRef = r.orderRef := by rw [← hk.self]; rfl
    constructor
    · intro hj
      split at hj
      · next e =>
        rw [← Option.some.inj hj, e]
        exact ⟨Or.inr rfl, href'⟩
      · obtain ⟨hjl, hjr⟩ := (h.find_iff ref j).mp hj
        exact ⟨Or.inl hjl, (Order.core_eq_iff.mp (hk.core j hjl)).1.trans hjr⟩
    · rintro ⟨hj | hj, hjr⟩
      · rw [(Order.core_eq_iff.mp (hk.core j hj)).1] at hjr
        have hfind := (h.find_iff ref j).mpr ⟨hj, hjr⟩
        rw [if_neg, hfind]
        rintro rfl
        rw [href] at hfind
        cases hfind
      · rw [hj, href'] at hjr
        rw [hj, if_pos hjr.symm]
  · dsimp only
    rw [hmsize, h.size_eq, List.length_append]
    rfl
  · dsimp only
    rw [hk.capacity, hmcap]
    exact h.capacity_le

/-- With the cached best price updated, the ledger has the order at its end. -/
theorem ledger (hk : Hooked b live r s rest b₁) (m : OpenAddressingHashMap OrderRef ℕ) :
    ({ b₁ with orderIndex := m }.updateBestOnAdd r.price r.isBuy).ledgerOf (live ++ [s]) =
      (b.ledgerOf live).append r := by
  have hledger : ∀ b₂ : OrderBook, ∀ p side, (b₂.updateBestOnAdd p side).ledgerOf (live ++ [s]) =
      { b₂.ledgerOf (live ++ [s]) with best := (b₂.updateBestOnAdd p side).best } := by
    intro b₂ p side
    unfold ledgerOf OrderBook.updateBestOnAdd
    split <;> split <;> rfl
  -- the new order is the last to arrive
  have horders : (b₁.ledgerOf (live ++ [s])).orders = (b.ledgerOf live).orders ++ [r] := by
    unfold ledgerOf
    dsimp only
    rw [List.map_append, List.map_congr_left fun j hj => Order.resting_of_core (hk.core j hj),
      List.map_cons, List.map_nil, hk.self]
  rw [hledger, Ledger.append]
  refine Ledger.ext hk.capacity horders ?_
  funext side
  dsimp only
  rw [updateBestOnAdd_best, Function.update_apply]
  change (if side = r.isBuy then improve _ (b₁.best r.isBuy) r.price else b₁.best side) = _
  rw [hk.best]
  rfl

end Hooked

/-- **Adding an order** to a book with room appends it to the ledger. -/
theorem addOrder (h : Shape b live free) {r : Resting} (hpos : r.shares ≠ 0)
    (href : b.orderIndex.find r.orderRef = none) (hlen : live.length < b.orderPool.capacity) :
    ∃ s rest b', b.addOrder r.orderRef r.price r.shares r.isBuy r.traderId = (true, b') ∧
      Shape b' (live ++ [s]) rest ∧ b'.ledgerOf (live ++ [s]) = (b.ledgerOf live).append r := by
  obtain ⟨s, rest, pool, hacq, hk⟩ := h.hook_spec r hlen
  -- the index is no smaller than the pool, so the insertion cannot fail
  have hsize : b.orderIndex.size < b.orderIndex.capacity := by
    have := h.size_eq
    have := h.capacity_le
    omega
  obtain ⟨m, (hm : b.orderIndex.insert r.orderRef s = (true, m)), hminv, hmcap, hmsize, hmfind⟩ :=
    h.index.insert_absent href hsize
  have hsh := hk.shape h href hminv hmcap hmsize hmfind
  rw [addOrder_eq hpos href hacq, hk.index, hm]
  exact ⟨s, rest, _, rfl, hsh.updateBestOnAdd _ _, hk.ledger m⟩

/-! ### Taking shares off an order -/

/-- The book of `reduce_shares` before it looks whether the order is used up. -/
def takeOff (b : OrderBook) (s : ℕ) (delta : Shares) : OrderBook :=
  (b.modifyOrder s fun o => { o with shares := o.shares - delta }).reduceTotal
    (b.orderPool.get s).level (b.orderPool.get s).isBuy delta

theorem takeOff_get (b : OrderBook) (s : ℕ) (delta : Shares) (j : ℕ) :
    (takeOff b s delta).orderPool.get j =
      if j = s then { b.orderPool.get s with shares := (b.orderPool.get s).shares - delta }
      else b.orderPool.get j := by
  rw [takeOff, reduceTotal_orderPool, modifyOrder, ObjectPool.get_modify]

theorem takeOff_shape (h : Shape b live free) (hs : s ∈ live) (delta : Shares) :
    Shape (takeOff b s delta) live free ∧
      (takeOff b s delta).ledgerOf live = (b.ledgerOf live).setShares
        (b.orderPool.get s).orderRef ((b.orderPool.get s).shares - delta) := by
  have hpool : (takeOff b s delta).orderPool =
      b.orderPool.modify s fun o => { o with shares := o.shares - delta } :=
    reduceTotal_orderPool _ _ _ _
  have hidx : (takeOff b s delta).orderIndex = b.orderIndex := reduceTotal_orderIndex _ _ _ _
  have href : ∀ j, ((takeOff b s delta).orderPool.get j).orderRef =
      (b.orderPool.get j).orderRef := by
    intro j
    rw [takeOff_get]
    split
    · next e => rw [e]
    · rfl
  refine ⟨⟨h.queued.reduce h.pool hs delta, ?_, ?_, ?_, ?_, ?_⟩, ?_⟩
  · rw [hpool]
    exact h.pool.modify hs _
  · rw [hidx]
    exact h.index
  · intro ref j
    rw [hidx, href, h.find_iff]
  · rw [hidx]
    exact h.size_eq
  · rw [hidx, hpool]
    exact h.capacity_le
  · refine Ledger.ext ?_ ?_ ?_
    · show (takeOff b s delta).orderPool.capacity = b.orderPool.capacity
      rw [hpool]
      rfl
    · rw [ledgerOf, Ledger.setShares, ledgerOf, List.map_map]
      refine List.map_congr_left fun j hj => ?_
      rw [takeOff_get, Function.comp_apply]
      by_cases e : j = s
      · rw [if_pos e, if_pos (by rw [e]; rfl), e]
        rfl
      · have hne : (b.orderPool.get j).resting.orderRef ≠ (b.orderPool.get s).orderRef :=
          fun e' => e (h.ref_injective hj hs e')
        rw [if_neg e, if_neg hne]
    · show (takeOff b s delta).best = b.best
      rw [takeOff, reduceTotal_best]
      rfl

end Shape

/-! ### The new book -/

/-- The levels of a new book are empty. -/
theorem new_levelAt (referencePrice : Price4) (halfWidth capacity : ℕ) (p : Price4) (side : Bool) :
    ((new referencePrice halfWidth capacity).levelAt p).queue side = {} ∧
      ((new referencePrice halfWidth capacity).levelAt p).total side = 0 := by
  unfold levelAt ptrFor
  cases (new referencePrice halfWidth capacity).flatIndexFor p with
  | some i => cases side <;> exact ⟨rfl, rfl⟩
  | none =>
    have : (new referencePrice halfWidth capacity).level (some (.outlier p)) = {} := by
      simp [level, new]
    dsimp only
    rw [this]
    cases side <;> exact ⟨rfl, rfl⟩

theorem shape_new (referencePrice : Price4) (halfWidth capacity : ℕ) :
    Shape (new referencePrice halfWidth capacity) [] (List.range capacity) := by
  refine ⟨⟨⟨fun i => rfl, fun i _ => rfl, ?_⟩, ?_, ?_, ?_⟩, ObjectPool.inv_new capacity,
    OpenAddressingHashMap.inv_new capacity, ?_, rfl,
    OpenAddressingHashMap.le_roundUpToPowerOfTwo capacity⟩
  · intro p l h
    simp [new] at h
  · simp
  · intro p side
    rw [(new_levelAt referencePrice halfWidth capacity p side).1]
    exact IntrusiveList.Represents.nil _
  · intro p side
    rw [(new_levelAt referencePrice halfWidth capacity p side).2]
    rfl
  · intro ref s
    simp [new, OpenAddressingHashMap.find_new]

end OrderBook
end Liquibook
