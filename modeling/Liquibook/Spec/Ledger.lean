import Liquibook.Book.Levels
import Mathlib.Algebra.BigOperators.Group.List.Lemmas
import Mathlib.Data.List.Nodup

/-!
# The ledger: what an order book is for

A ledger is the list of the resting orders in order of arrival, with the best price
of each side beside it.  There are no pools, indexes, levels or links: the queue of
a price and side is the part of the list that rests there, a reference is looked up
by searching the list, and the share total of a queue is the sum of its shares.

The cached best prices follow the same rule as in the book.  An arriving order can
only improve the one of its side, and only when the queue at the cached price
becomes empty is it looked for anew, among the prices whose total is not zero.
Totals are sums of `UInt32` and may wrap, so this price need not be the best price
with an order.  That it is one in every state in which no total wraps is a theorem
about the ledger, not part of its definition.

## Main definitions

* `Resting` — a resting order without its place in memory.
* `Depth` — one side of a book: the cached best price and the queues.
* `Ledger`, `Ledger.step`, `Ledger.run` — the ledger and its operations.
* `Ledger.WF` — references are unique, shares positive, and a cached best price has
  an order.

## Main results

* `change_step` — **what a call can do to a ledger.**
* `WF.append`, `WF.remove`, `WF.setShares`, `WF.step` — a call keeps it well formed.
-/

namespace Liquibook

open Lib OrderBook

/-- A resting order, without its place in memory. -/
structure Resting where
  orderRef : OrderRef
  price : Price4
  shares : Shares
  isBuy : Bool
  traderId : TraderId
  deriving DecidableEq, Repr, Inhabited

/-- The shares of a list of orders, as a natural number. -/
def sharesOf (rs : List Resting) : ℕ := (rs.map fun r => r.shares.toNat).sum

/-- One side of a book: the cached best price, the prices whose total is not zero,
best first, and the queue of every price. -/
structure Depth where
  side : Bool
  best : Option Price4
  levels : List Price4
  queue : Price4 → List Resting

/-- The side of a book on which orders rest at the prices `prices`, in queues
`queue`. -/
def Depth.of (side : Bool) (best : Option Price4) (prices : List Price4)
    (queue : Price4 → List Resting) : Depth where
  side := side
  best := best
  levels := rank (fun p q => better side p q = true)
    (prices.filter fun p => decide (((queue p).map Resting.shares).sum ≠ 0))
  queue := queue

/-- Only the members of the list of prices matter. -/
theorem Depth.of_congr {side : Bool} {best : Option Price4} {prices prices' : List Price4}
    {queue : Price4 → List Resting} (h : ∀ p, p ∈ prices ↔ p ∈ prices') :
    Depth.of side best prices queue = Depth.of side best prices' queue := by
  unfold Depth.of
  rw [rank_congr (ranking_better side) fun p => ?_]
  rw [List.mem_filter, List.mem_filter, h]

/-- The resting orders in order of arrival, and the cached best prices. -/
@[ext]
structure Ledger where
  capacity : ℕ
  orders : List Resting
  best : Bool → Option Price4

namespace Ledger

/-- The ledger without orders. -/
def new (capacity : ℕ) : Ledger := ⟨capacity, [], fun _ => none⟩

/-- The order with a reference. -/
def find (l : Ledger) (ref : OrderRef) : Option Resting :=
  l.orders.find? fun r => r.orderRef == ref

/-- The queue of a price and side. -/
def queue (l : Ledger) (p : Price4) (side : Bool) : List Resting :=
  l.orders.filter fun r => decide (r.price = p ∧ r.isBuy = side)

/-- The share total of a price and side, modulo `2 ^ 32`. -/
def total (l : Ledger) (p : Price4) (side : Bool) : Shares :=
  ((l.queue p side).map Resting.shares).sum

/-- The prices at which a side has orders. -/
def prices (l : Ledger) (side : Bool) : List Price4 :=
  (l.orders.filter fun r => r.isBuy == side).map Resting.price

/-- One side of the ledger. -/
def depth (l : Ledger) (side : Bool) : Depth :=
  Depth.of side (l.best side) (l.prices side) fun p => l.queue p side

/-- An order arrives. -/
def append (l : Ledger) (r : Resting) : Ledger :=
  { l with
    orders := l.orders ++ [r]
    best := Function.update l.best r.isBuy
      (improve (fun p q => better r.isBuy p q = true) (l.best r.isBuy) r.price) }

/-- The ledger without the order `r`, with the cached best prices as they were. -/
def drop (l : Ledger) (r : Resting) : Ledger :=
  { l with orders := l.orders.filter fun x => decide (x.orderRef ≠ r.orderRef) }

/-- An order leaves.  The best price of its side is looked for anew when the order
was the last one there. -/
def remove (l : Ledger) (r : Resting) : Ledger :=
  if (l.drop r).queue r.price r.isBuy = [] ∧ l.best r.isBuy = some r.price then
    { l.drop r with
      best := Function.update l.best r.isBuy ((l.drop r).depth r.isBuy).levels.head? }
  else l.drop r

/-- An order is left with `n` shares. -/
def setShares (l : Ledger) (ref : OrderRef) (n : Shares) : Ledger :=
  { l with orders := l.orders.map fun r => if r.orderRef = ref then { r with shares := n } else r }

def add (l : Ledger) (r : Resting) : Bool × Ledger :=
  if r.shares = 0 ∨ (l.find r.orderRef).isSome ∨ l.orders.length = l.capacity then (false, l)
  else (true, l.append r)

def reduce (l : Ledger) (ref : OrderRef) (delta : Shares) : Bool × Ledger :=
  match l.find ref with
  | none => (false, l)
  | some r =>
      if delta = 0 ∨ delta > r.shares then (false, l)
      else if delta = r.shares then (true, l.remove r)
      else (true, l.setShares ref (r.shares - delta))

def delete (l : Ledger) (ref : OrderRef) : Bool × Ledger :=
  match l.find ref with
  | none => (false, l)
  | some r => (true, l.remove r)

def replace (l : Ledger) (oldRef newRef : OrderRef) (newShares : Shares) (newPrice : Price4) :
    Bool × Ledger :=
  match l.find oldRef with
  | none => (false, l)
  | some r =>
      if newShares = 0 ∨ (oldRef ≠ newRef ∧ (l.find newRef).isSome) then (false, l)
      else
        (true, (l.remove r).append { orderRef := newRef, price := newPrice, shares := newShares,
                                     isBuy := r.isBuy, traderId := 0 })

/-- Make one call. -/
def step (l : Ledger) : Op → Bool × Ledger
  | .add ref price shares isBuy traderId =>
      l.add { orderRef := ref, price := price, shares := shares, isBuy := isBuy,
              traderId := traderId }
  | .execute ref shares => l.reduce ref shares
  | .cancel ref shares => l.reduce ref shares
  | .delete ref => l.delete ref
  | .replace oldRef newRef newShares newPrice => l.replace oldRef newRef newShares newPrice

/-- Make a sequence of calls. -/
def run (l : Ledger) (ops : List Op) : Ledger := ops.foldl (fun l op => (l.step op).2) l

/-! ### Looking up -/

variable {l : Ledger} {r : Resting} {ref : OrderRef} {p : Price4} {side : Bool}

theorem mem_of_find (h : l.find ref = some r) : r ∈ l.orders ∧ r.orderRef = ref := by
  unfold find at h
  exact ⟨List.mem_of_find?_eq_some h, by simpa using List.find?_some h⟩

theorem find_eq_none_iff : l.find ref = none ↔ ∀ r ∈ l.orders, r.orderRef ≠ ref := by
  unfold find
  simp [List.find?_eq_none]

/-- With unique references the search finds every order. -/
theorem find_of_mem (hnd : (l.orders.map Resting.orderRef).Nodup) (hr : r ∈ l.orders) :
    l.find r.orderRef = some r := by
  cases h : l.find r.orderRef with
  | none => exact absurd rfl (find_eq_none_iff.mp h r hr)
  | some r' =>
    obtain ⟨hmem, href⟩ := mem_of_find h
    rw [List.inj_on_of_nodup_map hnd hmem hr href]

theorem mem_queue : r ∈ l.queue p side ↔ r ∈ l.orders ∧ r.price = p ∧ r.isBuy = side := by
  rw [queue, List.mem_filter, decide_eq_true_eq]

theorem mem_queue_self (hr : r ∈ l.orders) : r ∈ l.queue r.price r.isBuy :=
  mem_queue.mpr ⟨hr, rfl, rfl⟩

theorem mem_prices : p ∈ l.prices side ↔ l.queue p side ≠ [] := by
  unfold prices
  rw [List.mem_map]
  constructor
  · rintro ⟨r, hr, rfl⟩
    rw [List.mem_filter, beq_iff_eq] at hr
    exact List.ne_nil_of_mem (mem_queue.mpr ⟨hr.1, rfl, hr.2⟩)
  · intro h
    obtain ⟨r, hr⟩ := List.exists_mem_of_ne_nil _ h
    obtain ⟨hmem, hp, hs⟩ := mem_queue.mp hr
    exact ⟨r, List.mem_filter.mpr ⟨hmem, by simpa using hs⟩, hp⟩

theorem total_eq_zero_of_queue_eq_nil (h : l.queue p side = []) : l.total p side = 0 := by
  rw [total, h]
  rfl

theorem mem_levels : p ∈ (l.depth side).levels ↔ l.total p side ≠ 0 := by
  unfold depth Depth.of
  rw [mem_rank, List.mem_filter, decide_eq_true_eq]
  constructor
  · exact fun h => h.2
  · intro h
    exact ⟨mem_prices.mpr fun hq => h (total_eq_zero_of_queue_eq_nil hq), h⟩

/-- The price looked for is the best one with a total. -/
theorem isBest_levels (l : Ledger) (side : Bool) :
    IsBest (fun p q => better side p q = true) (fun p => l.total p side ≠ 0)
      (l.depth side).levels.head? :=
  (isBest_head? (ranking_better side) (pairwise_rank (ranking_better side) _)).congr fun _ =>
    mem_levels

/-! ### The queues as orders come and go -/

theorem queue_append (l : Ledger) (r : Resting) (p : Price4) (side : Bool) :
    (l.append r).queue p side =
      l.queue p side ++ if r.price = p ∧ r.isBuy = side then [r] else [] := by
  rw [queue, append, List.filter_append]
  congr 1
  by_cases h : r.price = p ∧ r.isBuy = side
  · rw [if_pos h, List.filter_cons, if_pos (by simpa using h)]
    rfl
  · rw [if_neg h, List.filter_cons, if_neg (by simpa using h)]
    rfl

theorem append_best (l : Ledger) (r : Resting) (side : Bool) :
    (l.append r).best side =
      if side = r.isBuy then improve (fun p q => better r.isBuy p q = true) (l.best r.isBuy) r.price
      else l.best side :=
  Function.update_apply _ _ _ _

theorem queue_drop (l : Ledger) (r : Resting) (p : Price4) (side : Bool) :
    (l.drop r).queue p side =
      (l.queue p side).filter fun x => decide (x.orderRef ≠ r.orderRef) := by
  rw [queue, drop, List.filter_comm]
  rfl

theorem remove_orders (l : Ledger) (r : Resting) : (l.remove r).orders = (l.drop r).orders := by
  unfold remove
  split <;> rfl

@[simp] theorem remove_capacity (l : Ledger) (r : Resting) :
    (l.remove r).capacity = l.capacity := by
  unfold remove
  split <;> rfl

theorem queue_remove (l : Ledger) (r : Resting) (p : Price4) (side : Bool) :
    (l.remove r).queue p side =
      (l.queue p side).filter fun x => decide (x.orderRef ≠ r.orderRef) := by
  rw [← queue_drop, queue, remove_orders]
  rfl

theorem queue_setShares (l : Ledger) (ref : OrderRef) (n : Shares) (p : Price4) (side : Bool) :
    (l.setShares ref n).queue p side =
      (l.queue p side).map fun r => if r.orderRef = ref then { r with shares := n } else r := by
  rw [queue, setShares, List.filter_map]
  congr 1
  refine List.filter_congr fun r _ => ?_
  simp only [Function.comp_apply]
  split <;> rfl

theorem setShares_setShares (l : Ledger) (ref : OrderRef) (n m : Shares) :
    (l.setShares ref n).setShares ref m = l.setShares ref m := by
  unfold setShares
  dsimp only
  congr 1
  rw [List.map_map]
  refine List.map_congr_left fun r _ => ?_
  rw [Function.comp_apply]
  by_cases h : r.orderRef = ref
  · simp [h]
  · simp [h]

/-- The shares an order has do not matter to its removal. -/
theorem remove_setShares (l : Ledger) (r : Resting) (n m : Shares) :
    (l.setShares r.orderRef n).remove { r with shares := m } = l.remove r := by
  have hdrop : (l.setShares r.orderRef n).drop { r with shares := m } = l.drop r := by
    unfold drop setShares
    dsimp only
    congr 1
    rw [List.filter_map]
    have hself : ∀ x : Resting,
        (if x.orderRef = r.orderRef then { x with shares := n } else x).orderRef =
          x.orderRef := by
      intro x
      split <;> rfl
    simp only [Function.comp_def, hself]
    refine (List.map_congr_left fun x hx => ?_).trans (List.map_id _)
    rw [List.mem_filter, decide_eq_true_eq] at hx
    rw [if_neg hx.2]
    rfl
  unfold remove
  rw [hdrop]
  rfl

/-- The cached price after a removal: looked for anew, or left alone. -/
theorem remove_best (l : Ledger) (r : Resting) (side : Bool) :
    (l.remove r).best side =
      if side = r.isBuy ∧ (l.remove r).queue r.price r.isBuy = [] ∧ l.best r.isBuy = some r.price
      then ((l.remove r).depth side).levels.head? else l.best side := by
  have hq : (l.remove r).queue r.price r.isBuy = (l.drop r).queue r.price r.isBuy := by
    rw [queue_remove, queue_drop]
  have hlev : ((l.remove r).depth side).levels = ((l.drop r).depth side).levels := by
    unfold depth Depth.of prices queue
    rw [remove_orders]
  rw [hq, hlev]
  unfold remove
  by_cases h : (l.drop r).queue r.price r.isBuy = [] ∧ l.best r.isBuy = some r.price
  · rw [if_pos h]
    by_cases hs : side = r.isBuy
    · subst hs
      rw [if_pos ⟨rfl, h⟩]
      exact Function.update_self _ _ _
    · rw [if_neg fun e => hs e.1]
      exact Function.update_of_ne hs _ _
  · rw [if_neg h, if_neg fun e => h e.2]
    rfl

/-! ### Well-formed ledgers -/

/-- References are unique, shares are positive, the ledger fits, and a cached best
price has an order. -/
structure WF (l : Ledger) : Prop where
  nodup : (l.orders.map Resting.orderRef).Nodup
  positive : ∀ r ∈ l.orders, r.shares ≠ 0
  length_le : l.orders.length ≤ l.capacity
  best_live : ∀ side p, l.best side = some p → l.queue p side ≠ []

theorem wf_new (capacity : ℕ) : WF (new capacity) where
  nodup := List.nodup_nil
  positive := by simp [new]
  length_le := Nat.zero_le _
  best_live := by intro side p h; cases h

namespace WF

theorem orders_nodup (h : WF l) : l.orders.Nodup := h.nodup.of_map

/-- Two orders with one reference are one order. -/
theorem eq_of_ref (h : WF l) {x y : Resting} (hx : x ∈ l.orders) (hy : y ∈ l.orders)
    (href : x.orderRef = y.orderRef) : x = y := List.inj_on_of_nodup_map h.nodup hx hy href

theorem find_iff (h : WF l) : l.find ref = some r ↔ r ∈ l.orders ∧ r.orderRef = ref := by
  refine ⟨mem_of_find, ?_⟩
  rintro ⟨hr, rfl⟩
  exact find_of_mem h.nodup hr

theorem append (h : WF l) (hpos : r.shares ≠ 0) (href : l.find r.orderRef = none)
    (hlen : l.orders.length < l.capacity) : WF (l.append r) where
  nodup := by
    rw [Ledger.append, List.map_append, List.map_cons, List.map_nil, List.nodup_append]
    refine ⟨h.nodup, List.nodup_singleton _, ?_⟩
    intro x hx y hy
    obtain ⟨r', hr', rfl⟩ := List.mem_map.mp hx
    rw [List.mem_singleton.mp hy]
    exact find_eq_none_iff.mp href r' hr'
  positive := by
    intro x hx
    rcases List.mem_append.mp hx with hx | hx
    · exact h.positive x hx
    · rw [List.mem_singleton.mp hx]
      exact hpos
  length_le := by
    rw [Ledger.append, List.length_append]
    exact hlen
  best_live := by
    intro side p hp
    rw [queue_append]
    -- the cached price is the old one, with its queue, or that of the new order
    by_cases hs : side = r.isBuy
    · subst hs
      rw [append_best, if_pos rfl] at hp
      have hcase : l.best r.isBuy = some p ∨ r.price = p := by
        unfold improve at hp
        cases hb : l.best r.isBuy with
        | none => rw [hb] at hp; exact Or.inr (Option.some.inj hp)
        | some q =>
          rw [hb] at hp
          dsimp only at hp
          split at hp
          · exact Or.inr (Option.some.inj hp)
          · exact Or.inl hp
      rcases hcase with hb | rfl
      · exact fun e => h.best_live _ p hb (List.append_eq_nil_iff.mp e).1
      · rw [if_pos ⟨rfl, rfl⟩]
        exact List.append_ne_nil_of_right_ne_nil _ (List.cons_ne_nil _ _)
    · rw [append_best, if_neg hs] at hp
      exact fun e => h.best_live side p hp (List.append_eq_nil_iff.mp e).1

theorem drop_sublist (l : Ledger) (r : Resting) : (l.drop r).orders.Sublist l.orders :=
  List.filter_sublist

theorem remove (h : WF l) (hr : r ∈ l.orders) : WF (l.remove r) where
  nodup := by
    rw [remove_orders]
    exact h.nodup.sublist ((drop_sublist l r).map _)
  positive := by
    rw [remove_orders]
    exact fun x hx => h.positive x ((drop_sublist l r).subset hx)
  length_le := by
    rw [remove_orders, remove_capacity]
    exact ((drop_sublist l r).length_le).trans h.length_le
  best_live := by
    intro side p hp
    rw [remove_best] at hp
    split at hp
    · have hb := isBest_levels (l.remove r) side
      rw [hp] at hb
      exact fun hq => hb.1 (total_eq_zero_of_queue_eq_nil hq)
    · next hcond =>
      intro hq
      refine h.best_live side p hp ?_
      rw [queue_remove] at hq
      by_contra hne
      -- the queue at the cached price has lost its only order, so it was looked for anew
      obtain ⟨x, hx⟩ := List.exists_mem_of_ne_nil _ hne
      have hxr : x.orderRef = r.orderRef := by
        by_contra hxr
        exact List.filter_eq_nil_iff.mp hq x hx (by simpa using hxr)
      obtain ⟨hxl, rfl, rfl⟩ := mem_queue.mp hx
      have hxr : x = r := h.eq_of_ref hxl hr hxr
      subst hxr
      exact hcond ⟨rfl, by rw [queue_remove]; exact hq, hp⟩

theorem setShares (h : WF l) {n : Shares} (hn : n ≠ 0) : WF (l.setShares ref n) where
  nodup := by
    have : (l.setShares ref n).orders.map Resting.orderRef = l.orders.map Resting.orderRef := by
      rw [Ledger.setShares, List.map_map]
      refine List.map_congr_left fun r _ => ?_
      simp only [Function.comp_apply]
      split <;> rfl
    rw [this]
    exact h.nodup
  positive := by
    intro x hx
    obtain ⟨r, hr, rfl⟩ := List.mem_map.mp hx
    split
    · exact hn
    · exact h.positive r hr
  length_le := by
    rw [Ledger.setShares, List.length_map]
    exact h.length_le
  best_live := by
    intro side p hp
    rw [queue_setShares]
    exact fun e => h.best_live side p hp (List.map_eq_nil_iff.mp e)

/-- A removed reference is free again. -/
theorem find_remove (h : WF l) (hr : r ∈ l.orders) : (l.remove r).find ref =
    if ref = r.orderRef then none else l.find ref := by
  have h' := h.remove hr
  have hmem : ∀ x, x ∈ (l.remove r).orders ↔ x ∈ l.orders ∧ x.orderRef ≠ r.orderRef := by
    intro x
    rw [remove_orders, drop, List.mem_filter, decide_eq_true_eq]
  split
  · next e =>
    rw [find_eq_none_iff]
    intro x hx
    rw [e]
    exact ((hmem x).mp hx).2
  · next hne =>
    refine Option.ext fun x => ?_
    rw [h'.find_iff, h.find_iff, hmem]
    constructor
    · exact fun hx => ⟨hx.1.1, hx.2⟩
    · exact fun hx => ⟨⟨hx.1, hx.2 ▸ hne⟩, hx.2⟩

/-- What is left of the ledger when an order loses some of its shares. -/
theorem reduce_eq (h : WF l) (hr : r ∈ l.orders) {n : Shares} (hn : n ≠ 0) (hle : n ≤ r.shares) :
    l.reduce r.orderRef n = (true,
      if n = r.shares then l.remove r else l.setShares r.orderRef (r.shares - n)) := by
  have hok : ¬ (n = 0 ∨ n > r.shares) := by
    rintro (e | e)
    · exact hn e
    · exact UInt32.not_lt.mpr hle e
  unfold reduce
  rw [find_of_mem h.nodup hr]
  dsimp only
  rw [if_neg hok]
  split <;> rfl

/-- A removal leaves room for one order. -/
theorem length_remove (h : WF l) (hr : r ∈ l.orders) :
    (l.remove r).orders.length + 1 = l.orders.length := by
  have hfilter : (l.drop r).orders = l.orders.erase r := by
    rw [h.orders_nodup.erase_eq_filter]
    refine List.filter_congr fun x hx => ?_
    by_cases e : x = r
    · simp [e]
    · have : x.orderRef ≠ r.orderRef := fun e' => e (h.eq_of_ref hx hr e')
      simp [e, this]
  rw [remove_orders, hfilter, List.length_erase_of_mem hr]
  have := List.length_pos_of_mem hr
  omega

end WF

/-! ### What a call can do -/

/-- The changes a call can make to a ledger. -/
inductive Change (l : Ledger) : Ledger → Prop where
  | stay : Change l l
  | append (r : Resting) (hpos : r.shares ≠ 0) (href : l.find r.orderRef = none)
      (hlen : l.orders.length < l.capacity) : Change l (l.append r)
  | setShares (r : Resting) (n : Shares) (hr : r ∈ l.orders) (hn : n ≠ 0) (hlt : n < r.shares) :
      Change l (l.setShares r.orderRef n)
  | remove (r : Resting) (hr : r ∈ l.orders) : Change l (l.remove r)
  | replace (r r' : Resting) (hr : r ∈ l.orders) (hside : r'.isBuy = r.isBuy)
      (htrader : r'.traderId = 0) (hpos : r'.shares ≠ 0)
      (href : (l.remove r).find r'.orderRef = none) : Change l ((l.remove r).append r')

theorem change_add (h : WF l) (r : Resting) : Change l (l.add r).2 := by
  unfold add
  split
  · exact .stay
  · next hc =>
    rw [not_or, not_or, Option.not_isSome_iff_eq_none] at hc
    exact .append r hc.1 hc.2.1 (lt_of_le_of_ne h.length_le hc.2.2)

theorem change_reduce (l : Ledger) (ref : OrderRef) (delta : Shares) :
    Change l (l.reduce ref delta).2 := by
  unfold reduce
  cases hf : l.find ref with
  | none => exact .stay
  | some r =>
    obtain ⟨hr, rfl⟩ := mem_of_find hf
    dsimp only
    split
    · exact .stay
    · next hc =>
      split
      · exact .remove r hr
      · next hne =>
        rw [not_or, gt_iff_lt, UInt32.not_lt, UInt32.le_iff_toNat_le] at hc
        rw [← UInt32.toNat_inj] at hne
        have hsub := UInt32.toNat_sub_of_le r.shares delta (UInt32.le_iff_toNat_le.mpr hc.2)
        have hdelta : delta.toNat ≠ 0 := fun e => hc.1 (UInt32.toNat_inj.mp e)
        refine .setShares r _ hr ?_ ?_
        · rw [ne_eq, ← UInt32.toNat_inj, hsub]
          exact fun e => hne (by rw [UInt32.toNat_zero] at e; omega)
        · rw [UInt32.lt_iff_toNat_lt, hsub]
          omega

theorem change_delete (l : Ledger) (ref : OrderRef) : Change l (l.delete ref).2 := by
  unfold delete
  cases hf : l.find ref with
  | none => exact .stay
  | some r => exact .remove r (mem_of_find hf).1

/-- The reference of a replacement is free once the old order is out. -/
theorem WF.find_remove_new (h : WF l) (hr : r ∈ l.orders) {newRef : OrderRef}
    (hnew : ¬ (r.orderRef ≠ newRef ∧ (l.find newRef).isSome = true)) :
    (l.remove r).find newRef = none := by
  rw [h.find_remove hr]
  split
  · rfl
  · next hne => exact Option.not_isSome_iff_eq_none.mp fun e => hnew ⟨Ne.symm hne, e⟩

theorem change_replace (h : WF l) (oldRef newRef : OrderRef) (newShares : Shares)
    (newPrice : Price4) : Change l (l.replace oldRef newRef newShares newPrice).2 := by
  unfold replace
  cases hf : l.find oldRef with
  | none => exact .stay
  | some r =>
    obtain ⟨hr, rfl⟩ := mem_of_find hf
    dsimp only
    split
    · exact .stay
    · next hc =>
      rw [not_or] at hc
      exact .replace r _ hr rfl rfl hc.1 (h.find_remove_new hr hc.2)

/-- **What a call can do to a ledger.** -/
theorem change_step (h : WF l) (op : Op) : Change l (l.step op).2 := by
  cases op with
  | add ref price shares isBuy traderId => exact change_add h _
  | execute ref shares => exact change_reduce l ref shares
  | cancel ref shares => exact change_reduce l ref shares
  | delete ref => exact change_delete l ref
  | replace oldRef newRef newShares newPrice => exact change_replace h _ _ _ _

theorem WF.change (h : WF l) {l' : Ledger} (hc : Change l l') : WF l' := by
  cases hc with
  | stay => exact h
  | append r hpos href hlen => exact h.append hpos href hlen
  | setShares r n hr hn hlt => exact h.setShares hn
  | remove r hr => exact h.remove hr
  | replace r r' hr hside htrader hpos href =>
    refine (h.remove hr).append hpos href ?_
    have h1 := h.length_remove hr
    have h2 := h.length_le
    rw [remove_capacity]
    omega

theorem Change.capacity {l' : Ledger} (hc : Change l l') : l'.capacity = l.capacity := by
  cases hc with
  | stay => rfl
  | append r => rfl
  | setShares r n => rfl
  | remove r => exact remove_capacity l r
  | replace r r' => exact remove_capacity l r

/-- The references in order of arrival. -/
def refs (l : Ledger) : List OrderRef := l.orders.map Resting.orderRef

theorem refs_setShares (l : Ledger) (ref : OrderRef) (n : Shares) :
    (l.setShares ref n).refs = l.refs := by
  rw [refs, Ledger.setShares, List.map_map]
  refine List.map_congr_left fun r _ => ?_
  rw [Function.comp_apply]
  split <;> rfl

theorem refs_remove_sublist (l : Ledger) (r : Resting) : (l.remove r).refs.Sublist l.refs := by
  rw [refs, remove_orders]
  exact (WF.drop_sublist l r).map _

theorem refs_reduce_sublist (l : Ledger) (ref : OrderRef) (delta : Shares) :
    (l.reduce ref delta).2.refs.Sublist l.refs := by
  unfold reduce
  cases l.find ref with
  | none => exact List.Sublist.refl _
  | some r =>
    dsimp only
    split
    · exact List.Sublist.refl _
    · split
      · exact refs_remove_sublist l r
      · rw [refs_setShares]

/-- A call that creates no order leaves some of the references, in their order; one
that does puts the new reference behind them. -/
theorem refs_step (h : WF l) (op : Op) :
    (((l.step op).1 = false ∨ op.creates = none) ∧ (l.step op).2.refs.Sublist l.refs) ∨
      ∃ ref old, (l.step op).1 = true ∧ op.creates = some ref ∧ old.Sublist l.refs ∧
        ref ∉ old ∧ (l.step op).2.refs = old ++ [ref] := by
  have happend : ∀ (l' : Ledger) (r : Resting), l'.find r.orderRef = none →
      r.orderRef ∉ l'.refs ∧ (l'.append r).refs = l'.refs ++ [r.orderRef] := by
    intro l' r hf
    refine ⟨fun hr => ?_, by rw [refs, Ledger.append, List.map_append]; rfl⟩
    obtain ⟨x, hx, hxr⟩ := List.mem_map.mp hr
    exact find_eq_none_iff.mp hf x hx hxr
  cases op with
  | add ref price shares isBuy traderId =>
    unfold step add
    dsimp only
    split
    · exact Or.inl ⟨Or.inl rfl, List.Sublist.refl _⟩
    · next hc =>
      rw [not_or, not_or, Option.not_isSome_iff_eq_none] at hc
      obtain ⟨hnot, heq⟩ := happend l ⟨ref, price, shares, isBuy, traderId⟩ hc.2.1
      exact Or.inr ⟨ref, l.refs, rfl, rfl, List.Sublist.refl _, hnot, heq⟩
  | execute ref shares => exact Or.inl ⟨Or.inr rfl, refs_reduce_sublist l ref shares⟩
  | cancel ref shares => exact Or.inl ⟨Or.inr rfl, refs_reduce_sublist l ref shares⟩
  | delete ref =>
    refine Or.inl ⟨Or.inr rfl, ?_⟩
    unfold step delete
    dsimp only
    cases l.find ref with
    | none => exact List.Sublist.refl _
    | some r => exact refs_remove_sublist l r
  | replace oldRef newRef newShares newPrice =>
    unfold step replace
    dsimp only
    cases hf : l.find oldRef with
    | none => exact Or.inl ⟨Or.inl rfl, List.Sublist.refl _⟩
    | some r =>
      dsimp only
      obtain ⟨hr, rfl⟩ := mem_of_find hf
      split
      · exact Or.inl ⟨Or.inl rfl, List.Sublist.refl _⟩
      · next hc =>
        obtain ⟨hnot, heq⟩ := happend (l.remove r) ⟨newRef, newPrice, newShares, r.isBuy, 0⟩
          (h.find_remove_new hr (not_or.mp hc).2)
        exact Or.inr ⟨newRef, (l.remove r).refs, rfl, rfl, refs_remove_sublist l r, hnot, heq⟩

/-- **A call keeps the ledger well formed.** -/
theorem WF.step (h : WF l) (op : Op) : WF (l.step op).2 := h.change (change_step h op)

theorem capacity_run (capacity : ℕ) (ops : List Op) :
    ((new capacity).run ops).capacity = capacity := by
  have hrun : ∀ (ops : List Op) (l : Ledger), WF l → (l.run ops).capacity = l.capacity := by
    intro ops
    induction ops with
    | nil => exact fun l _ => rfl
    | cons op ops ih =>
      exact fun l h => (ih _ (h.step op)).trans (change_step h op).capacity
  exact hrun ops _ (wf_new capacity)

end Ledger
end Liquibook
