import Liquibook.Book.View

/-!
# The reference book of the differential test

`book/tests/reference_order_book.hpp`: a plain hash map from references to orders,
with queries that scan it.  The map is the list of its entries in the order of
insertion.  The order in which a `std::unordered_map` is iterated is unspecified, so
what is said of the queries is said of every permutation of that list.

## Main definitions

* `RefOrder`, `ReferenceOrderBook` — the data of the source.
* `ReferenceOrderBook.step`, `ReferenceOrderBook.run` — its operations.
* `Mirrors r l` — the reference book holds the orders of the ledger.

## Main results

* `Mirrors.step` — as long as the ledger has room, the two do the same.
* `run_matches_reference` — **the book and the reference book agree on every run.**
-/

namespace Liquibook

open Lib OrderBook

/-- `struct RefOrder` -/
structure RefOrder where
  price : Price4
  shares : Shares
  isBuy : Bool
  deriving DecidableEq, Repr, Inhabited

/-- `class ReferenceOrderBook` -/
structure ReferenceOrderBook where
  orders : List (OrderRef × RefOrder) := []
  deriving Repr

namespace ReferenceOrderBook

/-- `orders_.find(ref)` -/
def find (r : ReferenceOrderBook) (ref : OrderRef) : Option RefOrder :=
  (r.orders.find? fun e => e.1 == ref).map Prod.snd

/-- `orders_.erase(ref)` -/
def erase (r : ReferenceOrderBook) (ref : OrderRef) : ReferenceOrderBook :=
  ⟨r.orders.filter fun e => decide (e.1 ≠ ref)⟩

/-- `orders_[ref] = order` -/
def assign (r : ReferenceOrderBook) (ref : OrderRef) (order : RefOrder) : ReferenceOrderBook :=
  if (r.find ref).isSome then
    ⟨r.orders.map fun e => if e.1 = ref then (ref, order) else e⟩
  else ⟨r.orders ++ [(ref, order)]⟩

/-- `add_order` -/
def addOrder (r : ReferenceOrderBook) (ref : OrderRef) (price : Price4) (shares : Shares)
    (isBuy : Bool) : Bool × ReferenceOrderBook :=
  if shares = 0 ∨ (r.find ref).isSome then (false, r)
  else (true, r.assign ref { price := price, shares := shares, isBuy := isBuy })

/-- `reduce_shares` -/
def reduceShares (r : ReferenceOrderBook) (ref : OrderRef) (delta : Shares) :
    Bool × ReferenceOrderBook :=
  match r.find ref with
  | none => (false, r)
  | some o =>
      if delta = 0 ∨ delta > o.shares then (false, r)
      else
        let o := { o with shares := o.shares - delta }
        if o.shares = 0 then (true, r.erase ref) else (true, r.assign ref o)

/-- `delete_order` -/
def deleteOrder (r : ReferenceOrderBook) (ref : OrderRef) : Bool × ReferenceOrderBook :=
  if (r.find ref).isSome then (true, r.erase ref) else (false, r)

/-- `replace_order` -/
def replaceOrder (r : ReferenceOrderBook) (oldRef newRef : OrderRef) (newShares : Shares)
    (newPrice : Price4) : Bool × ReferenceOrderBook :=
  match r.find oldRef with
  | none => (false, r)
  | some o =>
      if newShares = 0 then (false, r)
      else if oldRef ≠ newRef ∧ (r.find newRef).isSome then (false, r)
      else
        (true, (r.erase oldRef).assign newRef { price := newPrice, shares := newShares,
                                                isBuy := o.isBuy })

/-- `best_price` -/
def bestPrice (r : ReferenceOrderBook) (isBuy : Bool) : Option Price4 :=
  r.orders.foldl (fun best e =>
    if e.2.isBuy ≠ isBuy then best
    else if best.all (better isBuy e.2.price) then some e.2.price
    else best) none

/-- `best_bid` -/
def bestBid (r : ReferenceOrderBook) : Option Price4 := r.bestPrice true

/-- `best_ask` -/
def bestAsk (r : ReferenceOrderBook) : Option Price4 := r.bestPrice false

/-- `shares_at` -/
def sharesAt (r : ReferenceOrderBook) (price : Price4) (isBuy : Bool) : Shares :=
  r.orders.foldl (fun total e =>
    if e.2.price = price ∧ e.2.isBuy = isBuy then total + e.2.shares else total) 0

/-- `order_count` -/
def orderCount (r : ReferenceOrderBook) : ℕ := r.orders.length

/-- Make one call.  The reference book knows no traders. -/
def step (r : ReferenceOrderBook) : Op → Bool × ReferenceOrderBook
  | .add ref price shares isBuy _ => r.addOrder ref price shares isBuy
  | .execute ref shares => r.reduceShares ref shares
  | .cancel ref shares => r.reduceShares ref shares
  | .delete ref => r.deleteOrder ref
  | .replace oldRef newRef newShares newPrice => r.replaceOrder oldRef newRef newShares newPrice

/-- Make a sequence of calls. -/
def run (r : ReferenceOrderBook) (ops : List Op) : ReferenceOrderBook :=
  ops.foldl (fun r op => (r.step op).2) r

end ReferenceOrderBook

/-- The entry of the reference book for a resting order. -/
def Resting.entry (x : Resting) : OrderRef × RefOrder :=
  (x.orderRef, { price := x.price, shares := x.shares, isBuy := x.isBuy })

/-- The reference book holds the orders of the ledger, in order of arrival. -/
def Mirrors (r : ReferenceOrderBook) (l : Ledger) : Prop := r.orders = l.orders.map Resting.entry

namespace Mirrors

variable {r : ReferenceOrderBook} {l : Ledger}

theorem find_eq (h : Mirrors r l) (ref : OrderRef) :
    r.find ref = (l.find ref).map fun x => x.entry.2 := by
  unfold ReferenceOrderBook.find Ledger.find
  rw [h, List.find?_map, Option.map_map]
  rfl

theorem isSome_find (h : Mirrors r l) (ref : OrderRef) :
    (r.find ref).isSome = (l.find ref).isSome := by
  rw [h.find_eq, Option.isSome_map]

theorem erase (h : Mirrors r l) {x : Resting} : Mirrors (r.erase x.orderRef) (l.remove x) := by
  unfold Mirrors ReferenceOrderBook.erase
  rw [Ledger.remove_orders, h, List.filter_map]
  rfl

theorem append (h : Mirrors r l) {x : Resting} (hx : l.find x.orderRef = none) :
    Mirrors (r.assign x.orderRef x.entry.2) (l.append x) := by
  unfold Mirrors ReferenceOrderBook.assign
  rw [h.isSome_find, hx, if_neg (by simp), h, Ledger.append, List.map_append]
  rfl

/-- A reduced order keeps its place in the map. -/
theorem setShares (h : Mirrors r l) (hw : l.WF) {x : Resting} (hx : x ∈ l.orders) (n : Shares) :
    Mirrors (r.assign x.orderRef { x.entry.2 with shares := n }) (l.setShares x.orderRef n) := by
  unfold Mirrors ReferenceOrderBook.assign
  rw [h.isSome_find, Ledger.find_of_mem hw.nodup hx, if_pos Option.isSome_some, h, Ledger.setShares,
    List.map_map, List.map_map]
  refine List.map_congr_left fun y hy => ?_
  rw [Function.comp_apply, Function.comp_apply]
  by_cases hyx : y.orderRef = x.orderRef
  · rw [if_pos hyx, hw.eq_of_ref hy hx hyx, if_pos (by rfl)]
    rfl
  · rw [if_neg hyx, if_neg (by exact hyx)]

/-- A call on the reference book that ends in `x` is a call on the ledger that ends
in `y`. -/
def Same (x : Bool × ReferenceOrderBook) (y : Bool × Ledger) : Prop := x.1 = y.1 ∧ Mirrors x.2 y.2

theorem addOrder (h : Mirrors r l) (x : Resting) (hroom : l.orders.length ≠ l.capacity) :
    Same (r.addOrder x.orderRef x.price x.shares x.isBuy) (l.add x) := by
  unfold ReferenceOrderBook.addOrder Ledger.add
  rw [h.isSome_find]
  by_cases hbad : x.shares = 0 ∨ (l.find x.orderRef).isSome = true
  · rw [if_pos hbad, if_pos (hbad.imp_right Or.inl)]
    exact ⟨rfl, h⟩
  · have hok : ¬ (x.shares = 0 ∨ (l.find x.orderRef).isSome = true ∨
        l.orders.length = l.capacity) := by
      rintro (h0 | h0 | h0)
      · exact hbad (Or.inl h0)
      · exact hbad (Or.inr h0)
      · exact hroom h0
    rw [if_neg hbad, if_neg hok]
    exact ⟨rfl, h.append (Option.not_isSome_iff_eq_none.mp (not_or.mp hbad).2)⟩

theorem reduceShares (h : Mirrors r l) (hw : l.WF) (ref : OrderRef) (delta : Shares) :
    Same (r.reduceShares ref delta) (l.reduce ref delta) := by
  unfold ReferenceOrderBook.reduceShares Ledger.reduce
  rw [h.find_eq]
  cases hf : l.find ref with
  | none => exact ⟨rfl, h⟩
  | some x =>
    obtain ⟨hx, rfl⟩ := Ledger.mem_of_find hf
    have hshares : x.entry.2.shares = x.shares := rfl
    dsimp only [Option.map_some]
    rw [hshares]
    by_cases hbad : delta = 0 ∨ delta > x.shares
    · rw [if_pos hbad, if_pos hbad]
      exact ⟨rfl, h⟩
    rw [if_neg hbad, if_neg hbad]
    by_cases hall : delta = x.shares
    · rw [if_pos (by rw [hall, sub_self]), if_pos hall]
      exact ⟨rfl, h.erase⟩
    · rw [if_neg (fun e => hall (sub_eq_zero.mp e).symm), if_neg hall]
      exact ⟨rfl, h.setShares hw hx _⟩

theorem deleteOrder (h : Mirrors r l) (ref : OrderRef) :
    Same (r.deleteOrder ref) (l.delete ref) := by
  unfold ReferenceOrderBook.deleteOrder Ledger.delete
  rw [h.isSome_find]
  cases hf : l.find ref with
  | none => exact ⟨rfl, h⟩
  | some x =>
    obtain ⟨-, rfl⟩ := Ledger.mem_of_find hf
    exact ⟨rfl, h.erase⟩

theorem replaceOrder (h : Mirrors r l) (hw : l.WF) (oldRef newRef : OrderRef) (newShares : Shares)
    (newPrice : Price4) :
    Same (r.replaceOrder oldRef newRef newShares newPrice)
      (l.replace oldRef newRef newShares newPrice) := by
  unfold ReferenceOrderBook.replaceOrder Ledger.replace
  rw [h.find_eq, h.isSome_find]
  cases hf : l.find oldRef with
  | none => exact ⟨rfl, h⟩
  | some x =>
    obtain ⟨hx, rfl⟩ := Ledger.mem_of_find hf
    dsimp only [Option.map_some]
    by_cases hzero : newShares = 0
    · rw [if_pos hzero, if_pos (Or.inl hzero)]
      exact ⟨rfl, h⟩
    by_cases hdup : x.orderRef ≠ newRef ∧ (l.find newRef).isSome = true
    · rw [if_neg hzero, if_pos hdup, if_pos (Or.inr hdup)]
      exact ⟨rfl, h⟩
    rw [if_neg hzero, if_neg hdup, if_neg (not_or.mpr ⟨hzero, hdup⟩)]
    exact ⟨rfl, h.erase.append (x := ⟨newRef, newPrice, newShares, x.isBuy, 0⟩)
      (hw.find_remove_new hx hdup)⟩

/-- As long as the ledger has room for what is added, **the reference book and the
ledger do the same.** -/
theorem step (h : Mirrors r l) (hw : l.WF) (op : Op)
    (hroom : ∀ ref price shares isBuy traderId, op = .add ref price shares isBuy traderId →
      l.orders.length ≠ l.capacity) : Same (r.step op) (l.step op) := by
  cases op with
  | add ref price shares isBuy traderId =>
    exact h.addOrder ⟨ref, price, shares, isBuy, traderId⟩ (hroom _ _ _ _ _ rfl)
  | execute ref shares => exact h.reduceShares hw ref shares
  | cancel ref shares => exact h.reduceShares hw ref shares
  | delete ref => exact h.deleteOrder ref
  | replace oldRef newRef newShares newPrice => exact h.replaceOrder hw _ _ _ _

/-! ### The queries, in any order of iteration -/

/-- The scan for the best price finds the best price with an order. -/
theorem isBest_bestPrice (h : Mirrors r l) {it : List (OrderRef × RefOrder)}
    (hit : it.Perm r.orders) (side : Bool) :
    IsBest (fun p q => better side p q = true) (fun p => l.queue p side ≠ [])
      ((⟨it⟩ : ReferenceOrderBook).bestPrice side) := by
  have hfold : (⟨it⟩ : ReferenceOrderBook).bestPrice side =
      ((it.filter fun e => e.2.isBuy == side).map fun e => e.2.price).foldl
        (improve fun p q => better side p q = true) none := by
    unfold ReferenceOrderBook.bestPrice
    rw [List.foldl_map, List.foldl_filter]
    congr 1
    funext best e
    by_cases hs : e.2.isBuy = side
    · cases best <;> simp [hs, improve]
    · simp [hs]
  rw [hfold]
  refine (isBest_foldl_improve (ranking_better side) _ (fun _ => False) none
    (fun _ hf => hf)).congr fun p => ?_
  rw [false_or, ← Ledger.mem_prices]
  -- the order of iteration does not matter for which prices there are
  have hperm : ((it.filter fun e => e.2.isBuy == side).map fun e => e.2.price).Perm
      (l.prices side) := by
    refine ((hit.filter _).map _).trans (List.Perm.of_eq ?_)
    rw [h, List.filter_map, List.map_map]
    rfl
  exact hperm.mem_iff

theorem sharesAt_eq (h : Mirrors r l) {it : List (OrderRef × RefOrder)} (hit : it.Perm r.orders)
    (p : Price4) (side : Bool) : (⟨it⟩ : ReferenceOrderBook).sharesAt p side = l.total p side := by
  have hfold : ∀ (es : List (OrderRef × RefOrder)) (t : Shares),
      es.foldl (fun total e => if e.2.price = p ∧ e.2.isBuy = side then total + e.2.shares
        else total) t =
      t + ((es.filter fun e => decide (e.2.price = p ∧ e.2.isBuy = side)).map
        fun e => e.2.shares).sum := by
    intro es
    induction es with
    | nil => intro t; simp
    | cons e es ih =>
      intro t
      rw [List.foldl_cons, ih, List.filter_cons]
      by_cases he : e.2.price = p ∧ e.2.isBuy = side
      · rw [if_pos he, if_pos (by simpa using he), List.map_cons, List.sum_cons, add_assoc]
      · rw [if_neg he, if_neg (by simpa using he)]
  unfold ReferenceOrderBook.sharesAt
  rw [hfold, zero_add, ((hit.filter _).map _).sum_eq, h, List.filter_map, List.map_map]
  rfl

end Mirrors

/-! ### Whole runs -/

theorem foldl_take_succ {α β : Type} (f : β → α → β) (a : β) {xs : List α} {k : ℕ} {x : α}
    (h : xs[k]? = some x) : (xs.take (k + 1)).foldl f a = f ((xs.take k).foldl f a) x := by
  rw [List.take_add_one, h, List.foldl_append]
  rfl

section Run

variable (referencePrice : Price4) (halfWidth capacity : ℕ) (ops : List Op)

/-- **The book and the reference book agree on every run**: as long as no order is
added to a full book and no total wraps, every call has the same result on both and
the queries answer the same after it, in whatever order the map of the reference
book is iterated. -/
theorem run_matches_reference
    (hroom : ∀ k ref price shares isBuy traderId,
      ops[k]? = some (.add ref price shares isBuy traderId) →
      ((OrderBook.new referencePrice halfWidth capacity).run (ops.take k)).liveOrders.length ≠
        capacity)
    (hbounded : ∀ k ≤ ops.length,
      LevelSumsBounded ((OrderBook.new referencePrice halfWidth capacity).run (ops.take k))) :
    (∀ k op, ops[k]? = some op →
      (((OrderBook.new referencePrice halfWidth capacity).run (ops.take k)).step op).1 =
        ((({} : ReferenceOrderBook).run (ops.take k)).step op).1) ∧
    ∀ k ≤ ops.length,
      let b := (OrderBook.new referencePrice halfWidth capacity).run (ops.take k)
      let r := ({} : ReferenceOrderBook).run (ops.take k)
      b.orderCount = r.orderCount ∧
        ∀ it : List (OrderRef × RefOrder), it.Perm r.orders →
          b.bestBid = (⟨it⟩ : ReferenceOrderBook).bestBid ∧
          b.bestAsk = (⟨it⟩ : ReferenceOrderBook).bestAsk ∧
          ∀ p side, b.sharesAt p side = (⟨it⟩ : ReferenceOrderBook).sharesAt p side := by
  set b := fun k => (OrderBook.new referencePrice halfWidth capacity).run (ops.take k) with hb
  set r := fun k => ({} : ReferenceOrderBook).run (ops.take k) with hr
  set l := fun k => (Ledger.new capacity).run (ops.take k) with hl
  have href : ∀ k, Refines (b k) (l k) := fun k =>
    refines_run referencePrice halfWidth capacity (ops.take k)
  have hwf : ∀ k, (l k).WF := fun k => (href k).wf
  have hbound : ∀ k ≤ ops.length, (l k).Bounded := fun k hk =>
    (href k).bounded_iff.mp (hbounded k hk)
  have hlstep : ∀ k op, ops[k]? = some op → l (k + 1) = ((l k).step op).2 := fun k op h =>
    foldl_take_succ _ _ h
  have hrstep : ∀ k op, ops[k]? = some op → r (k + 1) = ((r k).step op).2 := fun k op h =>
    foldl_take_succ _ _ h
  have hfull : ∀ k ref price shares isBuy traderId,
      ops[k]? = some (.add ref price shares isBuy traderId) →
      (l k).orders.length ≠ (l k).capacity := by
    intro k ref price shares isBuy traderId hop
    rw [← (href k).length_liveOrders, Ledger.capacity_run]
    exact hroom k ref price shares isBuy traderId hop
  -- the induction along the run: the reference book holds the orders of the ledger, and
  -- the cached best prices are exact
  have hinv : ∀ k ≤ ops.length, Mirrors (r k) (l k) ∧ (l k).Exact := by
    intro k
    induction k with
    | zero => exact fun _ => ⟨rfl, Ledger.exact_new capacity⟩
    | succ k ih =>
      intro hk
      obtain ⟨hm, he⟩ := ih (by omega)
      have hop := List.getElem?_eq_getElem (show k < ops.length by omega)
      rw [hlstep k _ hop, hrstep k _ hop]
      exact ⟨(hm.step (hwf k) _ fun _ _ _ _ _ e => hfull k _ _ _ _ _ (e ▸ hop)).2,
        he.change (hwf k) (hbound k (by omega)) (Ledger.change_step (hwf k) _)⟩
  refine ⟨?_, ?_⟩
  · intro k op hop
    have hk : k < ops.length := (List.getElem?_eq_some_iff.mp hop).1
    have hsame := (hinv k hk.le).1.step (hwf k) op fun _ _ _ _ _ e =>
      hfull k _ _ _ _ _ (e ▸ hop)
    exact ((href k).step op).result.trans hsame.1.symm
  · intro k hk
    obtain ⟨hm, he⟩ := hinv k hk
    -- both prices are best among the prices with orders, so they are the same
    have hbest : ∀ it : List (OrderRef × RefOrder), it.Perm (r k).orders → ∀ side,
        (b k).best side = (⟨it⟩ : ReferenceOrderBook).bestPrice side := by
      intro it hit side
      rw [(href k).best_eq]
      exact (he side).unique (ranking_better side) (hm.isBest_bestPrice hit side)
    refine ⟨?_, fun it hit => ⟨hbest it hit true, hbest it hit false, fun p side => ?_⟩⟩
    · rw [(href k).orderCount_eq, ReferenceOrderBook.orderCount, hm, List.length_map]
    · rw [(href k).sharesAt_eq, hm.sharesAt_eq hit]

/-- A run that fills the window and the map, with a duplicate, an excessive and an
unknown reference, and a replacement by itself. -/
def sampleRun : List Op :=
  [.add 1 1000 50 true 0, .add 2 5000 30 false 0, .add 1 1001 10 true 0, .execute 1 60,
    .replace 1 1 20 999, .cancel 9 1, .add 3 1002 25 false 0, .execute 2 30, .delete 3]

theorem sampleRun_matches_reference :
    ((OrderBook.new 1000 2 4).run sampleRun).orderCount = 1 ∧
      ((OrderBook.new 1000 2 4).run sampleRun).bestBid =
        (({} : ReferenceOrderBook).run sampleRun).bestBid ∧
      ((OrderBook.new 1000 2 4).run sampleRun).sharesAt 999 true =
        (({} : ReferenceOrderBook).run sampleRun).sharesAt 999 true := by
  have hrun := (run_matches_reference 1000 2 4 sampleRun
    (by
      intro k ref price shares isBuy traderId hop
      have hk : k < 9 := (List.getElem?_eq_some_iff.mp hop).1
      revert hk
      clear hop
      revert k
      decide +kernel)
    (by
      have hsum : ∀ k ≤ sampleRun.length,
          sharesOf ((OrderBook.new 1000 2 4).run (sampleRun.take k)).liveOrders < 2 ^ 32 := by
        decide +kernel
      exact fun k hk => levelSumsBounded_of_sharesOf (hsum k hk))).2 9 (by decide)
  obtain ⟨hcount, hquery⟩ := hrun
  obtain ⟨hbid, -, hat⟩ := hquery _ (List.Perm.refl _)
  exact ⟨hcount, hbid, hat 999 true⟩

end Run
end Liquibook
