import Liquibook.Engine.DryRun

/-!
# Submitting an order

What `submit` does to a book that refines a ledger: it ends, it reports the fills
that a greedy consumption of the reach takes and then what becomes of the remainder,
and the orders it leaves are those there were, each without the shares filled against
it and in the same order of arrival, followed by the remainder if it rests.

## Main definitions

* `Ledger.settleRemainder`, `Ledger.submit` — submitting an order to a ledger.
* `taken`, `settle` — what fills leave of an order.
* `Event.filled` — the shares that events report as filled against an order.

## Main results

* `consume_orders` — **executing fills takes the shares off the orders they name.**
* `Refines.submit` — **submitting to the book is submitting to the ledger.**
-/

namespace Liquibook

open Lib OrderBook MatchingEngine

/-- The order that is left of an incoming one when `n` shares are not filled. -/
def IncomingOrder.remainder (order : IncomingOrder) (n : ℕ) : Resting where
  orderRef := order.orderRef
  price := order.price
  shares := UInt32.ofNat n
  isBuy := order.isBuy
  traderId := order.traderId

theorem IncomingOrder.ne_fok_of_limit {order : IncomingOrder} (htype : order.type = .limit) :
    order.type ≠ .fok := by
  rw [htype]
  simp

/-- The shares that fills take from the order with a reference. -/
def taken (fs : List (Resting × ℕ)) (ref : OrderRef) : ℕ :=
  ((fs.filter fun f => f.1.orderRef == ref).map Prod.snd).sum

/-- What is left of an order when `n ref` shares are taken from the order `ref`. -/
def settle (n : OrderRef → ℕ) (r : Resting) : Option Resting :=
  if n r.orderRef = r.shares.toNat then none
  else some { r with shares := r.shares - UInt32.ofNat (n r.orderRef) }

/-- The shares that fills take altogether. -/
def amount (fs : List (Resting × ℕ)) : ℕ := (fs.map Prod.snd).sum

/-- The remainder of an order that has taken `fs` from the given orders, if it rests:
it is a limit order, something is left of it, its reference is free once the orders
that are used up are gone, and so is a slot of the pool. -/
def restedOf (order : IncomingOrder) (fs : List (Resting × ℕ)) (orders : List Resting)
    (capacity : ℕ) : List Resting :=
  let kept := orders.filterMap (settle (taken fs))
  if order.type = .limit ∧ amount fs < order.quantity.toNat ∧
      (∀ x ∈ kept, x.orderRef ≠ order.orderRef) ∧ kept.length < capacity then
    [order.remainder (order.quantity.toNat - amount fs)]
  else []

theorem restedOf_cases (order : IncomingOrder) (fs : List (Resting × ℕ)) (orders : List Resting)
    (capacity : ℕ) : restedOf order fs orders capacity = [] ∨
      restedOf order fs orders capacity =
        [order.remainder (order.quantity.toNat - amount fs)] := by
  unfold restedOf
  dsimp only
  split
  · exact Or.inr rfl
  · exact Or.inl rfl

/-- What rests of an order is on its own side. -/
theorem isBuy_of_mem_restedOf {order : IncomingOrder} {fs : List (Resting × ℕ)}
    {orders : List Resting} {capacity : ℕ} {r : Resting}
    (hr : r ∈ restedOf order fs orders capacity) : r.isBuy = order.isBuy := by
  rcases restedOf_cases order fs orders capacity with e | e
  · rw [e] at hr
    cases hr
  · rw [e, List.mem_singleton] at hr
    rw [hr]
    rfl

/-- The shares that events report as filled against the order with a reference. -/
def Event.filled (events : List Event) (ref : OrderRef) : ℕ :=
  (events.map fun
    | .fill e => if e.restingRef = ref then e.quantity.toNat else 0
    | _ => 0).sum

namespace Ledger

/-- What becomes of the `n` shares that are not filled. -/
def settleRemainder (l : Ledger) (order : IncomingOrder) (n : ℕ) : List Event × Ledger :=
  if n = 0 then ([], l)
  else if order.type = .limit then
    ([.rest { orderRef := order.orderRef, price := order.price, quantity := UInt32.ofNat n,
              isBuy := order.isBuy }], (l.add (order.remainder n)).2)
  else ([.kill { orderRef := order.orderRef, unfilledQuantity := UInt32.ofNat n }], l)

/-- What an incoming order takes: nothing if it is to be filled at once and the dry
run does not cover it, and otherwise what it can of its reach. -/
def taking (l : Ledger) (preventSelfTrade : Bool) (order : IncomingOrder) : List (Resting × ℕ) :=
  if order.type = .fok ∧ l.available preventSelfTrade order < order.quantity then []
  else l.fills preventSelfTrade order order.quantity.toNat

/-- An order that is not fill-or-kill takes what it can of its reach. -/
theorem taking_of_ne_fok (l : Ledger) (preventSelfTrade : Bool) {order : IncomingOrder}
    (htype : order.type ≠ .fok) : l.taking preventSelfTrade order =
      l.fills preventSelfTrade order order.quantity.toNat := if_neg fun e => htype e.1

/-- An order that the dry run covers takes what it can of its reach. -/
theorem taking_of_covers {l : Ledger} {preventSelfTrade : Bool} {order : IncomingOrder}
    (hc : (l.depth !order.isBuy).Covers preventSelfTrade order) :
    l.taking preventSelfTrade order = l.fills preventSelfTrade order order.quantity.toNat :=
  if_neg fun e => UInt32.not_lt.mpr (covers_iff.mpr hc) e.2

/-- A fill-or-kill order that the dry run does not cover takes nothing. -/
theorem taking_of_not_covers {l : Ledger} {preventSelfTrade : Bool} {order : IncomingOrder}
    (htype : order.type = .fok) (hc : ¬ (l.depth !order.isBuy).Covers preventSelfTrade order) :
    l.taking preventSelfTrade order = [] :=
  if_pos ⟨htype, UInt32.not_le.mp fun e => hc (covers_iff.mp e)⟩

/-- Submit an order: take what it can, and settle the remainder. -/
def submit (l : Ledger) (preventSelfTrade : Bool) (order : IncomingOrder) : List Event × Ledger :=
  let fs := l.taking preventSelfTrade order
  let rest := (l.consume fs).settleRemainder order (order.quantity.toNat - amount fs)
  ((fs.map (fillEvent order)).map .fill ++ rest.1, rest.2)

end Ledger

/-! ### The book does what the ledger does -/

theorem amount_fills (l : Ledger) (preventSelfTrade : Bool) (order : IncomingOrder) (q : ℕ) :
    amount (l.fills preventSelfTrade order q) =
      min q (sharesOf (l.reach preventSelfTrade order)) := sum_greedy _ _ _

namespace OrderBook

variable {b : OrderBook} {l : Ledger} {preventSelfTrade : Bool} {order : IncomingOrder}

/-- The book that is left of `b₁`, the book with the fills executed. -/
def settled (b₁ : OrderBook) (order : IncomingOrder) (fs : List (Resting × ℕ)) : OrderBook :=
  if order.type = .limit ∧ amount fs < order.quantity.toNat then
    (b₁.addOrder order.orderRef order.price (UInt32.ofNat (order.quantity.toNat - amount fs))
      order.isBuy order.traderId).2
  else b₁

/-- Matching and settling the remainder. -/
theorem Refines.matchAndSettle (h : Refines b l) (preventSelfTrade : Bool)
    (order : IncomingOrder) {fs : List (Resting × ℕ)}
    (hfs : fs = l.fills preventSelfTrade order order.quantity.toNat) :
    ∃ b₁ b', MatchingEngine.matchAndSettle preventSelfTrade b order =
        some ((fs.map (fillEvent order)).map .fill ++
          ((l.consume fs).settleRemainder order (order.quantity.toNat - amount fs)).1, b') ∧
      Replays b (fs.map (fillEvent order)) b₁ ∧ b' = settled b₁ order fs ∧
      Refines b' ((l.consume fs).settleRemainder order (order.quantity.toNat - amount fs)).2 := by
  obtain ⟨filled, b₁, hmatch, hleft, href, hreplay⟩ := h.executeMatch preventSelfTrade order
  rw [← hfs] at hmatch href hreplay
  -- what the source calls `remaining`
  have hrem : order.quantity.toNat - amount fs = (order.quantity - filled).toNat := by
    rw [hfs, amount_fills, hleft]
    omega
  rw [hrem]
  unfold MatchingEngine.matchAndSettle Ledger.settleRemainder
  rw [hmatch]
  dsimp only [Option.map_some]
  have hofNat : UInt32.ofNat (order.quantity - filled).toNat = order.quantity - filled :=
    UInt32.ofNat_toNat
  by_cases hz : order.quantity - filled = 0
  · rw [if_pos hz, if_pos (by rw [hz]; rfl), List.append_nil]
    have hfull : ¬ (order.type = .limit ∧ amount fs < order.quantity.toNat) := by
      rw [hz, UInt32.toNat_zero] at hrem
      omega
    exact ⟨b₁, b₁, rfl, hreplay, (if_neg hfull).symm, href⟩
  · rw [if_neg hz, if_neg (toNat_pos hz).ne', IncomingOrder.remainder, hofNat]
    by_cases htype : order.type = .limit
    · rw [if_pos htype, if_pos htype]
      have hlt : order.type = .limit ∧ amount fs < order.quantity.toNat := by
        have := toNat_pos hz
        exact ⟨htype, by omega⟩
      refine ⟨b₁, _, rfl, hreplay, ?_, (href.addOrder ⟨_, _, _, _, _⟩).refines⟩
      rw [settled, if_pos hlt, hrem, hofNat]
    · rw [if_neg htype, if_neg htype]
      exact ⟨b₁, b₁, rfl, hreplay, (if_neg fun e => htype e.1).symm, href⟩

/-- **Submitting to the book is submitting to the ledger**: it ends, with the same
events, after executing the fills one by one. -/
theorem Refines.submit (h : Refines b l) (preventSelfTrade : Bool) (order : IncomingOrder) :
    ∃ b₁ b', MatchingEngine.submit preventSelfTrade b order =
        some ((l.submit preventSelfTrade order).1, b') ∧
      Replays b ((l.taking preventSelfTrade order).map (fillEvent order)) b₁ ∧
      b' = settled b₁ order (l.taking preventSelfTrade order) ∧
      Refines b' (l.submit preventSelfTrade order).2 := by
  unfold MatchingEngine.submit Ledger.submit
  by_cases hz : order.quantity = 0
  · have hfs : l.taking preventSelfTrade order = [] := by
      unfold Ledger.taking Ledger.fills
      rw [hz, UInt32.toNat_zero, greedy_zero, ite_self]
    have hrest : ∀ l' : Ledger, l'.settleRemainder order (order.quantity.toNat - amount []) =
        ([], l') := by
      intro l'
      rw [hz]
      rfl
    rw [if_pos hz, hfs]
    dsimp only
    rw [hrest]
    refine ⟨b, b, rfl, .nil b, (if_neg fun e => ?_).symm, h⟩
    rw [hz] at e
    exact absurd e.2 (Nat.not_lt_zero _)
  rw [if_neg hz]
  by_cases hkill : order.type = .fok ∧ l.available preventSelfTrade order < order.quantity
  · have hfs : l.taking preventSelfTrade order = [] := if_pos hkill
    have hrest : ∀ l' : Ledger, l'.settleRemainder order (order.quantity.toNat - amount []) =
        ([.kill { orderRef := order.orderRef, unfilledQuantity := order.quantity }], l') := by
      intro l'
      rw [Ledger.settleRemainder, amount, List.map_nil, List.sum_nil, Nat.sub_zero,
        if_neg (toNat_pos hz).ne', if_neg (by rw [hkill.1]; simp), UInt32.ofNat_toNat]
    rw [hfs, if_pos hkill.1, h.availableLiquidity, Option.bind_some, if_pos hkill.2]
    dsimp only
    rw [hrest]
    refine ⟨b, b, rfl, .nil b, (if_neg fun e => ?_).symm, h⟩
    rw [hkill.1] at e
    cases e.1
  · have hfs : l.taking preventSelfTrade order =
        l.fills preventSelfTrade order order.quantity.toNat := if_neg hkill
    obtain ⟨b₁, b', hmatch, hreplay, hsame, href⟩ := h.matchAndSettle preventSelfTrade order hfs
    refine ⟨b₁, b', ?_, hreplay, hsame, href⟩
    rw [← hmatch]
    by_cases hfok : order.type = .fok
    · rw [if_pos hfok, h.availableLiquidity, Option.bind_some, if_neg fun e => hkill ⟨hfok, e⟩]
    · rw [if_neg hfok]

end OrderBook

/-! ### What fills leave of the orders -/

namespace Ledger

variable {l : Ledger} {r : Resting}

/-- A reduction, as a change to every order. -/
theorem WF.reduce_orders (h : WF l) (hr : r ∈ l.orders) {n : Shares} (hn : n ≠ 0)
    (hle : n ≤ r.shares) :
    (l.reduce r.orderRef n).2.orders = l.orders.filterMap fun x =>
      if x.orderRef = r.orderRef then
        if n = r.shares then none else some { x with shares := r.shares - n }
      else some x := by
  rw [h.reduce_eq hr hn hle]
  dsimp only
  by_cases hall : n = r.shares
  · rw [if_pos hall, remove_orders, drop, ← List.filterMap_eq_filter]
    refine List.filterMap_congr fun x _ => ?_
    by_cases hx : x.orderRef = r.orderRef
    · simp [hx, hall]
    · simp [hx, Option.guard]
  · rw [if_neg hall, Ledger.setShares, ← List.filterMap_eq_map]
    refine List.filterMap_congr fun x _ => ?_
    by_cases hx : x.orderRef = r.orderRef
    · simp [hx, hall]
    · simp [hx]

/-- Fills that can be executed one after the other: they name different orders of the
ledger, and take something from each, but no more than there is. -/
structure Takes (l : Ledger) (fs : List (Resting × ℕ)) : Prop where
  nodup : (fs.map fun f => f.1.orderRef).Nodup
  mem : ∀ f ∈ fs, f.1 ∈ l.orders
  pos : ∀ f ∈ fs, 0 < f.2
  le : ∀ f ∈ fs, f.2 ≤ f.1.weight

theorem taken_nil (ref : OrderRef) : taken [] ref = 0 := rfl

theorem taken_cons (f : Resting × ℕ) (fs : List (Resting × ℕ)) (ref : OrderRef) :
    taken (f :: fs) ref = (if f.1.orderRef = ref then f.2 else 0) + taken fs ref := by
  unfold taken
  rw [List.filter_cons]
  by_cases h : f.1.orderRef = ref
  · simp [h]
  · simp [h]

theorem taken_eq_zero {fs : List (Resting × ℕ)} {ref : OrderRef}
    (h : ref ∉ fs.map fun f => f.1.orderRef) : taken fs ref = 0 := by
  have hnil : (fs.filter fun f => f.1.orderRef == ref) = [] := by
    refine List.filter_eq_nil_iff.mpr fun f hf e => h ?_
    rw [← beq_iff_eq.mp e]
    exact List.mem_map_of_mem hf
  rw [taken, hnil]
  rfl

/-- Nothing is taken from an order that no fill names. -/
theorem settle_of_zero {n : OrderRef → ℕ} (hpos : r.shares ≠ 0) (hn : n r.orderRef = 0) :
    settle n r = some r := by
  have hne : n r.orderRef ≠ r.shares.toNat := by
    have := toNat_pos hpos
    omega
  rw [settle, if_neg hne, hn]
  simp

/-- **Executing fills takes the shares off the orders they name**, and leaves all
others and the order of arrival alone. -/
theorem WF.consume_orders : ∀ {fs : List (Resting × ℕ)} {l : Ledger}, WF l → Takes l fs →
    WF (l.consume fs) ∧ (l.consume fs).capacity = l.capacity ∧
      (l.consume fs).orders = l.orders.filterMap (settle (taken fs)) := by
  intro fs
  induction fs with
  | nil =>
    intro l h _
    refine ⟨h, rfl, ?_⟩
    rw [List.filterMap_congr fun r hr => settle_of_zero (h.positive r hr) (taken_nil _)]
    exact List.filterMap_some.symm
  | cons f fs ih =>
    intro l h ht
    obtain ⟨r, n⟩ := f
    have hr : r ∈ l.orders := ht.mem _ List.mem_cons_self
    have hpos : 0 < n := ht.pos _ List.mem_cons_self
    have hle : n ≤ r.shares.toNat := ht.le _ List.mem_cons_self
    have hn : (UInt32.ofNat n).toNat = n :=
      UInt32.toNat_ofNat_of_lt' (hle.trans_lt r.shares.toNat_lt)
    have hn0 : UInt32.ofNat n ≠ 0 := by
      rw [ne_eq, ← UInt32.toNat_inj, hn, UInt32.toNat_zero]
      omega
    have hnle : UInt32.ofNat n ≤ r.shares := by rwa [UInt32.le_iff_toNat_le, hn]
    have hall : UInt32.ofNat n = r.shares ↔ n = r.shares.toNat := by rw [← UInt32.toNat_inj, hn]
    have horders := h.reduce_orders hr hn0 hnle
    have hchange := change_reduce l r.orderRef (UInt32.ofNat n)
    set l₁ := (l.reduce r.orderRef (UInt32.ofNat n)).2 with hl₁
    have hnd := ht.nodup
    rw [List.map_cons, List.nodup_cons] at hnd
    -- the fills that follow name other orders, which this one has not touched
    have ht₁ : Takes l₁ fs := by
      refine ⟨hnd.2, fun f hf => ?_, fun f hf => ht.pos f (List.mem_cons_of_mem _ hf),
        fun f hf => ht.le f (List.mem_cons_of_mem _ hf)⟩
      have hne : f.1.orderRef ≠ r.orderRef := by
        intro e
        exact hnd.1 (e ▸ List.mem_map_of_mem hf)
      rw [horders, List.mem_filterMap]
      exact ⟨f.1, ht.mem f (List.mem_cons_of_mem _ hf), by rw [if_neg hne]⟩
    obtain ⟨hwf, hcap, hrest⟩ := ih (h.change hchange) ht₁
    have hfs : taken fs r.orderRef = 0 := taken_eq_zero hnd.1
    change WF (l₁.consume fs) ∧ (l₁.consume fs).capacity = l.capacity ∧
      (l₁.consume fs).orders = _
    refine ⟨hwf, hcap.trans hchange.capacity, ?_⟩
    rw [hrest, horders, List.filterMap_filterMap]
    -- an order is named by the first fill, or else by the others or none
    refine List.filterMap_congr fun x hx => ?_
    by_cases hxr : x.orderRef = r.orderRef
    · obtain rfl := h.eq_of_ref hx hr hxr
      rw [if_pos rfl]
      have htaken : taken ((x, n) :: fs) x.orderRef = n := by
        rw [taken_cons, if_pos rfl, hfs]
        rfl
      by_cases hfull : n = x.shares.toNat
      · rw [if_pos (hall.mpr hfull), settle, htaken, if_pos hfull]
        rfl
      · have hleft : x.shares - UInt32.ofNat n ≠ 0 := fun e =>
          hfull (hall.mp (sub_eq_zero.mp e).symm)
        rw [if_neg (fun e => hfull (hall.mp e)), Option.bind_some,
          settle_of_zero (by exact hleft) (by exact hfs), settle, htaken, if_neg hfull]
    · rw [if_neg hxr, Option.bind_some, settle, settle, taken_cons, if_neg (Ne.symm hxr), zero_add]

/-- The fills of an incoming order can be executed. -/
theorem WF.takes_fills (h : WF l) (preventSelfTrade : Bool) (order : IncomingOrder) (q : ℕ) :
    Takes l (l.fills preventSelfTrade order q) where
  nodup := by
    have hpre := map_fst_greedy_prefix Resting.weight (l.reach preventSelfTrade order) q
    have := (h.nodup_reach preventSelfTrade order).sublist (hpre.sublist.map Resting.orderRef)
    rwa [List.map_map] at this
  mem := fun f hf => (mem_reach (mem_greedy hf).1).1
  pos := fun f hf => (mem_greedy hf).2.2.2
    (toNat_pos (h.positive _ (mem_reach (mem_greedy hf).1).1))
  le := fun f hf => (mem_greedy hf).2.1

theorem takes_nil (l : Ledger) : Takes l [] :=
  ⟨List.nodup_nil, by simp, by simp, by simp⟩

theorem WF.takes_taking (h : WF l) (preventSelfTrade : Bool) (order : IncomingOrder) :
    Takes l (l.taking preventSelfTrade order) := by
  unfold taking
  split
  · exact takes_nil l
  · exact h.takes_fills preventSelfTrade order _

theorem amount_taking_le (l : Ledger) (preventSelfTrade : Bool) (order : IncomingOrder) :
    amount (l.taking preventSelfTrade order) ≤ order.quantity.toNat := by
  unfold taking
  split
  · exact Nat.zero_le _
  · rw [amount_fills]
    exact Nat.min_le_left _ _

/-- What is taken from an order that a fill names. -/
theorem Takes.taken_eq {fs : List (Resting × ℕ)} (ht : Takes l fs) {f : Resting × ℕ} (hf : f ∈ fs) :
    taken fs f.1.orderRef = f.2 := by
  obtain ⟨as, bs, hsplit⟩ := List.append_of_mem hf
  have hnd := ht.nodup
  rw [hsplit, List.map_append, List.map_cons, List.nodup_append, List.nodup_cons] at hnd
  have has : taken as f.1.orderRef = 0 := taken_eq_zero fun e =>
    hnd.2.2 _ e _ List.mem_cons_self rfl
  have hbs : taken bs f.1.orderRef = 0 := taken_eq_zero hnd.2.1.1
  have happ : taken fs f.1.orderRef = taken as f.1.orderRef + taken (f :: bs) f.1.orderRef := by
    rw [hsplit, taken, List.filter_append, List.map_append, List.sum_append]
    rfl
  rw [happ, has, taken_cons, if_pos rfl, hbs, zero_add, add_zero]

/-- What is taken from an order of the ledger. -/
theorem Takes.taken_le {fs : List (Resting × ℕ)} (h : WF l) (ht : Takes l fs) (hr : r ∈ l.orders) :
    taken fs r.orderRef ≤ r.shares.toNat := by
  by_cases hmem : r.orderRef ∈ fs.map fun f => f.1.orderRef
  · obtain ⟨f, hf, href⟩ := List.mem_map.mp hmem
    obtain rfl := h.eq_of_ref (ht.mem f hf) hr href
    rw [ht.taken_eq hf]
    exact ht.le f hf
  · rw [taken_eq_zero hmem]
    exact Nat.zero_le _

/-- The events report what is taken. -/
theorem Takes.filled_eq {fs : List (Resting × ℕ)} (ht : Takes l fs) (order : IncomingOrder)
    (ref : OrderRef) :
    Event.filled ((fs.map (fillEvent order)).map .fill) ref = taken fs ref := by
  have hle : ∀ f ∈ fs, (UInt32.ofNat f.2).toNat = f.2 := fun f hf =>
    UInt32.toNat_ofNat_of_lt' ((ht.le f hf).trans_lt f.1.shares.toNat_lt)
  clear ht
  induction fs with
  | nil => rfl
  | cons f fs ih =>
    have := ih fun g hg => hle g (List.mem_cons_of_mem _ hg)
    unfold Event.filled at *
    rw [List.map_cons, List.map_cons, List.map_cons, List.sum_cons, this, taken_cons]
    dsimp only [fillEvent]
    rw [hle f List.mem_cons_self]

/-! ### The orders an incoming order leaves -/

/-- The remainder that rests, if it does. -/
def rested (l : Ledger) (preventSelfTrade : Bool) (order : IncomingOrder) : List Resting :=
  restedOf order (l.taking preventSelfTrade order) l.orders l.capacity

/-- Whether the remainder rests, read off the ledger with the fills executed. -/
theorem WF.rested_eq (h : WF l) (preventSelfTrade : Bool) (order : IncomingOrder) :
    l.rested preventSelfTrade order =
      if order.type = .limit ∧ amount (l.taking preventSelfTrade order) < order.quantity.toNat ∧
          (l.consume (l.taking preventSelfTrade order)).find order.orderRef = none ∧
          (l.consume (l.taking preventSelfTrade order)).orders.length ≠
            (l.consume (l.taking preventSelfTrade order)).capacity then
        [order.remainder (order.quantity.toNat - amount (l.taking preventSelfTrade order))]
      else [] := by
  obtain ⟨hwf, hcap, horders⟩ := h.consume_orders (h.takes_taking preventSelfTrade order)
  unfold rested restedOf
  dsimp only
  set fs := l.taking preventSelfTrade order with hfs
  have hfind : (∀ x ∈ l.orders.filterMap (settle (taken fs)), x.orderRef ≠ order.orderRef) ↔
      (l.consume fs).find order.orderRef = none := by rw [find_eq_none_iff, horders]
  have hlen : (l.orders.filterMap (settle (taken fs))).length < l.capacity ↔
      (l.consume fs).orders.length ≠ (l.consume fs).capacity := by
    rw [← horders, ← hcap]
    have := hwf.length_le
    omega
  simp only [hfind, hlen]

theorem WF.submit_snd (h : WF l) (preventSelfTrade : Bool) (order : IncomingOrder) :
    (l.submit preventSelfTrade order).2 =
      match l.rested preventSelfTrade order with
      | [] => l.consume (l.taking preventSelfTrade order)
      | r :: _ => (l.consume (l.taking preventSelfTrade order)).append r := by
  rw [h.rested_eq]
  unfold submit settleRemainder
  dsimp only
  set fs := l.taking preventSelfTrade order with hfs
  have hle : amount fs ≤ order.quantity.toNat := amount_taking_le l preventSelfTrade order
  by_cases hz : order.quantity.toNat - amount fs = 0
  · rw [if_pos hz, if_neg fun e => by omega]
  rw [if_neg hz]
  by_cases htype : order.type = .limit
  · have hshares : (order.remainder (order.quantity.toNat - amount fs)).shares ≠ 0 := by
      have hlt := order.quantity.toNat_lt
      rw [ne_eq, ← UInt32.toNat_inj, IncomingOrder.remainder,
        UInt32.toNat_ofNat_of_lt' (show _ < 2 ^ 32 by omega)]
      exact hz
    have href : (order.remainder (order.quantity.toNat - amount fs)).orderRef =
        order.orderRef := rfl
    rw [if_pos htype, add, href]
    by_cases hok : (l.consume fs).find order.orderRef = none ∧
        (l.consume fs).orders.length ≠ (l.consume fs).capacity
    · have hadd : ¬ ((order.remainder (order.quantity.toNat - amount fs)).shares = 0 ∨
          ((l.consume fs).find order.orderRef).isSome = true ∨
          (l.consume fs).orders.length = (l.consume fs).capacity) := by
        rintro (e | e | e)
        · exact hshares e
        · rw [hok.1] at e
          cases e
        · exact hok.2 e
      rw [if_neg hadd, if_pos ⟨htype, by omega, hok⟩]
    · rw [if_pos, if_neg fun e => hok e.2.2]
      by_cases hf : (l.consume fs).find order.orderRef = none
      · exact Or.inr (Or.inr (not_not.mp fun e => hok ⟨hf, e⟩))
      · exact Or.inr (Or.inl (Option.isSome_iff_ne_none.mpr hf))
  · rw [if_neg htype, if_neg fun e => htype e.1]

/-- **The orders an incoming order leaves**: those there were, each without what is
taken from it, and the remainder if it rests. -/
theorem WF.submit_orders (h : WF l) (preventSelfTrade : Bool) (order : IncomingOrder) :
    (l.submit preventSelfTrade order).2.orders =
      l.orders.filterMap (settle (taken (l.taking preventSelfTrade order))) ++
        l.rested preventSelfTrade order := by
  obtain ⟨-, -, horders⟩ := h.consume_orders (h.takes_taking preventSelfTrade order)
  rw [h.submit_snd]
  rcases restedOf_cases order (l.taking preventSelfTrade order) l.orders l.capacity with e | e
  · rw [rested, e, List.append_nil]
    exact horders
  · rw [rested, e]
    dsimp only
    rw [Ledger.append, horders]

end Ledger
end Liquibook
