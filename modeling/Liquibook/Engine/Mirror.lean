import Liquibook.Engine.Transcript

/-!
# Buying and selling are mirror images

Every function of the book and of the engine has a branch for buy orders and one for
sell orders.  Turning the price axis around exchanges the two: what is better for a
bid is better for an ask at the mirrored prices.  So the mirror image of a ledger,
with every side flipped and every price mirrored, does with mirrored calls what the
ledger does with the calls themselves, and by refinement so do the books.

## Main definitions

* `mirrorPrice` — the price at the same distance from the other end of the range.
* `Resting.mirror`, `Op.mirror`, `IncomingOrder.mirror`, `Event.mirror`, `View.mirror`,
  `Ledger.mirror` — the mirror images of orders, calls, events, views and ledgers.

## Main results

* `Ledger.step_mirror`, `Ledger.submit_mirror` — a call on the mirror image.
* `mirror_symmetry` — **the mirrored calls have the mirrored transcript.**
-/

namespace Liquibook

open Lib OrderBook MatchingEngine

/-- The price at the same distance from the other end of the range. -/
@[irreducible]
def mirrorPrice (p : Price4) : Price4 := UInt32.ofNat (4294967295 - p.toNat)

def Resting.mirror (r : Resting) : Resting :=
  { r with price := mirrorPrice r.price, isBuy := !r.isBuy }

def Op.mirror : Op → Op
  | .add ref price shares isBuy traderId => .add ref (mirrorPrice price) shares (!isBuy) traderId
  | .execute ref shares => .execute ref shares
  | .cancel ref shares => .cancel ref shares
  | .delete ref => .delete ref
  | .replace oldRef newRef newShares newPrice =>
      .replace oldRef newRef newShares (mirrorPrice newPrice)

def IncomingOrder.mirror (order : IncomingOrder) : IncomingOrder :=
  { order with price := mirrorPrice order.price, isBuy := !order.isBuy }

def Call.mirror : Call → Call
  | .book op => .book op.mirror
  | .submit preventSelfTrade order => .submit preventSelfTrade order.mirror

def FillEvent.mirror (e : FillEvent) : FillEvent := { e with price := mirrorPrice e.price }

def RestEvent.mirror (e : RestEvent) : RestEvent :=
  { e with price := mirrorPrice e.price, isBuy := !e.isBuy }

/-- A kill names neither a price nor a side. -/
def Event.mirror : Event → Event
  | .fill e => .fill e.mirror
  | .rest e => .rest e.mirror
  | .kill e => .kill e

def Reply.mirror : Reply → Reply
  | .result accepted => .result accepted
  | .events es => .events (es.map Event.mirror)

def View.mirror (v : View) : View where
  bestBid := v.bestAsk.map mirrorPrice
  bestAsk := v.bestBid.map mirrorPrice
  orderCount := v.orderCount
  sharesAt p isBuy := v.sharesAt (mirrorPrice p) (!isBuy)
  queueAt p isBuy := (v.queueAt (mirrorPrice p) (!isBuy)).map Resting.mirror
  nextPriceAfter p isBuy := (v.nextPriceAfter (mirrorPrice p) (!isBuy)).map mirrorPrice

/-! ### Prices -/

theorem toNat_mirrorPrice (p : Price4) : (mirrorPrice p).toNat = 4294967295 - p.toNat := by
  unfold mirrorPrice
  rw [UInt32.toNat_ofNat']
  omega

@[simp] theorem mirrorPrice_mirrorPrice (p : Price4) : mirrorPrice (mirrorPrice p) = p := by
  have := p.toNat_lt
  rw [← UInt32.toNat_inj, toNat_mirrorPrice, toNat_mirrorPrice]
  omega

theorem mirrorPrice_lt_iff {p q : Price4} : mirrorPrice p < mirrorPrice q ↔ q < p := by
  have := p.toNat_lt
  have := q.toNat_lt
  rw [UInt32.lt_iff_toNat_lt, UInt32.lt_iff_toNat_lt, toNat_mirrorPrice, toNat_mirrorPrice]
  omega

theorem mirrorPrice_eq_iff {p q : Price4} : mirrorPrice p = q ↔ p = mirrorPrice q := by
  constructor
  · intro h
    rw [← h, mirrorPrice_mirrorPrice]
  · intro h
    rw [h, mirrorPrice_mirrorPrice]

theorem mirrorPrice_injective : Function.Injective mirrorPrice := fun p q h => by
  rw [← mirrorPrice_mirrorPrice p, h, mirrorPrice_mirrorPrice]

/-- **The mirror exchanges what is better for the two sides.** -/
theorem better_mirror (side : Bool) (p q : Price4) :
    better side (mirrorPrice p) (mirrorPrice q) = better (!side) p q := by
  cases side <;> simp [better, mirrorPrice_lt_iff]

theorem crosses_mirror (order : IncomingOrder) (p : Price4) :
    crosses order.mirror (mirrorPrice p) = crosses order p := by
  unfold crosses IncomingOrder.mirror
  cases order.isBuy <;> simp [← UInt32.not_lt, mirrorPrice_lt_iff]

theorem eligibleFor_mirror (preventSelfTrade : Bool) (order : IncomingOrder) (r : Resting) :
    Depth.eligibleFor preventSelfTrade order.mirror r.mirror =
      Depth.eligibleFor preventSelfTrade order r := rfl

/-- The best so far, in the mirror. -/
theorem improve_mirror (side : Bool) (best : Option Price4) (p : Price4) :
    improve (fun p q => better side p q = true) (best.map mirrorPrice) (mirrorPrice p) =
      (improve (fun p q => better (!side) p q = true) best p).map mirrorPrice := by
  cases best with
  | none => rfl
  | some q =>
    simp only [improve, Option.map_some, better_mirror]
    split <;> rfl

/-! ### Ledgers -/

namespace Ledger

/-- The ledger with every side flipped and every price mirrored. -/
def mirror (l : Ledger) : Ledger where
  capacity := l.capacity
  orders := l.orders.map Resting.mirror
  best side := (l.best (!side)).map mirrorPrice

theorem mirror_new (capacity : ℕ) : (new capacity).mirror = new capacity := rfl

variable {l : Ledger} {r : Resting} {p : Price4} {side : Bool}

theorem find_mirror (l : Ledger) (ref : OrderRef) :
    l.mirror.find ref = (l.find ref).map Resting.mirror :=
  List.find?_map ..

theorem queue_mirror (l : Ledger) (p : Price4) (side : Bool) :
    l.mirror.queue p side = (l.queue (mirrorPrice p) (!side)).map Resting.mirror := by
  unfold queue mirror
  rw [List.filter_map]
  congr 1
  refine List.filter_congr fun r _ => ?_
  simp [Resting.mirror, mirrorPrice_eq_iff]

theorem queue_mirror_eq_nil_iff :
    l.mirror.queue p side = [] ↔ l.queue (mirrorPrice p) (!side) = [] := by
  rw [queue_mirror, List.map_eq_nil_iff]

theorem total_mirror (l : Ledger) (p : Price4) (side : Bool) :
    l.mirror.total p side = l.total (mirrorPrice p) (!side) := by
  rw [total, queue_mirror, List.map_map]
  rfl

/-- The levels of a side are the mirrored levels of the other. -/
theorem levels_mirror (l : Ledger) (side : Bool) :
    (l.mirror.depth side).levels = (l.depth (!side)).levels.map mirrorPrice := by
  refine eq_of_pairwise_better (ranking_better side) (pairwise_levels _ _) ?_ fun p => ?_
  · rw [List.pairwise_map]
    refine (pairwise_levels l (!side)).imp fun h => ?_
    rw [better_mirror]
    exact h
  · rw [mem_levels, total_mirror, List.mem_map]
    constructor
    · exact fun h => ⟨mirrorPrice p, mem_levels.mpr h, mirrorPrice_mirrorPrice p⟩
    · rintro ⟨q, hq, rfl⟩
      rw [mirrorPrice_mirrorPrice]
      exact mem_levels.mp hq

theorem mirror_append (l : Ledger) (r : Resting) :
    l.mirror.append r.mirror = (l.append r).mirror := by
  apply Ledger.ext
  · rfl
  · simp [append, mirror]
  · funext side
    rw [append_best]
    simp only [mirror, append_best, Resting.mirror, Bool.not_not]
    by_cases h : side = !r.isBuy
    · subst h
      simp [improve_mirror]
    · have h' : (!side) ≠ r.isBuy := fun e => h (by rw [← e, Bool.not_not])
      rw [if_neg h, if_neg h']

theorem mirror_drop (l : Ledger) (r : Resting) : l.mirror.drop r.mirror = (l.drop r).mirror := by
  unfold drop mirror
  congr 1
  exact List.filter_map ..

theorem orders_mirror_remove (l : Ledger) (r : Resting) :
    (l.mirror.remove r.mirror).orders = (l.remove r).mirror.orders := by
  rw [remove_orders, mirror_drop]
  exact congrArg (List.map Resting.mirror) (remove_orders l r).symm

/-- A price is looked for anew under the same condition on both sides of the mirror. -/
theorem mirror_remove_looks_anew_iff (l : Ledger) (r : Resting) (side : Bool) :
    (side = r.mirror.isBuy ∧
        (l.mirror.remove r.mirror).queue r.mirror.price r.mirror.isBuy = [] ∧
        l.mirror.best r.mirror.isBuy = some r.mirror.price) ↔
      ((!side) = r.isBuy ∧ (l.remove r).queue r.price r.isBuy = [] ∧
        l.best r.isBuy = some r.price) := by
  have hprice : r.mirror.price = mirrorPrice r.price := rfl
  have hisBuy : r.mirror.isBuy = !r.isBuy := rfl
  have hside : (side = !r.isBuy) ↔ (!side) = r.isBuy := by
    cases side <;> cases r.isBuy <;> simp
  have hqueue : (l.mirror.remove r.mirror).queue (mirrorPrice r.price) (!r.isBuy) = [] ↔
      (l.remove r).queue r.price r.isBuy = [] := by
    rw [queue, orders_mirror_remove, ← queue, queue_mirror_eq_nil_iff, mirrorPrice_mirrorPrice,
      Bool.not_not]
  have hmirror : l.mirror.best (!r.isBuy) = (l.best r.isBuy).map mirrorPrice := by
    simp only [mirror, Bool.not_not]
  have hbest : (l.best r.isBuy).map mirrorPrice = some (mirrorPrice r.price) ↔
      l.best r.isBuy = some r.price :=
    (Option.map_injective mirrorPrice_injective).eq_iff' rfl
  rw [hprice, hisBuy, hqueue, hmirror, hbest, hside]

theorem mirror_remove (l : Ledger) (r : Resting) :
    l.mirror.remove r.mirror = (l.remove r).mirror := by
  apply Ledger.ext
  · rw [remove_capacity]
    exact (remove_capacity l r).symm
  · exact orders_mirror_remove l r
  · funext side
    have hcond := mirror_remove_looks_anew_iff l r side
    have hlevels : ((l.mirror.remove r.mirror).depth side).levels.head? =
        ((l.remove r).depth (!side)).levels.head?.map mirrorPrice := by
      have hsame : ((l.mirror.remove r.mirror).depth side).levels =
          ((l.remove r).mirror.depth side).levels := by
        unfold depth Depth.of prices queue
        rw [orders_mirror_remove]
      rw [hsame, levels_mirror, List.head?_map]
    rw [remove_best, hlevels]
    change _ = ((l.remove r).best (!side)).map mirrorPrice
    rw [remove_best l r (!side)]
    by_cases h : (!side) = r.isBuy ∧ (l.remove r).queue r.price r.isBuy = [] ∧
        l.best r.isBuy = some r.price
    · rw [if_pos (hcond.mpr h), if_pos h]
    · rw [if_neg fun e => h (hcond.mp e), if_neg h]
      rfl

theorem mirror_setShares (l : Ledger) (ref : OrderRef) (n : Shares) :
    l.mirror.setShares ref n = (l.setShares ref n).mirror := by
  unfold setShares mirror
  congr 1
  rw [List.map_map, List.map_map]
  refine List.map_congr_left fun r _ => ?_
  simp only [Function.comp_apply]
  change (if r.orderRef = ref then _ else _) = Resting.mirror (if r.orderRef = ref then _ else _)
  split <;> rfl

/-! ### Calls of the book -/

theorem add_mirror (l : Ledger) (r : Resting) :
    l.mirror.add r.mirror = ((l.add r).1, (l.add r).2.mirror) := by
  have hcond : (r.mirror.shares = 0 ∨ (l.mirror.find r.mirror.orderRef).isSome = true ∨
      l.mirror.orders.length = l.mirror.capacity) ↔
      (r.shares = 0 ∨ (l.find r.orderRef).isSome = true ∨ l.orders.length = l.capacity) := by
    rw [find_mirror]
    simp [mirror, Resting.mirror]
  unfold add
  by_cases h : r.shares = 0 ∨ (l.find r.orderRef).isSome = true ∨ l.orders.length = l.capacity
  · rw [if_pos (hcond.mpr h), if_pos h]
  · rw [if_neg fun e => h (hcond.mp e), if_neg h, mirror_append]

theorem reduce_mirror (l : Ledger) (ref : OrderRef) (delta : Shares) :
    l.mirror.reduce ref delta = ((l.reduce ref delta).1, (l.reduce ref delta).2.mirror) := by
  unfold reduce
  rw [find_mirror]
  cases l.find ref with
  | none => rfl
  | some r =>
    have hshares : r.mirror.shares = r.shares := rfl
    dsimp only [Option.map_some]
    rw [hshares]
    split
    · rfl
    · split
      · rw [mirror_remove]
      · rw [mirror_setShares]

theorem delete_mirror (l : Ledger) (ref : OrderRef) :
    l.mirror.delete ref = ((l.delete ref).1, (l.delete ref).2.mirror) := by
  unfold delete
  rw [find_mirror]
  cases l.find ref with
  | none => rfl
  | some r =>
    dsimp only [Option.map_some]
    rw [mirror_remove]

theorem replace_mirror (l : Ledger) (oldRef newRef : OrderRef) (newShares : Shares)
    (newPrice : Price4) :
    l.mirror.replace oldRef newRef newShares (mirrorPrice newPrice) =
      ((l.replace oldRef newRef newShares newPrice).1,
        (l.replace oldRef newRef newShares newPrice).2.mirror) := by
  unfold replace
  rw [find_mirror, find_mirror, Option.isSome_map]
  cases l.find oldRef with
  | none => rfl
  | some r =>
    dsimp only [Option.map_some]
    split
    · rfl
    · rw [mirror_remove, ← mirror_append]
      rfl

/-- **A call of the book, in the mirror.** -/
theorem step_mirror (l : Ledger) (op : Op) :
    l.mirror.step op.mirror = ((l.step op).1, (l.step op).2.mirror) := by
  cases op with
  | add ref price shares isBuy traderId => exact add_mirror l ⟨ref, price, shares, isBuy, traderId⟩
  | execute ref shares => exact reduce_mirror l ref shares
  | cancel ref shares => exact reduce_mirror l ref shares
  | delete ref => exact delete_mirror l ref
  | replace oldRef newRef newShares newPrice => exact replace_mirror l _ _ _ _

/-! ### Submitted orders -/

theorem route_mirror (l : Ledger) (side : Bool) :
    (l.mirror.depth side).route = (l.depth (!side)).route.map mirrorPrice := by
  have hbest : l.mirror.best side = (l.best (!side)).map mirrorPrice := rfl
  rw [route_depth, route_depth, levels_mirror, hbest]
  cases l.best (!side) with
  | none => rfl
  | some p =>
    dsimp only [Option.map_some]
    rw [List.map_cons, List.filter_map]
    simp [Function.comp_def, mirrorPrice_injective.eq_iff]

theorem dryRoute_mirror (l : Ledger) (side : Bool) :
    (l.mirror.depth side).dryRoute = (l.depth (!side)).dryRoute.map mirrorPrice := by
  have hbest : l.mirror.best side = (l.best (!side)).map mirrorPrice := rfl
  rw [dryRoute_depth, dryRoute_depth, levels_mirror, hbest]
  cases l.best (!side) with
  | none => rfl
  | some p =>
    dsimp only [Option.map_some]
    rw [List.map_cons, List.filter_map]
    simp [Function.comp_def, better_mirror]

variable {preventSelfTrade : Bool} {order : IncomingOrder}

/-- The queue the mirrored order meets at a mirrored price. -/
theorem depth_queue_mirror (l : Ledger) (order : IncomingOrder) (p : Price4) :
    (l.mirror.depth (!order.mirror.isBuy)).queue (mirrorPrice p) =
      ((l.depth (!order.isBuy)).queue p).map Resting.mirror := by
  change l.mirror.queue _ _ = (l.queue _ _).map _
  rw [queue_mirror, mirrorPrice_mirrorPrice]
  simp [IncomingOrder.mirror]

theorem reach_mirror (l : Ledger) (preventSelfTrade : Bool) (order : IncomingOrder) :
    l.mirror.reach preventSelfTrade order.mirror =
      (l.reach preventSelfTrade order).map Resting.mirror := by
  have halong : ∀ ps : List Price4,
      (l.mirror.depth (!order.mirror.isBuy)).reachAlong preventSelfTrade order.mirror
          (ps.map mirrorPrice) =
        ((l.depth (!order.isBuy)).reachAlong preventSelfTrade order ps).map Resting.mirror := by
    intro ps
    have heligible : Depth.eligibleFor preventSelfTrade order.mirror ∘ Resting.mirror =
        Depth.eligibleFor preventSelfTrade order :=
      funext fun r => eligibleFor_mirror preventSelfTrade order r
    induction ps with
    | nil => rfl
    | cons p ps ih =>
      rw [List.map_cons, Depth.reachAlong, Depth.reachAlong, crosses_mirror, depth_queue_mirror, ih,
        List.filter_map, List.all_map, heligible]
      split
      · rw [List.map_append]
        split <;> rfl
      · rfl
  have hroute : (l.mirror.depth (!order.mirror.isBuy)).route =
      (l.depth (!order.isBuy)).route.map mirrorPrice := by
    rw [route_mirror]
    simp [IncomingOrder.mirror]
  rw [reach, Depth.reach, hroute, halong]
  rfl

theorem available_mirror (l : Ledger) (preventSelfTrade : Bool) (order : IncomingOrder) :
    l.mirror.available preventSelfTrade order.mirror = l.available preventSelfTrade order := by
  have halong : ∀ (ps : List Price4) (total : Shares),
      (l.mirror.depth (!order.mirror.isBuy)).dryRun preventSelfTrade order.mirror
          (ps.map mirrorPrice) total =
        (l.depth (!order.isBuy)).dryRun preventSelfTrade order ps total := by
    intro ps
    induction ps with
    | nil => exact fun total => rfl
    | cons p ps ih =>
      intro total
      have hquantity : order.mirror.quantity = order.quantity := rfl
      have hsum : (((l.mirror.depth (!order.mirror.isBuy)).eligibleAt preventSelfTrade order.mirror
          (mirrorPrice p)).map Resting.shares).sum =
          (((l.depth (!order.isBuy)).eligibleAt preventSelfTrade order p).map
            Resting.shares).sum := by
        rw [Depth.eligibleAt, depth_queue_mirror, List.filter_map, List.map_map]
        rfl
      rw [List.map_cons, Depth.dryRun, Depth.dryRun, hquantity, crosses_mirror, hsum, ih]
  have hroute : (l.mirror.depth (!order.mirror.isBuy)).dryRoute =
      (l.depth (!order.isBuy)).dryRoute.map mirrorPrice := by
    rw [dryRoute_mirror]
    simp [IncomingOrder.mirror]
  rw [available, hroute, halong]
  rfl

/-- The fills of the mirrored order are the mirrored fills. -/
theorem taking_mirror (l : Ledger) (preventSelfTrade : Bool) (order : IncomingOrder) :
    l.mirror.taking preventSelfTrade order.mirror =
      (l.taking preventSelfTrade order).map fun f => (f.1.mirror, f.2) := by
  unfold taking
  rw [available_mirror]
  change (if order.type = .fok ∧ _ < order.quantity then _ else _) = _
  split
  · rfl
  · rw [fills, reach_mirror, greedy_map]
    rfl

theorem consume_mirror (l : Ledger) (fs : List (Resting × ℕ)) :
    l.mirror.consume (fs.map fun f => (f.1.mirror, f.2)) = (l.consume fs).mirror := by
  induction fs generalizing l with
  | nil => rfl
  | cons f fs ih =>
    unfold consume at ih ⊢
    rw [List.map_cons, List.foldl_cons, List.foldl_cons, ← ih]
    congr 1
    exact congrArg Prod.snd (reduce_mirror l f.1.orderRef (UInt32.ofNat f.2))

theorem settleRemainder_mirror (l : Ledger) (order : IncomingOrder) (n : ℕ) :
    l.mirror.settleRemainder order.mirror n =
      ((l.settleRemainder order n).1.map Event.mirror, (l.settleRemainder order n).2.mirror) := by
  unfold settleRemainder
  change (if n = 0 then _ else if order.type = .limit then _ else _) = _
  split
  · rfl
  · split
    · have hremainder : order.mirror.remainder n = (order.remainder n).mirror := rfl
      rw [hremainder, add_mirror]
      rfl
    · rfl

/-- **Submitting an order, in the mirror.** -/
theorem submit_mirror (l : Ledger) (preventSelfTrade : Bool) (order : IncomingOrder) :
    l.mirror.submit preventSelfTrade order.mirror =
      ((l.submit preventSelfTrade order).1.map Event.mirror,
        (l.submit preventSelfTrade order).2.mirror) := by
  have hamount : ∀ fs : List (Resting × ℕ),
      amount (fs.map fun f => (f.1.mirror, f.2)) = amount fs := by
    intro fs
    rw [amount, List.map_map]
    rfl
  have hquantity : order.mirror.quantity = order.quantity := rfl
  have hfill : ∀ f : Resting × ℕ,
      Event.fill (fillEvent order.mirror (f.1.mirror, f.2)) =
        (Event.fill (fillEvent order f)).mirror := fun f => rfl
  unfold submit
  dsimp only
  rw [taking_mirror, hamount, consume_mirror, hquantity, settleRemainder_mirror, List.map_append]
  simp only [List.map_map, Function.comp_def, hfill]

/-! ### Transcripts -/

theorem view_mirror (l : Ledger) : l.mirror.view = l.view.mirror := by
  apply View.ext
  · rfl
  · rfl
  · exact List.length_map _
  · funext p side
    exact total_mirror l p side
  · funext p side
    exact queue_mirror l p side
  · funext p side
    change (l.mirror.nextPriceAfter p side) =
      (l.nextPriceAfter (mirrorPrice p) (!side)).map mirrorPrice
    have hbetter : (better side p ∘ mirrorPrice) = better (!side) (mirrorPrice p) := by
      funext q
      rw [← better_mirror, mirrorPrice_mirrorPrice]
      rfl
    unfold nextPriceAfter
    rw [levels_mirror, List.filter_map, List.head?_map, hbetter]

theorem serve_mirror (l : Ledger) (c : Call) :
    l.mirror.serve c.mirror = ((l.serve c).1.mirror, (l.serve c).2.mirror) := by
  cases c with
  | book op =>
    change (Reply.result (l.mirror.step op.mirror).1, (l.mirror.step op.mirror).2) = _
    rw [step_mirror]
    rfl
  | submit preventSelfTrade order =>
    change (Reply.events (l.mirror.submit preventSelfTrade order.mirror).1,
      (l.mirror.submit preventSelfTrade order.mirror).2) = _
    rw [submit_mirror]
    rfl

theorem transcript_mirror (l : Ledger) (calls : List Call) :
    l.mirror.transcript (calls.map Call.mirror) =
      (l.transcript calls).map fun entry => (entry.1.mirror, entry.2.mirror) := by
  induction calls generalizing l with
  | nil => rfl
  | cons c calls ih =>
    rw [List.map_cons, transcript, transcript, serve_mirror, ih, List.map_cons, view_mirror]

end Ledger

/-- **Buying and selling are mirror images**: a book around the mirrored reference
price shows the mirror image of a new book, and the mirrored calls have the mirrored
transcript. -/
theorem mirror_symmetry (referencePrice : Price4) (halfWidth capacity : ℕ) (calls : List Call) :
    (new (mirrorPrice referencePrice) halfWidth capacity).view =
        (new referencePrice halfWidth capacity).view.mirror ∧
      ∃ replies, (new referencePrice halfWidth capacity).transcript calls = some replies ∧
        (new (mirrorPrice referencePrice) halfWidth capacity).transcript (calls.map Call.mirror) =
          some (replies.map fun entry => (entry.1.mirror, entry.2.mirror)) := by
  have h := refines_new referencePrice halfWidth capacity
  have h' := refines_new (mirrorPrice referencePrice) halfWidth capacity
  refine ⟨?_, (Ledger.new capacity).transcript calls, h.transcript calls, ?_⟩
  · rw [h.view_eq, h'.view_eq, ← Ledger.view_mirror, Ledger.mirror_new]
  · rw [h'.transcript, ← Ledger.transcript_mirror, Ledger.mirror_new]

end Liquibook
