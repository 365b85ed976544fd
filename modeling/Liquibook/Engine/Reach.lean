import Liquibook.Engine.MatchingEngine
import Liquibook.Spec.Exact

/-!
# What matching reaches

The loop of `execute_match` asks for the best level anew before every fill.  Seen
from one side of a ledger this is a walk along a fixed list of orders, which can be
read off before the first fill: `reach`.

The walk starts at the cached best price.  It stays there as long as orders are left
in the queue, and when the queue is empty it goes on at the best price with a total,
which is never the one just emptied.  So the prices are visited along `route`.  At
each of them the eligible orders are filled in queue order.  The walk ends at the
first price that does not cross, and it ends behind the first price at which an order
is blocked, since the blocked order keeps the queue from becoming empty.

## Main definitions

* `Depth.route` — the prices in the order in which matching visits them.
* `Depth.reach` — the orders that matching reaches, in the order of the fills.
* `Ledger.select` — the order the next fill is against.

## Main results

* `select_eq_head?` — the next fill is against the first order of the reach.
* `WF.reach_remove` — **filling the first order leaves the rest of the reach.**
* `WF.reach_setShares` — filling part of it leaves the reach with that order smaller.
-/

namespace Liquibook

open Lib OrderBook MatchingEngine

namespace Depth

variable (preventSelfTrade : Bool) (order : IncomingOrder) (d : Depth)

/-- The prices in the order in which matching visits them. -/
def route : List Price4 :=
  match d.best with
  | none => []
  | some p => p :: d.levels.filter fun q => decide (q ≠ p)

/-- The order is not blocked by self-trade prevention. -/
def eligibleFor (r : Resting) : Bool := eligible preventSelfTrade order r.traderId

/-- The orders that matching reaches along a list of prices. -/
def reachAlong : List Price4 → List Resting
  | [] => []
  | p :: ps =>
      if crosses order p then
        (d.queue p).filter (eligibleFor preventSelfTrade order) ++
          if (d.queue p).all (eligibleFor preventSelfTrade order) then reachAlong ps else []
      else []

/-- The orders that matching reaches, in the order of the fills. -/
def reach : List Resting := d.reachAlong preventSelfTrade order d.route

variable {preventSelfTrade order} {d} {d' : Depth}

/-- The reach depends on the queues along the route only. -/
theorem reachAlong_congr : ∀ {ps : List Price4}, (∀ p ∈ ps, d'.queue p = d.queue p) →
    d'.reachAlong preventSelfTrade order ps = d.reachAlong preventSelfTrade order ps := by
  intro ps
  induction ps with
  | nil => intro _; rfl
  | cons p ps ih =>
    intro h
    rw [reachAlong, reachAlong, h p List.mem_cons_self,
      ih fun q hq => h q (List.mem_cons_of_mem _ hq)]

theorem mem_reachAlong {r : Resting} : ∀ {ps : List Price4},
    r ∈ d.reachAlong preventSelfTrade order ps →
      ∃ p ∈ ps, r ∈ d.queue p ∧ crosses order p = true ∧
        eligibleFor preventSelfTrade order r = true := by
  intro ps
  induction ps with
  | nil => intro h; cases h
  | cons p ps ih =>
    intro h
    rw [reachAlong] at h
    split at h
    · next hc =>
      rcases List.mem_append.mp h with h | h
      · obtain ⟨hq, he⟩ := List.mem_filter.mp h
        exact ⟨p, List.mem_cons_self, hq, hc, he⟩
      · split at h
        · obtain ⟨p', hp', hrest⟩ := ih h
          exact ⟨p', List.mem_cons_of_mem _ hp', hrest⟩
        · cases h
    · cases h

end Depth

namespace Ledger

variable (preventSelfTrade : Bool) (order : IncomingOrder)

/-- The orders that matching reaches. -/
def reach (l : Ledger) : List Resting :=
  (l.depth !order.isBuy).reach preventSelfTrade order

/-- The order the next fill is against. -/
def select (l : Ledger) : Option Resting :=
  (l.best !order.isBuy).bind fun p =>
    if crosses order p then
      (l.queue p !order.isBuy).find? (Depth.eligibleFor preventSelfTrade order)
    else none

variable {preventSelfTrade order} {l : Ledger} {r : Resting} {p : Price4} {side : Bool}

theorem nodup_levels (l : Ledger) (side : Bool) : (l.depth side).levels.Nodup := nodup_rank _ _

theorem pairwise_levels (l : Ledger) (side : Bool) :
    (l.depth side).levels.Pairwise fun p q => better side p q = true :=
  pairwise_rank (ranking_better side) _

theorem route_depth (l : Ledger) (side : Bool) : (l.depth side).route =
    match l.best side with
    | none => []
    | some p => p :: (l.depth side).levels.filter fun q => decide (q ≠ p) := rfl

/-- The reach, with its first price taken apart. -/
theorem reach_eq (l : Ledger) (preventSelfTrade : Bool) (order : IncomingOrder) :
    l.reach preventSelfTrade order =
      match l.best !order.isBuy with
      | none => []
      | some p =>
          if crosses order p then
            (l.queue p !order.isBuy).filter (Depth.eligibleFor preventSelfTrade order) ++
              if (l.queue p !order.isBuy).all (Depth.eligibleFor preventSelfTrade order) then
                (l.depth !order.isBuy).reachAlong preventSelfTrade order
                  ((l.depth !order.isBuy).levels.filter fun q => decide (q ≠ p))
              else []
          else [] := by
  rw [reach, Depth.reach, route_depth]
  cases l.best !order.isBuy <;> rfl

theorem mem_reach (hr : r ∈ l.reach preventSelfTrade order) :
    r ∈ l.orders ∧ r.isBuy = !order.isBuy ∧ crosses order r.price = true ∧
      Depth.eligibleFor preventSelfTrade order r = true := by
  obtain ⟨p, -, hq, hc, he⟩ := Depth.mem_reachAlong hr
  obtain ⟨hmem, rfl, hs⟩ := mem_queue.mp hq
  exact ⟨hmem, hs, hc, he⟩

theorem nodup_route (l : Ledger) (side : Bool) : (l.depth side).route.Nodup := by
  rw [route_depth]
  cases l.best side with
  | none => exact List.nodup_nil
  | some p => exact List.nodup_cons.mpr ⟨by simp, (nodup_levels l side).filter _⟩

/-- No order is reached twice. -/
theorem WF.nodup_reach (h : WF l) (preventSelfTrade : Bool) (order : IncomingOrder) :
    ((l.reach preventSelfTrade order).map Resting.orderRef).Nodup := by
  have halong : ∀ ps : List Price4, ps.Nodup →
      ((l.depth !order.isBuy).reachAlong preventSelfTrade order ps).Nodup := by
    intro ps
    induction ps with
    | nil => exact fun _ => List.nodup_nil
    | cons p ps ih =>
      intro hnd
      rw [List.nodup_cons] at hnd
      rw [Depth.reachAlong]
      split
      · refine List.nodup_append.mpr ⟨(h.orders_nodup.filter _).filter _, ?_, ?_⟩
        · split
          · exact ih hnd.2
          · exact List.nodup_nil
        · rintro x hx y hy rfl
          split at hy
          · obtain ⟨p', hp', hq', -, -⟩ := Depth.mem_reachAlong hy
            have h1 := (mem_queue.mp (List.mem_filter.mp hx).1).2.1
            have h2 := (mem_queue.mp hq').2.1
            exact hnd.1 (h1.symm.trans h2 ▸ hp')
          · cases hy
      · exact List.nodup_nil
  refine (List.nodup_map_iff_inj_on (halong _ (nodup_route l _))).mpr ?_
  exact fun x hx y hy e => h.eq_of_ref (mem_reach hx).1 (mem_reach hy).1 e

/-- **The next fill** is against the first order of the reach. -/
theorem WF.select_eq_head? (h : WF l) :
    l.select preventSelfTrade order = (l.reach preventSelfTrade order).head? := by
  rw [reach_eq, select]
  cases hb : l.best !order.isBuy with
  | none => rfl
  | some p =>
    rw [Option.bind_some]
    dsimp only
    split
    · rw [← List.head?_filter]
      cases hf : (l.queue p !order.isBuy).filter (Depth.eligibleFor preventSelfTrade order) with
      | cons r rs => rfl
      | nil =>
        -- the queue is not empty, so an order in it is blocked
        rw [if_neg, List.append_nil]
        intro hall
        obtain ⟨x, hx⟩ := List.exists_mem_of_ne_nil _ (h.best_live _ p hb)
        exact List.filter_eq_nil_iff.mp hf x hx (List.all_eq_true.mp hall x hx)
    · rfl

/-- Removing an order leaves the queues of all other prices alone. -/
theorem WF.queue_remove_of_ne (h : WF l) (hr : r ∈ l.orders) (hp : p ≠ r.price) :
    (l.remove r).queue p side = l.queue p side := by
  rw [queue_remove]
  refine List.filter_eq_self.mpr fun x hx => ?_
  obtain ⟨hxl, hxp, -⟩ := mem_queue.mp hx
  rw [decide_eq_true_eq]
  exact fun e => hp (by rw [← hxp, h.eq_of_ref hxl hr e])

/-- Ledgers that differ in the queue of one price have the same levels elsewhere. -/
theorem levels_filter_ne {l' : Ledger} (h : ∀ q, q ≠ p → l'.queue q side = l.queue q side) :
    (l'.depth side).levels.filter (fun q => decide (q ≠ p)) =
      (l.depth side).levels.filter fun q => decide (q ≠ p) := by
  refine eq_of_pairwise_better (ranking_better side)
    ((pairwise_levels _ _).sublist List.filter_sublist)
    ((pairwise_levels _ _).sublist List.filter_sublist) fun q => ?_
  rw [List.mem_filter, List.mem_filter, mem_levels, mem_levels, decide_eq_true_eq]
  refine and_congr_left fun hq => ?_
  rw [total, total, h q hq]

/-- And the same is reached there. -/
theorem reachAlong_filter_ne {l' : Ledger} (h : ∀ q, q ≠ p → l'.queue q side = l.queue q side)
    (ps : List Price4) :
    (l'.depth side).reachAlong preventSelfTrade order (ps.filter fun q => decide (q ≠ p)) =
      (l.depth side).reachAlong preventSelfTrade order (ps.filter fun q => decide (q ≠ p)) :=
  Depth.reachAlong_congr fun q hq => h q (of_decide_eq_true (List.mem_filter.mp hq).2)

/-- Away from the price of the removed order the levels stay. -/
theorem WF.levels_remove (h : WF l) (hr : r ∈ l.orders) :
    ((l.remove r).depth r.isBuy).levels.filter (fun q => decide (q ≠ r.price)) =
      (l.depth r.isBuy).levels.filter fun q => decide (q ≠ r.price) :=
  levels_filter_ne fun _ => h.queue_remove_of_ne hr

/-- The route goes on at the cached price as long as orders are left there, and
behind it when they are not. -/
theorem WF.route_remove (h : WF l) (hr : r ∈ l.orders) (hb : l.best r.isBuy = some r.price) :
    ((l.remove r).depth r.isBuy).route =
      if (l.remove r).queue r.price r.isBuy = [] then
        (l.depth r.isBuy).levels.filter fun q => decide (q ≠ r.price)
      else r.price :: (l.depth r.isBuy).levels.filter fun q => decide (q ≠ r.price) := by
  have hbest := remove_best l r r.isBuy
  rw [route_depth]
  by_cases hq : (l.remove r).queue r.price r.isBuy = []
  · rw [if_pos ⟨rfl, hq, hb⟩] at hbest
    rw [if_pos hq, hbest, ← h.levels_remove hr]
    have hout : r.price ∉ ((l.remove r).depth r.isBuy).levels := fun hmem =>
      mem_levels.mp hmem (total_eq_zero_of_queue_eq_nil hq)
    have hnd := nodup_levels (l.remove r) r.isBuy
    rw [List.filter_eq_self.mpr fun q hmem => decide_eq_true (ne_of_mem_of_not_mem hmem hout)]
    cases hl : ((l.remove r).depth r.isBuy).levels with
    | nil => rfl
    | cons p ps =>
      rw [hl, List.nodup_cons] at hnd
      dsimp only [List.head?_cons]
      rw [List.filter_cons, if_neg (by simp),
        List.filter_eq_self.mpr fun q hmem => decide_eq_true (ne_of_mem_of_not_mem hmem hnd.1)]
  · rw [if_neg fun e => hq e.2.1, hb] at hbest
    rw [if_neg hq, hbest, ← h.levels_remove hr]

/-- The first order of the reach is the first eligible one at the cached price, and
the rest of the reach is what follows there and behind. -/
theorem WF.reach_cons (h : WF l) {rs : List Resting}
    (hreach : l.reach preventSelfTrade order = r :: rs) :
    l.best r.isBuy = some r.price ∧ crosses order r.price = true ∧
      ∃ es, (l.queue r.price r.isBuy).filter (Depth.eligibleFor preventSelfTrade order) = r :: es ∧
        rs = es ++
          if (l.queue r.price r.isBuy).all (Depth.eligibleFor preventSelfTrade order) then
            (l.depth r.isBuy).reachAlong preventSelfTrade order
              ((l.depth r.isBuy).levels.filter fun q => decide (q ≠ r.price))
          else [] := by
  obtain ⟨-, hside, -, -⟩ := mem_reach (hreach ▸ List.mem_cons_self : r ∈ l.reach _ _)
  rw [reach_eq, ← hside] at hreach
  cases hb : l.best r.isBuy with
  | none => rw [hb] at hreach; cases hreach
  | some p =>
    rw [hb] at hreach
    dsimp only at hreach
    by_cases hc : crosses order p = true
    · rw [if_pos hc] at hreach
      cases hf : (l.queue p r.isBuy).filter (Depth.eligibleFor preventSelfTrade order) with
      | nil =>
        -- an order at the cached price is blocked, so nothing would be reached
        obtain ⟨x, hx⟩ := List.exists_mem_of_ne_nil _ (h.best_live _ p hb)
        have hblocked := List.filter_eq_nil_iff.mp hf x hx
        rw [hf, if_neg fun hall => hblocked (List.all_eq_true.mp hall x hx)] at hreach
        cases hreach
      | cons x es =>
        rw [hf, List.cons_append] at hreach
        obtain ⟨rfl, hrs⟩ := List.cons.inj hreach
        have hx : x ∈ l.queue p x.isBuy := (List.mem_filter.mp (hf ▸ List.mem_cons_self)).1
        obtain ⟨-, rfl, -⟩ := mem_queue.mp hx
        exact ⟨rfl, hc, es, hf, hrs.symm⟩
    · rw [if_neg hc] at hreach
      cases hreach

/-- The eligible orders behind the first one have other references. -/
theorem WF.ref_ne_of_mem_tail (h : WF l) {es : List Resting}
    (hes : (l.queue r.price r.isBuy).filter (Depth.eligibleFor preventSelfTrade order) = r :: es) :
    ∀ x ∈ es, x.orderRef ≠ r.orderRef := by
  intro x hx e
  have hnd : ((l.queue r.price r.isBuy).filter
      (Depth.eligibleFor preventSelfTrade order)).Nodup := (h.orders_nodup.filter _).filter _
  rw [hes, List.nodup_cons] at hnd
  have hr := (List.mem_filter.mp (hes ▸ List.mem_cons_self : r ∈ _)).1
  have hxq := (List.mem_filter.mp (hes ▸ List.mem_cons_of_mem r hx)).1
  exact hnd.1 (h.eq_of_ref (mem_queue.mp hxq).1 (mem_queue.mp hr).1 e ▸ hx)

/-- What is left of a queue when its first eligible order is removed. -/
theorem WF.queue_remove_first (h : WF l) {es : List Resting}
    (hes : (l.queue r.price r.isBuy).filter (Depth.eligibleFor preventSelfTrade order) = r :: es) :
    ((l.remove r).queue r.price r.isBuy).filter (Depth.eligibleFor preventSelfTrade order) = es ∧
      ((l.remove r).queue r.price r.isBuy).all (Depth.eligibleFor preventSelfTrade order) =
        (l.queue r.price r.isBuy).all (Depth.eligibleFor preventSelfTrade order) := by
  have hrq := List.mem_filter.mp (hes ▸ List.mem_cons_self : r ∈ _)
  have hr : r ∈ l.orders := (mem_queue.mp hrq.1).1
  rw [queue_remove]
  constructor
  · rw [List.filter_comm, hes, List.filter_cons, if_neg (by simp)]
    exact List.filter_eq_self.mpr fun x hx => decide_eq_true (h.ref_ne_of_mem_tail hes x hx)
  · rw [Bool.eq_iff_iff, List.all_eq_true, List.all_eq_true]
    constructor
    · intro ha x hx
      by_cases hxr : x.orderRef = r.orderRef
      · rw [h.eq_of_ref (mem_queue.mp hx).1 hr hxr]
        exact hrq.2
      · exact ha x (List.mem_filter.mpr ⟨hx, decide_eq_true hxr⟩)
    · exact fun ha x hx => ha x (List.mem_filter.mp hx).1

/-- **Filling the first order leaves the rest of the reach.** -/
theorem WF.reach_remove (h : WF l) {rs : List Resting}
    (hreach : l.reach preventSelfTrade order = r :: rs) :
    (l.remove r).reach preventSelfTrade order = rs := by
  obtain ⟨hr, hside, -, -⟩ := mem_reach (hreach ▸ List.mem_cons_self : r ∈ l.reach _ _)
  obtain ⟨hb, hc, es, hes, hrs⟩ := h.reach_cons hreach
  obtain ⟨hfilter, hall⟩ := h.queue_remove_first hes
  have hother : ∀ q, q ≠ r.price → (l.remove r).queue q r.isBuy = l.queue q r.isBuy := fun q =>
    h.queue_remove_of_ne hr
  rw [reach, Depth.reach, ← hside, h.route_remove hr hb, hrs, ← hall, ← hfilter]
  by_cases hempty : (l.remove r).queue r.price r.isBuy = []
  · rw [if_pos hempty, reachAlong_filter_ne hother, hempty]
    simp
  · rw [if_neg hempty, Depth.reachAlong, if_pos hc, reachAlong_filter_ne hother]
    rfl

/-! ### A fill of part of an order -/

/-- Changing the shares of an order leaves the queues of all other prices alone. -/
theorem WF.queue_setShares_of_ne (h : WF l) (hr : r ∈ l.orders) {n : Shares} (hp : p ≠ r.price) :
    (l.setShares r.orderRef n).queue p side = l.queue p side := by
  rw [queue_setShares]
  refine (List.map_congr_left fun x hx => ?_).trans (List.map_id _)
  obtain ⟨hxl, hxp, -⟩ := mem_queue.mp hx
  rw [if_neg fun e => hp (by rw [← hxp, h.eq_of_ref hxl hr e])]
  rfl

/-- The queue at its price, when the shares of its first eligible order change. -/
theorem WF.queue_setShares_first (h : WF l) {es : List Resting} (n : Shares)
    (hes : (l.queue r.price r.isBuy).filter (Depth.eligibleFor preventSelfTrade order) = r :: es) :
    ((l.setShares r.orderRef n).queue r.price r.isBuy).filter
        (Depth.eligibleFor preventSelfTrade order) = { r with shares := n } :: es ∧
      ((l.setShares r.orderRef n).queue r.price r.isBuy).all
          (Depth.eligibleFor preventSelfTrade order) =
        (l.queue r.price r.isBuy).all (Depth.eligibleFor preventSelfTrade order) := by
  -- the trader of an order stays
  have helig : ∀ x : Resting, Depth.eligibleFor preventSelfTrade order
      (if x.orderRef = r.orderRef then { x with shares := n } else x) =
        Depth.eligibleFor preventSelfTrade order x := by
    intro x
    split <;> rfl
  rw [queue_setShares]
  constructor
  · rw [List.filter_map]
    simp only [Function.comp_def, helig]
    rw [hes, List.map_cons, if_pos rfl]
    congr 1
    refine (List.map_congr_left fun x hx => ?_).trans (List.map_id _)
    rw [if_neg (h.ref_ne_of_mem_tail hes x hx)]
    rfl
  · rw [List.all_map]
    simp only [Function.comp_def, helig]

/-- **Filling part of the first order leaves the reach**, with that order smaller. -/
theorem WF.reach_setShares (h : WF l) {rs : List Resting}
    (hreach : l.reach preventSelfTrade order = r :: rs) (n : Shares) :
    (l.setShares r.orderRef n).reach preventSelfTrade order = { r with shares := n } :: rs := by
  obtain ⟨hr, hside, -, -⟩ := mem_reach (hreach ▸ List.mem_cons_self : r ∈ l.reach _ _)
  obtain ⟨hb, hc, es, hes, hrs⟩ := h.reach_cons hreach
  obtain ⟨hfilter, hall⟩ := h.queue_setShares_first n hes
  have hbest : (l.setShares r.orderRef n).best r.isBuy = some r.price := hb
  have hother : ∀ q, q ≠ r.price →
      (l.setShares r.orderRef n).queue q r.isBuy = l.queue q r.isBuy := fun q =>
    h.queue_setShares_of_ne hr
  rw [reach_eq, ← hside, hbest]
  dsimp only
  rw [if_pos hc, hfilter, hall, levels_filter_ne hother, reachAlong_filter_ne hother, hrs]
  rfl

end Ledger
end Liquibook
