import Liquibook.Engine.Outcome

/-!
# Fill-or-kill orders

A fill-or-kill order is to be filled whole or not at all.  `submit` makes sure of it
by a dry run, and the dry run counts what matching reaches, except when self-trade
prevention applies: the dry run passes a level at which an order is blocked and goes
on behind it, and matching does not.  If what matching reaches is something, but less
than the quantity, and the dry run makes up for the rest behind such a level, the
order is filled in part and the rest of it killed.

## Main definitions

* `AllOrNothing` — the order is filled whole, or killed with nothing changed.
* `Depth.Strands` — the state in which it is neither.

## Main results

* `fillOrKill_allOrNothing_iff` — **it is all or nothing exactly when it does not strand.**
* `fillOrKill_strands` — a book and an order that strands.
-/

namespace Liquibook

open Lib OrderBook MatchingEngine

/-- The kills among the events. -/
def killsOf (events : List Event) : List KillEvent :=
  events.filterMap fun
    | .kill e => some e
    | _ => none

/-- The order is filled whole, or it is killed with nothing filled and the book as it
was. -/
def AllOrNothing (b : OrderBook) (order : IncomingOrder) (events : List Event) (b' : OrderBook) :
    Prop :=
  (((fillsOf events).map fun e => e.quantity.toNat).sum = order.quantity.toNat ∧
      killsOf events = []) ∨
    (fillsOf events = [] ∧ (∃ e, killsOf events = [e] ∧ e.unfilledQuantity = order.quantity) ∧
      b' = b)

/-- Self-trade prevention applies, the dry run covers the quantity, and what matching
reaches is something but less than the quantity.  The first of these follows from the others
(`Ledger.prevents_of_short`); it is kept because it says which orders can strand at all. -/
def Depth.Strands (preventSelfTrade : Bool) (order : IncomingOrder) (d : Depth) : Prop :=
  (preventSelfTrade = true ∧ order.traderId ≠ 0) ∧ d.Covers preventSelfTrade order ∧
    0 < sharesOf (d.reach preventSelfTrade order) ∧
    sharesOf (d.reach preventSelfTrade order) < order.quantity.toNat

variable {b : OrderBook} {preventSelfTrade : Bool} {order : IncomingOrder}

theorem killsOf_events (order : IncomingOrder) (fs : List (Resting × ℕ)) (n : ℕ) :
    killsOf ((fs.map (fillEvent order)).map .fill ++ remainderEvents order n) =
      killsOf (remainderEvents order n) := by
  have hhead : ∀ es : List FillEvent, killsOf (es.map .fill) = [] := by
    intro es
    unfold killsOf
    rw [List.filterMap_map]
    exact List.filterMap_eq_nil_iff.mpr fun _ _ => rfl
  have happ : ∀ es es', killsOf (es ++ es') = killsOf es ++ killsOf es' := by
    intro es es'
    exact List.filterMap_append
  rw [happ, hhead, List.nil_append]

theorem replays_nil {b b' : OrderBook} (h : Replays b [] b') : b' = b := by
  cases h
  rfl

theorem remainderEvents_fok (htype : order.type = .fok) {n : ℕ} (hn : n ≠ 0) :
    remainderEvents order n =
      [.kill { orderRef := order.orderRef, unfilledQuantity := UInt32.ofNat n }] := by
  rw [remainderEvents, if_neg hn, if_neg (by rw [htype]; simp)]

/-- Whether the outcome is all or nothing, by the amount that is taken. -/
theorem allOrNothing_iff_amount {l : Ledger} {fs : List (Resting × ℕ)} (ht : l.Takes fs)
    (htype : order.type = .fok) (hq : 0 < order.quantity.toNat)
    (hle : amount fs ≤ order.quantity.toNat) {b' : OrderBook}
    (hreplay : Replays b (fs.map (fillEvent order)) b') {events : List Event}
    (hevents : events = (fs.map (fillEvent order)).map .fill ++
      remainderEvents order (order.quantity.toNat - amount fs)) :
    AllOrNothing b order events b' ↔ amount fs = order.quantity.toNat ∨ amount fs = 0 := by
  have hfills : fillsOf events = fs.map (fillEvent order) := by rw [hevents, fillsOf_events]
  have hkills : killsOf events =
      killsOf (remainderEvents order (order.quantity.toNat - amount fs)) := by
    rw [hevents, killsOf_events]
  have hsum : ((fillsOf events).map fun e => e.quantity.toNat).sum = amount fs := by
    rw [hevents, ht.sum_fillsOf]
  have hnil : amount fs = 0 → fs = [] := by
    intro h0
    cases fs with
    | nil => rfl
    | cons f fs =>
      have := ht.pos f List.mem_cons_self
      rw [amount, List.map_cons, List.sum_cons] at h0
      omega
  unfold AllOrNothing
  rw [hsum, hkills, hfills]
  constructor
  · rintro (⟨hall, -⟩ | ⟨hnone, -⟩)
    · exact Or.inl hall
    · rw [List.map_eq_nil_iff.mp hnone]
      exact Or.inr rfl
  · rintro (hall | hnone)
    · refine Or.inl ⟨hall, ?_⟩
      rw [hall, Nat.sub_self]
      rfl
    · rw [hnil hnone, List.map_nil] at hreplay
      have hkill := remainderEvents_fok htype hq.ne'
      rw [UInt32.ofNat_toNat] at hkill
      rw [hnone, Nat.sub_zero, hkill, hnil hnone]
      exact Or.inr ⟨rfl, ⟨_, rfl, rfl⟩, replays_nil hreplay⟩

/-- Matching falls short of what the dry run counts only if self-trade prevention applies. -/
theorem Ledger.prevents_of_short {l : Ledger}
    (hc : (l.depth !order.isBuy).Covers preventSelfTrade order)
    (hlt : sharesOf (l.reach preventSelfTrade order) < order.quantity.toNat) :
    preventSelfTrade = true ∧ order.traderId ≠ 0 := by
  by_contra hno
  refine absurd (Ledger.le_sharesOf_reach ?_ hc) (Nat.not_le.mpr hlt)
  rw [not_and_or, Bool.not_eq_true, not_not] at hno
  exact hno

/-- **A fill-or-kill order is filled whole or not at all exactly when it does not
strand.** -/
theorem fillOrKill_allOrNothing_iff (hb : Reachable b) (htype : order.type = .fok)
    (hq : 0 < order.quantity) :
    ∃ events b', submit preventSelfTrade b order = some (events, b') ∧
      (AllOrNothing b order events b' ↔
        ¬ (b.depth !order.isBuy).Strands preventSelfTrade order) := by
  obtain ⟨l, h⟩ := hb.refines
  obtain ⟨b₁, b', hsub, hreplay, hb', -, -, -⟩ := h.submit_seen preventSelfTrade order rfl
  have hqpos : 0 < order.quantity.toNat := UInt32.lt_iff_toNat_lt.mp hq
  have hsame : b' = b₁ := by
    rw [hb', settled, if_neg fun e => by rw [htype] at e; cases e.1]
  rw [← hsame] at hreplay
  refine ⟨_, b', hsub, ?_⟩
  rw [allOrNothing_iff_amount (h.wf.takes_taking preventSelfTrade order) htype hqpos
    (l.amount_taking_le preventSelfTrade order) hreplay rfl, h.depth_eq]
  by_cases hc : (l.depth !order.isBuy).Covers preventSelfTrade order
  · -- the order goes on to match: what it takes is all it wants, or all that is reached
    have htake : amount (l.taking preventSelfTrade order) =
        min order.quantity.toNat (sharesOf (l.reach preventSelfTrade order)) := by
      rw [Ledger.taking_of_covers hc, amount_fills]
    rw [htake]
    constructor
    · rintro hamount ⟨-, -, hpos, hlt⟩
      change 0 < sharesOf (l.reach preventSelfTrade order) at hpos
      change sharesOf (l.reach preventSelfTrade order) < _ at hlt
      omega
    · intro hno
      by_contra hamount
      refine hno ⟨Ledger.prevents_of_short hc ?_, hc, ?_, ?_⟩
      · omega
      · change 0 < sharesOf (l.reach preventSelfTrade order)
        omega
      · change sharesOf (l.reach preventSelfTrade order) < _
        omega
  · -- the order is killed before it matches
    rw [Ledger.taking_of_not_covers htype hc]
    exact ⟨fun _ e => hc e.2.1, fun _ => Or.inr rfl⟩

/-- Asks of 50 shares at three prices, the one in the middle of trader 9. -/
def blockedBook : OrderBook :=
  (OrderBook.new 1000 3 8).run
    [.add 1 1000 50 false 0, .add 2 1002 50 false 9, .add 3 1010 50 false 0]

theorem reachable_blockedBook : Reachable blockedBook := reachable_run 1000 3 8 _

/-- **A fill-or-kill order that strands**: trader 9 buys 100 shares at any of the
three prices.  The dry run counts the 50 shares behind its own order, matching stops
at it, and 50 of the 100 shares are filled. -/
theorem fillOrKill_strands :
    Reachable blockedBook ∧ ∃ events b',
      submit true blockedBook ⟨4, 1010, 100, true, .fok, 9⟩ = some (events, b') ∧
        ¬ AllOrNothing blockedBook ⟨4, 1010, 100, true, .fok, 9⟩ events b' := by
  obtain ⟨events, b', hsub⟩ : ∃ events b',
      submit true blockedBook ⟨4, 1010, 100, true, .fok, 9⟩ = some (events, b') :=
    ⟨_, _, rfl⟩
  have hevents : (submit true blockedBook ⟨4, 1010, 100, true, .fok, 9⟩).map Prod.fst =
      some [.fill ⟨4, 1, 1000, 50⟩, .kill ⟨4, 50⟩] := by decide +kernel
  rw [hsub, Option.map_some, Option.some.injEq] at hevents
  dsimp only at hevents
  refine ⟨reachable_blockedBook, events, b', hsub, ?_⟩
  rw [hevents]
  rintro (⟨hall, -⟩ | ⟨hnone, -⟩)
  · exact absurd hall (by decide)
  · exact absurd hnone (by decide)

/-- An order of another trader is filled whole. -/
theorem fillOrKill_allOrNothing_other :
    ∃ events b', submit true blockedBook ⟨4, 1010, 100, true, .fok, 0⟩ = some (events, b') ∧
      AllOrNothing blockedBook ⟨4, 1010, 100, true, .fok, 0⟩ events b' := by
  obtain ⟨events, b', hsub, hiff⟩ :=
    @fillOrKill_allOrNothing_iff _ true ⟨4, 1010, 100, true, .fok, 0⟩ reachable_blockedBook rfl
      (by decide)
  exact ⟨events, b', hsub, hiff.mpr fun e => e.1.2 rfl⟩

end Liquibook
