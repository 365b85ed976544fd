import Liquibook.Book.Consistency

/-!
# When the totals of the levels are exact

The share total of a level side is a 32-bit counter, and the scans for a best price
take a level whose counter is zero for an empty one.  So the book is exact as long as
the shares that rest at one price and side fit in the counter, and no longer: two
orders of `2 ^ 31` shares at one price leave a total of zero, and the level is passed
over although both orders rest there.

Whether a call keeps the counters exact can be told before it is made.  Only a call
that lets an order rest can make a counter wrap, and it does if the new shares do not
fit on top of those that rest at the price already.

## Main definitions

* `EveryStep`, `EveryState` — what is asked of the steps and of the states of a run.
* `OrderBook.TotalsExact` — the totals and the best prices are those of the orders.
* `Op.Fits` — the shares that a call lets rest fit in the counter.

## Main results

* `totals_exact_iff` — **a run is exact in every state if and only if every step fits.**
-/

namespace Liquibook

open Lib OrderBook

/-- Every call of a run satisfies `P` in the state in which it is made. -/
def EveryStep (P : OrderBook → Op → Prop) : OrderBook → List Op → Prop
  | _, [] => True
  | b, op :: ops => P b op ∧ EveryStep P (b.step op).2 ops

/-- Every state of a run satisfies `P`, the first and the last included. -/
def EveryState (P : OrderBook → Prop) : OrderBook → List Op → Prop
  | b, [] => P b
  | b, op :: ops => P b ∧ EveryState P (b.step op).2 ops

/-- The call is accepted. -/
def OrderBook.Accepts (b : OrderBook) (op : Op) : Prop := (b.step op).1 = true

/-- The totals and the best prices are those of the live orders. -/
structure OrderBook.TotalsExact (b : OrderBook) : Prop where
  shares : ∀ p side, (b.sharesAt p side).toNat = b.levelSum p side
  level : ∀ ptr ∈ b.levelPtrs, ∀ side,
    (b.level (some ptr)).total side = 0 ↔ ((b.level (some ptr)).queue side).empty = true
  bid : ∀ p, b.bestBid = some p ↔
    (∃ r ∈ b.liveOrders, r.isBuy = true ∧ r.price = p) ∧
      ∀ r ∈ b.liveOrders, r.isBuy = true → r.price ≤ p
  noBid : b.bestBid = none ↔ ∀ r ∈ b.liveOrders, r.isBuy = false
  ask : ∀ p, b.bestAsk = some p ↔
    (∃ r ∈ b.liveOrders, r.isBuy = false ∧ r.price = p) ∧
      ∀ r ∈ b.liveOrders, r.isBuy = false → p ≤ r.price
  noAsk : b.bestAsk = none ↔ ∀ r ∈ b.liveOrders, r.isBuy = true

/-- The shares that rest at a price and side, without those of the order `ref`. -/
def OrderBook.levelSumWithout (b : OrderBook) (ref : OrderRef) (p : Price4) (side : Bool) : ℕ :=
  sharesOf ((b.liveOrders.filter fun r => decide (r.price = p ∧ r.isBuy = side)).filter
    fun r => decide (r.orderRef ≠ ref))

/-- The shares that the call lets rest fit in the counter of their level. -/
def Op.Fits (b : OrderBook) : Op → Prop
  | .add _ price shares isBuy _ => b.levelSum price isBuy + shares.toNat < 2 ^ 32
  | .replace oldRef _ newShares newPrice => ∀ r ∈ b.liveOrders, r.orderRef = oldRef →
      b.levelSumWithout oldRef newPrice r.isBuy + newShares.toNat < 2 ^ 32
  | _ => True

/-! ### A state -/

section State

variable {b : OrderBook} {l : Ledger} {side : Bool}

/-- The cached price of a side, when it is exact. -/
theorem Ledger.Exact.best_eq_some_iff (h : l.Exact) (side : Bool) (p : Price4) :
    l.best side = some p ↔ (∃ r ∈ l.orders, r.isBuy = side ∧ r.price = p) ∧
      ∀ r ∈ l.orders, r.isBuy = side → better side r.price p = false := by
  have hqueue : ∀ q, l.queue q side ≠ [] ↔ ∃ r ∈ l.orders, r.isBuy = side ∧ r.price = q := by
    intro q
    constructor
    · intro hq
      obtain ⟨r, hr⟩ := List.exists_mem_of_ne_nil _ hq
      obtain ⟨hmem, hp, hs⟩ := Ledger.mem_queue.mp hr
      exact ⟨r, hmem, hs, hp⟩
    · rintro ⟨r, hr, rfl, rfl⟩
      exact List.ne_nil_of_mem (Ledger.mem_queue_self hr)
  have hbest : IsBest (fun p q => better side p q = true)
      (fun q => ∃ r ∈ l.orders, r.isBuy = side ∧ r.price = q) (l.best side) :=
    (h side).congr hqueue
  constructor
  · intro e
    rw [e] at hbest
    refine ⟨hbest.1, fun r hr hs => ?_⟩
    apply Bool.eq_false_iff.mpr
    exact hbest.2 r.price ⟨r, hr, hs, rfl⟩
  · rintro ⟨hex, hall⟩
    apply hbest.unique (ranking_better side)
    refine ⟨hex, ?_⟩
    rintro q ⟨r, hr, hs, rfl⟩
    simp [hall r hr hs]

theorem Ledger.Exact.best_eq_none_iff (h : l.Exact) (side : Bool) :
    l.best side = none ↔ ∀ r ∈ l.orders, r.isBuy ≠ side := by
  have hs := h side
  constructor
  · intro e r hr hside
    rw [e] at hs
    subst hside
    exact hs r.price (List.ne_nil_of_mem (Ledger.mem_queue_self hr))
  · intro hall
    cases hb : l.best side with
    | none => rfl
    | some p =>
      rw [hb] at hs
      obtain ⟨r, hr⟩ := List.exists_mem_of_ne_nil _ hs.1
      obtain ⟨hmem, -, hside⟩ := Ledger.mem_queue.mp hr
      exact absurd hside (hall r hmem)

namespace OrderBook

/-- The counter of a level is zero exactly when its queue is empty, if no sum wraps. -/
theorem Refines.total_eq_zero_iff (h : Refines b l) (hb : l.Bounded) {ptr : LevelPtr}
    (hptr : ptr ∈ b.levelPtrs) (side : Bool) :
    (b.level (some ptr)).total side = 0 ↔ ((b.level (some ptr)).queue side).empty = true := by
  obtain ⟨live, free, hsh, rfl, hwf⟩ := h
  rcases hsh.queued.levels.levelPtr_cases hptr with ⟨p, -, rfl⟩ | ⟨-, hempty⟩
  · have htotal := hsh.total_ledgerOf p side
    have hqueue := hsh.queued.queue p side
    rw [levelAt] at htotal hqueue
    rw [← htotal, hqueue.empty_iff, ← not_iff_not, ← ne_eq, hwf.total_ne_zero_iff hb,
      Shape.queue_ledgerOf, ne_eq, List.map_eq_nil_iff]
  · rw [(hempty side).1, (hempty side).2]
    exact ⟨fun _ => rfl, fun _ => rfl⟩

/-- Without wrapping and with exact best prices, the book is exact. -/
theorem Refines.totalsExact (h : Refines b l) (hb : l.Bounded) (he : l.Exact) :
    TotalsExact b where
  shares := by
    intro p side
    rw [h.sharesAt_eq, hb.toNat_total, h.levelSum_eq]
  level := fun ptr hptr side => h.total_eq_zero_iff hb hptr side
  bid := by
    intro p
    have hbest := he.best_eq_some_iff true p
    rw [← h.bestBid_eq] at hbest
    simpa [better, h.mem_liveOrders] using hbest
  noBid := by
    have hbest := he.best_eq_none_iff true
    rw [← h.bestBid_eq] at hbest
    simpa [h.mem_liveOrders] using hbest
  ask := by
    intro p
    have hbest := he.best_eq_some_iff false p
    rw [← h.bestAsk_eq] at hbest
    simpa [better, h.mem_liveOrders] using hbest
  noAsk := by
    have hbest := he.best_eq_none_iff false
    rw [← h.bestAsk_eq] at hbest
    simpa [h.mem_liveOrders] using hbest

/-- Totals that are the sums of the shares have not wrapped. -/
theorem TotalsExact.levelSumsBounded (h : TotalsExact b) : LevelSumsBounded b := by
  intro p side
  rw [← h.shares]
  exact UInt32.toNat_lt _

end OrderBook
end State

/-! ### A step -/

namespace Ledger

variable {l : Ledger} {r : Resting}

/-- An order that arrives wraps no total but the one it rests at. -/
theorem Bounded.append_iff (hb : l.Bounded) : (l.append r).Bounded ↔
    sharesOf (l.queue r.price r.isBuy) + r.shares.toNat < 2 ^ 32 := by
  have hone : sharesOf [r] = r.shares.toNat := by simp [sharesOf]
  constructor
  · intro h
    have := h r.price r.isBuy
    rwa [queue_append, if_pos ⟨rfl, rfl⟩, sharesOf_append, hone] at this
  · intro h p side
    rw [queue_append, sharesOf_append]
    split
    · next e =>
      obtain ⟨rfl, rfl⟩ := e
      rwa [hone]
    · simpa [sharesOf] using hb p side

end Ledger

namespace OrderBook

variable {b : OrderBook} {l : Ledger}

theorem Refines.levelSumWithout_eq (h : Refines b l) (ref : OrderRef) (p : Price4) (side : Bool) :
    b.levelSumWithout ref p side =
      sharesOf ((l.queue p side).filter fun r => decide (r.orderRef ≠ ref)) :=
  (((h.liveOrders_perm.filter _).filter _).map _).sum_eq

/-- **An accepted call fits exactly when it makes no total wrap.** -/
theorem Refines.fits_iff (h : Refines b l) (hb : l.Bounded) {op : Op} (hok : b.Accepts op) :
    op.Fits b ↔ (l.step op).2.Bounded := by
  rw [Accepts, (h.step op).result] at hok
  cases op with
  | add ref price shares isBuy traderId =>
    unfold Ledger.step Ledger.add at hok ⊢
    dsimp only at hok ⊢
    split at hok
    · cases hok
    · next hc => rw [if_neg hc, hb.append_iff, Op.Fits, h.levelSum_eq]
  | execute ref shares => exact ⟨fun _ => hb.reduce h.wf ref shares, fun _ => trivial⟩
  | cancel ref shares => exact ⟨fun _ => hb.reduce h.wf ref shares, fun _ => trivial⟩
  | delete ref =>
    refine ⟨fun _ => ?_, fun _ => trivial⟩
    unfold Ledger.step Ledger.delete
    dsimp only
    cases l.find ref with
    | none => exact hb
    | some r => exact hb.remove r
  | replace oldRef newRef newShares newPrice =>
    unfold Ledger.step Ledger.replace at hok ⊢
    dsimp only at hok ⊢
    cases hf : l.find oldRef with
    | none => rw [hf] at hok; cases hok
    | some r =>
      rw [hf] at hok
      obtain ⟨hr, rfl⟩ := Ledger.mem_of_find hf
      dsimp only at hok ⊢
      split at hok
      · cases hok
      · next hc =>
        rw [if_neg hc, (hb.remove r).append_iff, Ledger.queue_remove]
        unfold Op.Fits
        constructor
        · intro hfit
          rw [← h.levelSumWithout_eq]
          exact hfit r (h.mem_liveOrders.mpr hr) rfl
        · intro hsum x hx href
          rw [h.wf.eq_of_ref (h.mem_liveOrders.mp hx) hr href, h.levelSumWithout_eq]
          exact hsum

end OrderBook

/-! ### A run -/

theorem EveryState.head {P : OrderBook → Prop} {b : OrderBook} {ops : List Op}
    (h : EveryState P b ops) : P b := by
  cases ops with
  | nil => exact h
  | cons op ops => exact h.1

/-- From an exact book on, the states stay exact as long as the steps fit. -/
theorem OrderBook.Refines.everyState_iff {b : OrderBook} {l : Ledger} (h : Refines b l)
    (hb : l.Bounded) (he : l.Exact) {ops : List Op} (hok : EveryStep Accepts b ops) :
    EveryState TotalsExact b ops ↔ EveryStep (fun b op => op.Fits b) b ops := by
  induction ops generalizing b l with
  | nil => exact ⟨fun _ => trivial, fun _ => h.totalsExact hb he⟩
  | cons op ops ih =>
    obtain ⟨hop, hops⟩ := hok
    have h' := (h.step op).refines
    have he' := he.change h.wf hb (Ledger.change_step h.wf op)
    constructor
    · rintro ⟨-, hstates⟩
      -- the next state is exact, so none of its sums has wrapped
      have hb' := h'.bounded_iff.mp hstates.head.levelSumsBounded
      exact ⟨(h.fits_iff hb hop).mpr hb', (ih h' hb' he' hops).mp hstates⟩
    · rintro ⟨hfit, hsteps⟩
      have hb' := (h.fits_iff hb hop).mp hfit
      exact ⟨h.totalsExact hb he, (ih h' hb' he' hops).mpr hsteps⟩

/-- **A run of accepted calls is exact in every state if and only if every step fits.** -/
theorem totals_exact_iff (referencePrice : Price4) (halfWidth capacity : ℕ) {ops : List Op}
    (hok : EveryStep Accepts (new referencePrice halfWidth capacity) ops) :
    EveryState TotalsExact (new referencePrice halfWidth capacity) ops ↔
      EveryStep (fun b op => op.Fits b) (new referencePrice halfWidth capacity) ops := by
  apply (refines_new referencePrice halfWidth capacity).everyState_iff
  · exact Ledger.bounded_new capacity
  · exact Ledger.exact_new capacity
  · exact hok

/-- Two orders at one price, and one at a better price that is then executed whole, so that the
best price is looked for anew.  One of the two is replaced. -/
def exactRun : List Op :=
  [.add 1 1000 50 true 0, .add 2 1000 30 true 0, .add 3 1001 20 true 0, .execute 3 20,
    .replace 1 4 40 999]

theorem totals_exact_best_removed :
    EveryState TotalsExact (new 1000 2 4) exactRun ∧
      ((new 1000 2 4).run exactRun).bestBid = some 1000 := by
  have hok : EveryStep Accepts (new 1000 2 4) exactRun := by
    refine ⟨rfl, rfl, rfl, ?_, ?_, trivial⟩
    · change (((new 1000 2 4).run (exactRun.take 3)).step (.execute 3 20)).1 = true
      decide +kernel
    · change (((new 1000 2 4).run (exactRun.take 4)).step (.replace 1 4 40 999)).1 = true
      decide +kernel
  have hfit : EveryStep (fun b op => op.Fits b) (new 1000 2 4) exactRun := by
    refine ⟨?_, ?_, ?_, trivial, ?_, trivial⟩
    · change (new 1000 2 4).levelSum 1000 true + 50 < 2 ^ 32
      decide +kernel
    · change ((new 1000 2 4).run [.add 1 1000 50 true 0]).levelSum 1000 true + 30 < 2 ^ 32
      decide +kernel
    · change ((new 1000 2 4).run (exactRun.take 2)).levelSum 1001 true + 20 < 2 ^ 32
      decide +kernel
    · change ∀ r ∈ ((new 1000 2 4).run (exactRun.take 4)).liveOrders, r.orderRef = 1 →
        ((new 1000 2 4).run (exactRun.take 4)).levelSumWithout 1 999 r.isBuy + 40 < 2 ^ 32
      decide +kernel
  exact ⟨(totals_exact_iff 1000 2 4 hok).mpr hfit, by decide +kernel⟩

/-- Two orders of `2 ^ 31` shares at a price, and a better one that is then deleted. -/
def wrappingRun : List Op :=
  [.add 1 1001 10 true 0, .add 2 1000 2147483648 true 0, .add 3 1000 2147483648 true 0, .delete 1]

/-- **The totals do wrap**, and the best price is lost while two orders rest there. -/
theorem totals_wrap :
    EveryStep Accepts (new 1000 2 4) wrappingRun ∧
      ((new 1000 2 4).run wrappingRun).sharesAt 1000 true = 0 ∧
      ((new 1000 2 4).run wrappingRun).levelSum 1000 true = 2 ^ 32 ∧
      ((new 1000 2 4).run wrappingRun).bestBid = none ∧
      ((new 1000 2 4).run wrappingRun).liveOrders.map Resting.price = [1000, 1000] ∧
      ¬ TotalsExact ((new 1000 2 4).run wrappingRun) := by
  have hshares : ((new 1000 2 4).run wrappingRun).sharesAt 1000 true = 0 := by decide +kernel
  have hsum : ((new 1000 2 4).run wrappingRun).levelSum 1000 true = 2 ^ 32 := by decide +kernel
  refine ⟨⟨rfl, rfl, rfl, rfl, trivial⟩, hshares, hsum, by decide +kernel, by decide +kernel, ?_⟩
  intro h
  have := h.shares 1000 true
  rw [hshares, hsum] at this
  cases this

end Liquibook
