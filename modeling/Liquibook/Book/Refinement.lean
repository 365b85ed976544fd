import Liquibook.Book.Shape

/-!
# The book refines the ledger

Every call on the book has the result of the same call on the ledger, leaves a book
whose ledger is the one the other call leaves, and if it fails leaves the book
exactly as it was.  So a run of the book is a run of the ledger, for any arguments
and whether or not any total wraps.

## Main definitions

* `Refines b l` — `b` is in shape, and its ledger is `l`, which is well formed.
* `Agrees b x y` — a call on the book that ends in `x` is one that ends in `y`.

## Main results

* `Refines.step` — **a call on the book is the call on the ledger.**
* `refines_run` — a run of the book is a run of the ledger.
-/

namespace Liquibook
namespace OrderBook

/-- The book is in shape, and its ledger, which is well formed, is `l`. -/
def Refines (b : OrderBook) (l : Ledger) : Prop :=
  ∃ live free, Shape b live free ∧ b.ledgerOf live = l ∧ l.WF

/-- A call on the book `b` that ends in `x` is a call on the ledger that ends in `y`,
and does nothing if it fails. -/
structure Agrees (b : OrderBook) (x : Bool × OrderBook) (y : Bool × Ledger) : Prop where
  result : x.1 = y.1
  refines : Refines x.2 y.2
  unchanged : x.1 = false → x.2 = b

theorem refines_new (referencePrice : Price4) (halfWidth capacity : ℕ) :
    Refines (new referencePrice halfWidth capacity) (Ledger.new capacity) := by
  refine ⟨[], List.range capacity, shape_new _ _ _, Ledger.ext rfl rfl ?_, Ledger.wf_new capacity⟩
  funext side
  cases side <;> rfl

variable {b : OrderBook} {l : Ledger}

namespace Refines

theorem wf (h : Refines b l) : l.WF := by
  obtain ⟨_, _, _, _, hwf⟩ := h
  exact hwf

/-- A call that fails and leaves the book alone. -/
theorem fails (h : Refines b l) : Agrees b (false, b) (false, l) :=
  ⟨rfl, h, fun _ => rfl⟩

theorem addOrder (h : Refines b l) (r : Resting) :
    Agrees b (b.addOrder r.orderRef r.price r.shares r.isBuy r.traderId) (l.add r) := by
  obtain ⟨live, free, hsh, rfl, hwf⟩ := id h
  have hfind := hsh.find_ledgerOf r.orderRef
  have hlen : (b.ledgerOf live).orders.length = live.length := List.length_map _
  by_cases hpos : r.shares = 0
  · rw [Ledger.add, if_pos (Or.inl hpos), OrderBook.addOrder, if_pos hpos]
    exact h.fails
  cases href : b.orderIndex.find r.orderRef with
  | some s =>
    rw [href] at hfind
    rw [Ledger.add, if_pos (Or.inr (Or.inl (by rw [hfind]; rfl))), OrderBook.addOrder,
      if_neg hpos, if_pos (by rw [href]; rfl)]
    exact h.fails
  | none =>
    rw [href, Option.map_none] at hfind
    by_cases hfull : live.length = b.orderPool.capacity
    -- the pool is full, and nothing has been written yet
    · have hacq := (hsh.pool.acquire_eq_none_iff ({} : Order)).mpr hfull
      have hfull' : (b.ledgerOf live).orders.length = (b.ledgerOf live).capacity :=
        hlen.trans hfull
      rw [Ledger.add, if_pos (Or.inr (Or.inr hfull')), OrderBook.addOrder,
        if_neg hpos, if_neg (by rw [href]; simp), hacq]
      exact h.fails
    · have hlt : live.length < b.orderPool.capacity := by
        have := hsh.pool.length_add
        omega
      obtain ⟨s, rest, b', hadd, hsh', hledger⟩ := hsh.addOrder hpos href hlt
      have hnot : ¬ (r.shares = 0 ∨ ((b.ledgerOf live).find r.orderRef).isSome ∨
          (b.ledgerOf live).orders.length = (b.ledgerOf live).capacity) := by
        rw [hfind, hlen]
        rintro (h0 | h0 | h0)
        · exact hpos h0
        · cases h0
        · exact hfull h0
      rw [hadd, Ledger.add, if_neg hnot]
      refine ⟨rfl, ⟨_, _, hsh', hledger, ?_⟩, fun e => by cases e⟩
      exact hwf.append hpos hfind (by rw [hlen]; exact hlt)

theorem deleteOrder (h : Refines b l) (ref : OrderRef) :
    Agrees b (b.deleteOrder ref) (l.delete ref) := by
  obtain ⟨live, free, hsh, rfl, hwf⟩ := id h
  have hfind := hsh.find_ledgerOf ref
  unfold OrderBook.deleteOrder Ledger.delete
  cases href : b.orderIndex.find ref with
  | none =>
    rw [href] at hfind
    rw [hfind]
    exact h.fails
  | some s =>
    rw [href] at hfind
    rw [hfind]
    obtain ⟨hs, -⟩ := (hsh.find_iff ref s).mp href
    obtain ⟨hsh', hledger⟩ := hsh.removeOrderFully hs
    exact ⟨rfl, ⟨_, _, hsh', hledger, hwf.remove (List.mem_map_of_mem hs)⟩, fun e => by cases e⟩

theorem reduceShares (h : Refines b l) (ref : OrderRef) (delta : Shares) :
    Agrees b (b.reduceShares ref delta) (l.reduce ref delta) := by
  obtain ⟨live, free, hsh, rfl, hwf⟩ := id h
  have hfind := hsh.find_ledgerOf ref
  unfold OrderBook.reduceShares Ledger.reduce
  cases href : b.orderIndex.find ref with
  | none =>
    rw [href] at hfind
    rw [hfind]
    exact h.fails
  | some s =>
    rw [href] at hfind
    obtain ⟨hs, hsref⟩ := (hsh.find_iff ref s).mp href
    rw [hfind]
    set o := b.orderPool.get s with ho
    have hshares : o.resting.shares = o.shares := rfl
    dsimp only [Option.map_some]
    rw [hshares]
    by_cases hbad : delta = 0 ∨ delta > o.shares
    · rw [if_pos hbad, if_pos hbad]
      exact h.fails
    rw [if_neg hbad, if_neg hbad]
    obtain ⟨hsh', hledger⟩ := hsh.takeOff_shape hs delta
    change Agrees b (if ((Shape.takeOff b s delta).orderPool.get s).shares = 0 then
      (true, (Shape.takeOff b s delta).removeOrderFully s) else (true, Shape.takeOff b s delta)) _
    have hget : (Shape.takeOff b s delta).orderPool.get s =
        { o with shares := o.shares - delta } := by
      rw [Shape.takeOff_get, if_pos rfl]
    have hzero : o.shares - delta = 0 ↔ delta = o.shares := by
      rw [sub_eq_zero]
      exact eq_comm
    rw [hget]
    dsimp only
    by_cases hall : delta = o.shares
    · -- used up: the order is removed once its shares are gone
      rw [if_pos (hzero.mpr hall), if_pos hall]
      obtain ⟨hsh'', hledger'⟩ := hsh'.removeOrderFully hs
      refine ⟨rfl, ⟨_, _, hsh'', ?_, hwf.remove (List.mem_map_of_mem hs)⟩, fun e => by cases e⟩
      rw [hledger', hledger, hget]
      exact Ledger.remove_setShares _ o.resting _ _
    · rw [if_neg (fun e => hall (hzero.mp e)), if_neg hall, ← hsref]
      refine ⟨rfl, ⟨_, _, hsh', hledger, hwf.setShares ?_⟩, fun e => by cases e⟩
      exact fun e => hall (hzero.mp e)

theorem replaceOrder (h : Refines b l) (oldRef newRef : OrderRef) (newShares : Shares)
    (newPrice : Price4) :
    Agrees b (b.replaceOrder oldRef newRef newShares newPrice)
      (l.replace oldRef newRef newShares newPrice) := by
  obtain ⟨live, free, hsh, rfl, hwf⟩ := id h
  have hfind := hsh.find_ledgerOf oldRef
  have hfind' := hsh.find_ledgerOf newRef
  unfold OrderBook.replaceOrder Ledger.replace
  cases href : b.orderIndex.find oldRef with
  | none =>
    rw [href] at hfind
    rw [hfind]
    exact h.fails
  | some s =>
    rw [href] at hfind
    rw [hfind]
    obtain ⟨hs, hsref⟩ := (hsh.find_iff oldRef s).mp href
    set o := b.orderPool.get s with ho
    have hmem : o.resting ∈ (b.ledgerOf live).orders := List.mem_map_of_mem hs
    have hsome : (b.orderIndex.find newRef).isSome = ((b.ledgerOf live).find newRef).isSome := by
      rw [hfind', Option.isSome_map]
    dsimp only [Option.map_some]
    rw [hsome]
    by_cases hzero : newShares = 0
    · rw [if_pos hzero, if_pos (Or.inl hzero)]
      exact h.fails
    by_cases hdup : oldRef ≠ newRef ∧ ((b.ledgerOf live).find newRef).isSome = true
    · rw [if_neg hzero, if_pos hdup, if_pos (Or.inr hdup)]
      exact h.fails
    rw [if_neg hzero, if_neg hdup, if_neg (by simp only [hzero, hdup, or_self, not_false_iff])]
    -- the old order is out, so its slot and its reference are free for the new one
    obtain ⟨hsh', hledger⟩ := hsh.removeOrderFully hs
    have hwf' := hwf.remove hmem
    have hrem : Refines (b.removeOrderFully s) ((b.ledgerOf live).remove o.resting) :=
      ⟨_, _, hsh', hledger, hwf'⟩
    set r : Resting := { orderRef := newRef, price := newPrice, shares := newShares,
                         isBuy := o.isBuy, traderId := 0 } with hr
    have hfree : ((b.ledgerOf live).remove o.resting).find newRef = none :=
      hwf.find_remove_new hmem (by rw [← hsref] at hdup; exact hdup)
    -- this is why a replacement succeeds on a full book
    have hroom : ((b.ledgerOf live).remove o.resting).orders.length <
        ((b.ledgerOf live).remove o.resting).capacity := by
      have h1 := hwf.length_remove hmem
      have h2 := hwf.length_le
      rw [Ledger.remove_capacity]
      omega
    have hadd := hrem.addOrder r
    have hok : ((b.ledgerOf live).remove o.resting).add r =
        (true, ((b.ledgerOf live).remove o.resting).append r) := by
      rw [Ledger.add, if_neg]
      rintro (h0 | h0 | h0)
      · exact hzero h0
      · rw [hr, hfree] at h0
        cases h0
      · omega
    rw [hok] at hadd
    refine ⟨hadd.result, hadd.refines, fun e => ?_⟩
    have := hadd.result.symm.trans e
    cases this

/-- **A call on the book is the call on the ledger**: it has the same result, it
leaves a book of the ledger the other call leaves, and if it fails it leaves the
book exactly as it was. -/
theorem step (h : Refines b l) (op : Op) : Agrees b (b.step op) (l.step op) := by
  cases op with
  | add ref price shares isBuy traderId =>
    exact h.addOrder { orderRef := ref, price := price, shares := shares, isBuy := isBuy,
                       traderId := traderId }
  | execute ref shares => exact h.reduceShares ref shares
  | cancel ref shares => exact h.reduceShares ref shares
  | delete ref => exact h.deleteOrder ref
  | replace oldRef newRef newShares newPrice => exact h.replaceOrder _ _ _ _

end Refines

/-- Every run of the book is a run of a ledger. -/
theorem refines_run (referencePrice : Price4) (halfWidth capacity : ℕ) (ops : List Op) :
    Refines ((new referencePrice halfWidth capacity).run ops) ((Ledger.new capacity).run ops) := by
  have hrun : ∀ (ops : List Op) (b : OrderBook) (l : Ledger), Refines b l →
      Refines (b.run ops) (l.run ops) := by
    intro ops
    induction ops with
    | nil => exact fun b l h => h
    | cons op ops ih => exact fun b l h => ih _ _ (h.step op).refines
  exact hrun ops _ _ (refines_new _ _ _)

end OrderBook
end Liquibook
