import Liquibook.Engine.Indistinguishable
import Liquibook.Book.Aggregates

/-!
# A book that joins late

A book that hears only the last part of a stream of calls does not know the orders that
came before.  Calls that name them fail on it, and so do the replacements of such orders,
whose new references it does not know either.  Nothing else goes wrong: as long as the book
that has heard everything accepts the calls, the late one has the same queues, without the
orders it does not know.  Once all these are gone the two cannot be told apart.

## Main definitions

* `Op.learn`, `learned` — the references a late book knows.
* `Knows` — the late ledger has the known orders of the other.

## Main results

* `WF.learned_step` — one call keeps the late book in step.
* `late_joiner_catches_up` — **a late book has the queues it can know.**
-/

namespace Liquibook

open Lib OrderBook MatchingEngine

/-- What is known after a call, if `known` is known before. -/
def Op.learn (known : OrderRef → Bool) : Op → OrderRef → Bool
  | .add ref .. => Function.update known ref true
  | .replace oldRef newRef _ _ => Function.update known newRef (known oldRef)
  | _ => known

/-- What is known after calls. -/
def learned (ops : List Op) : OrderRef → Bool :=
  ops.foldl (fun known op => op.learn known) fun _ => false

namespace Ledger

variable {l l' : Ledger} {known : OrderRef → Bool}

/-- The late ledger `l'` has the known orders of `l`. -/
structure Knows (known : OrderRef → Bool) (l l' : Ledger) : Prop where
  wf : WF l
  wf' : WF l'
  capacity_le : l.capacity ≤ l'.capacity
  orders_eq : l'.orders = l.orders.filter fun r => known r.orderRef

namespace Knows

theorem find_of_known (h : Knows known l l') {ref : OrderRef} (hk : known ref = true) :
    l'.find ref = l.find ref := by
  unfold find
  rw [h.orders_eq, List.find?_filter]
  refine List.find?_congr fun r _ => ?_
  by_cases hr : r.orderRef = ref
  · simp [hr, hk]
  · simp [hr]

theorem find_of_unknown (h : Knows known l l') {ref : OrderRef} (hk : known ref = false) :
    l'.find ref = none := by
  rw [find_eq_none_iff, h.orders_eq]
  intro r hr e
  have := (List.mem_filter.mp hr).2
  rw [e, hk] at this
  cases this

theorem find_eq_none (h : Knows known l l') {ref : OrderRef} (hf : l.find ref = none) :
    l'.find ref = none := by
  cases hk : known ref with
  | true => rw [h.find_of_known hk, hf]
  | false => exact h.find_of_unknown hk

theorem length_le (h : Knows known l l') : l'.orders.length ≤ l.orders.length := by
  rw [h.orders_eq]
  exact List.length_filter_le ..

theorem orders_remove (h : Knows known l l') (r : Resting) :
    (l'.remove r).orders = (l.remove r).orders.filter fun x => known x.orderRef := by
  rw [remove_orders, remove_orders, drop, drop, h.orders_eq, List.filter_comm]

/-- An order that is not known can leave unnoticed. -/
theorem orders_of_unknown (h : Knows known l l') {r : Resting} (hk : known r.orderRef = false) :
    l'.orders = (l.remove r).orders.filter fun x => known x.orderRef := by
  rw [← h.orders_remove, remove_orders, drop, List.filter_eq_self.mpr fun x hx => ?_]
  rw [decide_eq_true_eq]
  intro e
  rw [h.orders_eq, List.mem_filter, e, hk] at hx
  cases hx.2

theorem orders_setShares (h : Knows known l l') (ref : OrderRef) (n : Shares) :
    (l'.setShares ref n).orders =
      (l.setShares ref n).orders.filter fun x => known x.orderRef := by
  unfold setShares
  rw [h.orders_eq, List.filter_map]
  refine congrArg _ (List.filter_congr fun x _ => ?_)
  rw [Function.comp_apply]
  split <;> rfl

theorem orders_setShares_of_unknown (h : Knows known l l') {ref : OrderRef}
    (hk : known ref = false) (n : Shares) : (l'.setShares ref n).orders = l'.orders := by
  have hother := find_eq_none_iff.mp (h.find_of_unknown hk)
  refine (List.map_congr_left fun x hx => ?_).trans (List.map_id' _)
  exact if_neg (hother x hx)

/-- What is learned of a new reference changes nothing else. -/
theorem filter_update {rs : List Resting} {ref : OrderRef} (hfree : ∀ x ∈ rs, x.orderRef ≠ ref)
    (value : Bool) : rs.filter (fun x => Function.update known ref value x.orderRef) =
      rs.filter fun x => known x.orderRef :=
  List.filter_congr fun x hx => Function.update_of_ne (hfree x hx) _ _

/-- A call that takes shares off an order. -/
theorem reduce (h : Knows known l l') {ref : OrderRef} {n : Shares} :
    (l'.reduce ref n).2.orders =
      (l.reduce ref n).2.orders.filter fun r => known r.orderRef := by
  unfold Ledger.reduce
  cases hk : known ref with
  | true =>
    rw [h.find_of_known hk]
    cases hf : l.find ref with
    | none => exact h.orders_eq
    | some r =>
      dsimp only
      split
      · exact h.orders_eq
      · split
        · exact h.orders_remove r
        · exact h.orders_setShares ref _
  | false =>
    rw [h.find_of_unknown hk]
    cases hf : l.find ref with
    | none => exact h.orders_eq
    | some r =>
      have hr := (mem_of_find hf).2
      dsimp only
      split
      · exact h.orders_eq
      · split
        · exact h.orders_of_unknown (by rw [hr, hk])
        · rw [← h.orders_setShares, h.orders_setShares_of_unknown hk]

/-- The known orders are in step again after a call that the other ledger accepts. -/
theorem step (h : Knows known l l') {op : Op} (hok : (l.step op).1 = true) :
    Knows (op.learn known) (l.step op).2 (l'.step op).2 := by
  refine ⟨h.wf.step op, h.wf'.step op, ?_, ?_⟩
  · rw [(change_step h.wf op).capacity, (change_step h.wf' op).capacity]
    exact h.capacity_le
  cases op with
  | execute ref shares => exact h.reduce
  | cancel ref shares => exact h.reduce
  | delete ref =>
    unfold Ledger.step Ledger.delete
    dsimp only [Op.learn]
    cases hk : known ref with
    | true =>
      rw [h.find_of_known hk]
      cases l.find ref with
      | none => exact h.orders_eq
      | some r => exact h.orders_remove r
    | false =>
      rw [h.find_of_unknown hk]
      cases hf : l.find ref with
      | none => exact h.orders_eq
      | some r => exact h.orders_of_unknown (by rw [(mem_of_find hf).2, hk])
  | add ref price shares isBuy traderId =>
    have hlen := h.length_le
    have hcap := h.capacity_le
    have hle := h.wf.length_le
    unfold Ledger.step Ledger.add at hok ⊢
    dsimp only [Op.learn] at hok ⊢
    split at hok
    · cases hok
    · next hc =>
      rw [if_neg hc]
      rw [not_or, not_or, Option.not_isSome_iff_eq_none] at hc
      -- there is room on the late ledger as well
      have hc' : ¬ (shares = 0 ∨ (l'.find ref).isSome = true ∨
          l'.orders.length = l'.capacity) := by
        rw [not_or, not_or, h.find_eq_none hc.2.1]
        exact ⟨hc.1, by simp, by omega⟩
      rw [if_neg hc', Ledger.append, Ledger.append, List.filter_append,
        filter_update (find_eq_none_iff.mp hc.2.1), h.orders_eq]
      simp
  | replace oldRef newRef newShares newPrice =>
    unfold Ledger.step Ledger.replace at hok ⊢
    dsimp only [Op.learn] at hok ⊢
    cases hf : l.find oldRef with
    | none =>
      rw [hf] at hok
      cases hok
    | some r =>
      obtain ⟨hr, href⟩ := mem_of_find hf
      rw [hf] at hok
      dsimp only at hok ⊢
      split at hok
      · cases hok
      · next hc =>
        have hfree : (l.remove r).find newRef = none :=
          h.wf.find_remove_new hr (by rw [href]; exact (not_or.mp hc).2)
        rw [if_neg hc, Ledger.append, List.filter_append,
          filter_update (find_eq_none_iff.mp hfree)]
        cases hk : known oldRef with
        | true =>
          have hc' : ¬ (newShares = 0 ∨ (oldRef ≠ newRef ∧ (l'.find newRef).isSome = true)) := by
            rw [not_or, not_and, Option.not_isSome_iff_eq_none] at hc ⊢
            exact ⟨hc.1, fun hne => h.find_eq_none (hc.2 hne)⟩
          rw [h.find_of_known hk, hf]
          dsimp only
          rw [if_neg hc', Ledger.append, h.orders_remove]
          simp
        | false =>
          rw [h.find_of_unknown hk, ← h.orders_of_unknown (by rw [href, hk])]
          simp

theorem queue_eq (h : Knows known l l') (p : Price4) (side : Bool) :
    l'.queue p side = (l.queue p side).filter fun r => known r.orderRef := by
  rw [queue, queue, h.orders_eq, List.filter_comm]

theorem bounded (h : Knows known l l') (hb : Bounded l) : Bounded l' := by
  intro p side
  rw [h.queue_eq]
  exact (sharesOf_sublist List.filter_sublist).trans_lt (hb p side)

end Knows

end Ledger

namespace OrderBook.Refines

variable {b b' : OrderBook} {l l' : Ledger} {known : OrderRef → Bool}

/-- Along a run that a book accepts, a late one stays in step. -/
theorem run_knows (h : Refines b l) (h' : Refines b' l') (hknows : l.Knows known l')
    {ops : List Op} (hops : EveryStep Accepts b ops) :
    ∃ l₁ l₁', Refines (b.run ops) l₁ ∧ Refines (b'.run ops) l₁' ∧
      l₁.Knows (ops.foldl (fun known op => op.learn known) known) l₁' ∧
      l₁.capacity = l.capacity ∧ l₁'.capacity = l'.capacity ∧
      (l.Bounded → l.Exact → l'.Exact → EveryState LevelSumsBounded b ops →
        l₁.Exact ∧ l₁'.Exact) := by
  induction ops generalizing b b' l l' known with
  | nil => exact ⟨l, l', h, h', hknows, rfl, rfl, fun _ he he' _ => ⟨he, he'⟩⟩
  | cons op ops ih =>
    obtain ⟨hop, hops⟩ := hops
    have hok : (l.step op).1 = true := (h.step op).result.symm.trans hop
    obtain ⟨l₁, l₁', h₁, h₁', hknows₁, hcap, hcap', hexact⟩ :=
      ih (h.step op).refines (h'.step op).refines (hknows.step hok) hops
    refine ⟨l₁, l₁', h₁, h₁', hknows₁, hcap.trans (Ledger.change_step h.wf op).capacity,
      hcap'.trans (Ledger.change_step h'.wf op).capacity, fun hb he he' hstates => ?_⟩
    have hnext := (h.step op).refines.bounded_iff.mp hstates.2.head
    exact hexact hnext (he.change h.wf hb (Ledger.change_step h.wf op))
      (he'.change h'.wf (hknows.bounded hb) (Ledger.change_step h'.wf op)) hstates.2

end OrderBook.Refines

/-- A new ledger knows nothing. -/
theorem Ledger.WF.knows_new {l : Ledger} (h : l.WF) {capacity : ℕ} (hcap : l.capacity ≤ capacity) :
    l.Knows (fun _ => false) (Ledger.new capacity) where
  wf := h
  wf' := Ledger.wf_new capacity
  capacity_le := hcap
  orders_eq := (List.filter_false l.orders).symm

/-- **A late book has the queues it can know**: those of the book that has heard everything,
without the orders that go back to a time before.  When none of these is left and no total has
wrapped, no later call can tell the two apart. -/
theorem late_joiner_catches_up {b : OrderBook} (hb : Reachable b) {ops : List Op}
    (hops : EveryStep Accepts b ops) (referencePrice : Price4) (halfWidth : ℕ) {capacity : ℕ}
    (hcap : b.orderPool.capacity ≤ capacity) :
    (∀ p side, ((new referencePrice halfWidth capacity).run ops).queueAt p side =
      ((b.run ops).queueAt p side).filter fun r => learned ops r.orderRef) ∧
    (capacity = b.orderPool.capacity → Reached (fun _ => True) LevelSumsBounded b →
      EveryState LevelSumsBounded b ops →
      (∀ r ∈ (b.run ops).liveOrders, learned ops r.orderRef = true) →
      ((new referencePrice halfWidth capacity).run ops).Indistinguishable (b.run ops)) := by
  have hnew := refines_new referencePrice halfWidth capacity
  constructor
  · obtain ⟨l, h⟩ := hb.refines
    have hknows := h.wf.knows_new (h.capacity_eq ▸ hcap)
    obtain ⟨l₁, l₁', h₁, h₁', hknows₁, -⟩ := h.run_knows hnew hknows hops
    intro p side
    rw [h₁'.queueAt_eq, h₁.queueAt_eq]
    exact hknows₁.queue_eq p side
  · intro hsame hb' hstates hall
    obtain ⟨l, h, hbound, hexact⟩ := hb'.exact fun _ hP => hP
    have hknows := h.wf.knows_new (h.capacity_eq ▸ hcap)
    obtain ⟨l₁, l₁', h₁, h₁', hknows₁, hcap₁, hcap₁', hexacts⟩ :=
      h.run_knows hnew hknows hops
    obtain ⟨he, he'⟩ := hexacts hbound hexact (Ledger.exact_new capacity) hstates
    refine h₁'.indistinguishable h₁ (he'.alike he fun p side => ?_) ?_
    · rw [hknows₁.queue_eq p side, List.filter_eq_self]
      intro r hr
      exact hall r (h₁.mem_liveOrders.mpr (Ledger.mem_queue.mp hr).1)
    · rw [hcap₁, hcap₁', ← h.capacity_eq]
      exact hsame

/-- A book that misses the first of two orders, until this one is deleted. -/
theorem late_joiner_catches_up_one :
    ((new 5000 1 4).run [.add 2 1000 20 true 0, .delete 1]).Indistinguishable
      (((new 1000 2 4).run [.add 1 1000 10 true 0]).run [.add 2 1000 20 true 0, .delete 1]) := by
  have hb : Reached (fun _ => True) LevelSumsBounded
      ((new 1000 2 4).run [.add 1 1000 10 true 0]) := reached_run_bounded (by decide +kernel)
  have hstates : EveryState LevelSumsBounded ((new 1000 2 4).run [.add 1 1000 10 true 0])
      [.add 2 1000 20 true 0, .delete 1] :=
    ⟨levelSumsBounded_of_sharesOf (by decide +kernel),
      levelSumsBounded_of_sharesOf (by decide +kernel),
      levelSumsBounded_of_sharesOf (by decide +kernel)⟩
  have hops : EveryStep Accepts ((new 1000 2 4).run [.add 1 1000 10 true 0])
      [.add 2 1000 20 true 0, .delete 1] := ⟨rfl, rfl, trivial⟩
  exact (late_joiner_catches_up (reachable_run 1000 2 4 _) hops 5000 1 (le_refl 4)).2 rfl hb
    hstates (by decide +kernel)

end Liquibook
