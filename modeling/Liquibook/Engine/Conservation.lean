import Liquibook.Engine.Origins
import Liquibook.Engine.Transcript

/-!
# No share is lost along a run

Every share that comes in is filled, killed, taken back or still there.  The books are kept
for the two sides apart, but for the fills: what is bought is what is sold.

`submit` does not look at what `add_order` returns for a remainder, so a remainder can also
be refused although it is reported as resting.  These shares are the only ones that go
astray, and only a limit order whose reference is live, or that meets a full book, can lose
them.

## Main definitions

* `Tally` — what has become of the shares that have come in.
* `OrderBook.tally` — what a call adds to it.
* `OrderBook.audit` — the tally of a run.

## Main results

* `sharesOf_settle`, `Takes.sum_taken` — what fills take is what the orders lose.
* `Refines.tally_balances` — one call keeps the books balanced.
* `runs_conserve_shares` — **every run keeps the books balanced.**
-/

namespace Liquibook

open Lib OrderBook MatchingEngine

/-! ### The books -/

/-- The shares on one side. -/
def sideShares (rs : List Resting) (side : Bool) : ℕ := sharesOf (rs.filter fun r => r.isBuy == side)

/-- The shares of the order `ref`, if it is on that side. -/
def heldShares (rs : List Resting) (ref : OrderRef) (side : Bool) : ℕ :=
  sharesOf (rs.filter fun r => r.isBuy == side && r.orderRef == ref)

/-- Whether the order `ref` is on that side. -/
def holds (rs : List Resting) (ref : OrderRef) (side : Bool) : Bool :=
  rs.any fun r => r.isBuy == side && r.orderRef == ref

/-- What has become of the shares that have come in, for either side.  A fill is one for
both sides. -/
structure Tally where
  filled : ℕ
  /-- Added, put in by a replacement, or submitted. -/
  entered : Bool → ℕ
  /-- Reported as killed. -/
  killed : Bool → ℕ
  /-- Executed, cancelled, deleted, or taken out by a replacement. -/
  withdrawn : Bool → ℕ
  /-- Reported as resting, but refused by the book. -/
  refused : Bool → ℕ

namespace Tally

def zero : Tally := ⟨0, fun _ => 0, fun _ => 0, fun _ => 0, fun _ => 0⟩

def add (t u : Tally) : Tally where
  filled := t.filled + u.filled
  entered side := t.entered side + u.entered side
  killed side := t.killed side + u.killed side
  withdrawn side := t.withdrawn side + u.withdrawn side
  refused side := t.refused side + u.refused side

/-- The books balance from `n` live shares to `n'` of them. -/
def Balances (t : Tally) (n n' : Bool → ℕ) : Prop :=
  ∀ side, n side + t.entered side =
    t.filled + t.killed side + t.withdrawn side + t.refused side + n' side

end Tally

/-- `n` shares on one side. -/
def onSide (side : Bool) (n : ℕ) (s : Bool) : ℕ := if s = side then n else 0

@[simp] theorem onSide_self (side : Bool) (n : ℕ) : onSide side n side = n := if_pos rfl

@[simp] theorem onSide_not (side : Bool) (n : ℕ) : onSide side n (!side) = 0 :=
  if_neg fun e => (Bool.not_eq_self side).mp e

/-- What is reported as killed. -/
def Event.killed : Event → ℕ
  | .kill e => e.unfilledQuantity.toNat
  | _ => 0

/-- What is reported as resting. -/
def Event.resting : Event → ℕ
  | .rest e => e.quantity.toNat
  | _ => 0

/-- What a successful call of the book does to the shares of the orders `rs`. -/
def Op.tally (rs : List Resting) : Op → Tally
  | .add _ _ shares isBuy _ => { Tally.zero with entered := onSide isBuy shares.toNat }
  | .execute ref shares | .cancel ref shares =>
      { Tally.zero with withdrawn := fun s => if holds rs ref s then shares.toNat else 0 }
  | .delete ref => { Tally.zero with withdrawn := heldShares rs ref }
  | .replace oldRef _ newShares _ =>
      { Tally.zero with
        entered := fun s => if holds rs oldRef s then newShares.toNat else 0
        withdrawn := heldShares rs oldRef }

/-- What a call adds to the tally, as a caller takes it down who sees the live orders, and
knows whether the book has accepted a remainder. -/
def OrderBook.tally (b : OrderBook) : Call → Reply → Tally
  | .book op, .result true => op.tally b.liveOrders
  | .submit preventSelfTrade order, .events events =>
      { filled := ((fillsOf events).map fun e => e.quantity.toNat).sum
        entered := onSide order.isBuy order.quantity.toNat
        killed := onSide order.isBuy (events.map Event.killed).sum
        withdrawn := fun _ => 0
        refused := onSide order.isBuy
          (if rests preventSelfTrade b order then 0 else (events.map Event.resting).sum) }
  | _, _ => Tally.zero

/-- Make calls, and keep the tally. -/
def OrderBook.audit (t : Tally) (b : OrderBook) : List Call → Option (Tally × OrderBook)
  | [] => some (t, b)
  | c :: calls =>
      (b.serve c).bind fun (reply, b') => audit (t.add (b.tally c reply)) b' calls

/-! ### Shares of some of the orders -/

theorem sharesOf_perm {rs rs' : List Resting} (h : rs.Perm rs') : sharesOf rs = sharesOf rs' :=
  (h.map _).sum_eq

theorem sideShares_append (rs rs' : List Resting) (side : Bool) :
    sideShares (rs ++ rs') side = sideShares rs side + sideShares rs' side := by
  rw [sideShares, List.filter_append, sharesOf_append]
  rfl

theorem sideShares_singleton (r : Resting) (side : Bool) :
    sideShares [r] side = onSide r.isBuy r.shares.toNat side := by
  rw [sideShares, onSide, List.filter_cons]
  by_cases hr : r.isBuy = side
  · rw [if_pos (beq_iff_eq.mpr hr), if_pos hr.symm]
    rfl
  · rw [if_neg fun e => hr (beq_iff_eq.mp e), if_neg (Ne.symm hr)]
    rfl

theorem sharesOf_filter_add (p : Resting → Bool) (rs : List Resting) :
    sharesOf (rs.filter p) + sharesOf (rs.filter fun r => !p r) = sharesOf rs := by
  induction rs with
  | nil => rfl
  | cons r rs ih =>
    rw [List.filter_cons, List.filter_cons, sharesOf_cons]
    cases p r <;> simp [sharesOf_cons] <;> omega

/-- **What is taken from orders** is what they lose. -/
theorem sharesOf_settle {n : OrderRef → ℕ} {rs : List Resting}
    (hle : ∀ r ∈ rs, n r.orderRef ≤ r.shares.toNat) :
    sharesOf (rs.filterMap (settle n)) + (rs.map fun r => n r.orderRef).sum = sharesOf rs := by
  induction rs with
  | nil => rfl
  | cons r rs ih =>
    have ih' := ih fun x hx => hle x (List.mem_cons_of_mem _ hx)
    have hr := hle r List.mem_cons_self
    have hlt := r.shares.toNat_lt
    rw [List.map_cons, List.sum_cons, sharesOf_cons]
    by_cases hall : n r.orderRef = r.shares.toNat
    · rw [List.filterMap_cons_none (by rw [settle, if_pos hall])]
      omega
    · have hnat : (UInt32.ofNat (n r.orderRef)).toNat = n r.orderRef :=
        UInt32.toNat_ofNat_of_lt' (show _ < 2 ^ 32 by omega)
      have hsub : (r.shares - UInt32.ofNat (n r.orderRef)).toNat =
          r.shares.toNat - n r.orderRef := by
        rw [UInt32.toNat_sub_of_le _ _ (by rw [UInt32.le_iff_toNat_le, hnat]; exact hr), hnat]
      rw [List.filterMap_cons_some (by rw [settle, if_neg hall]), sharesOf_cons, hsub]
      omega

/-- The one order with a reference, among some of the orders. -/
theorem sum_named {rs : List Resting} (hnd : (rs.map Resting.orderRef).Nodup) {r : Resting}
    (hr : r ∈ rs) (p : Resting → Bool) (n : ℕ) :
    ((rs.filter p).map fun x => if r.orderRef = x.orderRef then n else 0).sum =
      if p r then n else 0 := by
  induction rs with
  | nil => cases hr
  | cons x xs ih =>
    rw [List.map_cons, List.nodup_cons] at hnd
    rcases List.mem_cons.mp hr with rfl | hr
    · -- the others have other references
      have hrest : ((xs.filter p).map fun x => if r.orderRef = x.orderRef then n else 0).sum = 0 := by
        refine List.sum_eq_zero fun m hm => ?_
        obtain ⟨x, hx, rfl⟩ := List.mem_map.mp hm
        refine if_neg fun e => hnd.1 ?_
        rw [e]
        exact List.mem_map_of_mem (List.mem_of_mem_filter hx)
      rw [List.filter_cons]
      split
      · rw [List.map_cons, List.sum_cons, if_pos rfl, hrest, Nat.add_zero]
      · exact hrest
    · have hne : r.orderRef ≠ x.orderRef := fun e => hnd.1 (e ▸ List.mem_map_of_mem hr)
      rw [List.filter_cons]
      split
      · rw [List.map_cons, List.sum_cons, if_neg hne, Nat.zero_add]
        exact ih hnd.2 hr
      · exact ih hnd.2 hr

namespace Ledger

variable {l : Ledger} {r : Resting}

/-- **What fills take from the orders** of a kind is what the fills against them take. -/
theorem Takes.sum_taken (h : WF l) {fs : List (Resting × ℕ)} (ht : Takes l fs)
    (p : Resting → Bool) :
    ((l.orders.filter p).map fun r => taken fs r.orderRef).sum =
      amount (fs.filter fun f => p f.1) := by
  have hmem := ht.mem
  clear ht
  induction fs with
  | nil =>
    refine List.sum_eq_zero fun m hm => ?_
    obtain ⟨x, -, rfl⟩ := List.mem_map.mp hm
    rfl
  | cons f fs ih =>
    have hsplit : ((l.orders.filter p).map fun r => taken (f :: fs) r.orderRef).sum =
        ((l.orders.filter p).map fun r => if f.1.orderRef = r.orderRef then f.2 else 0).sum +
          ((l.orders.filter p).map fun r => taken fs r.orderRef).sum := by
      rw [← List.sum_map_add]
      refine congrArg List.sum (List.map_congr_left fun r _ => taken_cons f fs r.orderRef)
    rw [hsplit, sum_named h.nodup (hmem f List.mem_cons_self),
      ih fun g hg => hmem g (List.mem_cons_of_mem _ hg), List.filter_cons]
    split
    · rfl
    · exact Nat.zero_add _

/-- Either side loses what is taken from its orders. -/
theorem WF.sideShares_consume (h : WF l) {fs : List (Resting × ℕ)} (ht : Takes l fs)
    (side : Bool) : sideShares l.orders side =
      sideShares (l.orders.filterMap (settle (taken fs))) side +
        amount (fs.filter fun f => f.1.isBuy == side) := by
  unfold sideShares
  rw [filter_filterMap_settle (fun r r' hr => by rw [(settle_eq_some hr).2.2.1]),
    ← ht.sum_taken h fun r => r.isBuy == side]
  refine (sharesOf_settle fun r hr => ?_).symm
  exact ht.taken_le h (List.mem_of_mem_filter hr)


theorem sideShares_remove (l : Ledger) (r : Resting) (side : Bool) :
    sideShares l.orders side =
      sideShares (l.remove r).orders side + heldShares l.orders r.orderRef side := by
  rw [sideShares, ← sharesOf_filter_add (fun x => x.orderRef == r.orderRef), List.filter_filter,
    List.filter_filter, Nat.add_comm, remove_orders, sideShares, drop, List.filter_filter]
  refine congrArg₂ (fun a b => sharesOf a + sharesOf b) ?_ ?_
  · refine List.filter_congr fun x _ => ?_
    by_cases hx : x.orderRef = r.orderRef <;> simp [hx]
  · refine List.filter_congr fun x _ => Bool.and_comm _ _

/-- Whether an order that is live is on a side. -/
theorem WF.holds_eq (h : WF l) (hr : r ∈ l.orders) (side : Bool) :
    holds l.orders r.orderRef side = (r.isBuy == side) := by
  unfold holds
  rw [Bool.eq_iff_iff, List.any_eq_true]
  constructor
  · rintro ⟨x, hx, hxr⟩
    rw [Bool.and_eq_true, beq_iff_eq, beq_iff_eq] at hxr
    obtain rfl := h.eq_of_ref hx hr hxr.2
    exact beq_iff_eq.mpr hxr.1
  · intro hside
    refine ⟨r, hr, ?_⟩
    rw [Bool.and_eq_true]
    exact ⟨hside, beq_self_eq_true _⟩

/-- A reduction takes its shares off the side of the order. -/
theorem WF.sideShares_reduce (h : WF l) {ref : OrderRef} {n : Shares}
    (hok : (l.reduce ref n).1 = true) (side : Bool) :
    sideShares l.orders side = sideShares (l.reduce ref n).2.orders side +
      if holds l.orders ref side then n.toNat else 0 := by
  -- the order is live, and has at least `n` shares
  obtain ⟨r, hr, rfl, hn, hle⟩ : ∃ r ∈ l.orders, r.orderRef = ref ∧ n ≠ 0 ∧ n ≤ r.shares := by
    unfold reduce at hok
    cases hf : l.find ref with
    | none =>
      rw [hf] at hok
      cases hok
    | some r =>
      rw [hf] at hok
      dsimp only at hok
      split at hok
      · cases hok
      · next hc =>
        rw [not_or, gt_iff_lt, UInt32.not_lt] at hc
        exact ⟨r, (mem_of_find hf).1, (mem_of_find hf).2, hc⟩
  have ht : Takes l [(r, n.toNat)] :=
    { nodup := List.nodup_singleton _
      mem := fun f hf => (by rw [List.mem_singleton.mp hf]; exact hr)
      pos := fun f hf => (by rw [List.mem_singleton.mp hf]; exact toNat_pos hn)
      le := fun f hf => (by rw [List.mem_singleton.mp hf]; exact UInt32.le_iff_toNat_le.mp hle) }
  have hconsume : l.consume [(r, n.toNat)] = (l.reduce r.orderRef n).2 := by
    rw [consume, List.foldl_cons, List.foldl_nil, UInt32.ofNat_toNat]
  rw [h.sideShares_consume ht side, ← (h.consume_orders ht).2.2, hconsume, h.holds_eq hr,
    List.filter_cons]
  split <;> rfl

/-- A successful call of the book keeps the books balanced. -/
theorem WF.step_balances (h : WF l) {op : Op} (hok : (l.step op).1 = true) :
    (op.tally l.orders).Balances (sideShares l.orders) (sideShares (l.step op).2.orders) := by
  intro side
  cases op with
  | add ref price shares isBuy traderId =>
    unfold Ledger.step Ledger.add at hok ⊢
    dsimp only at hok ⊢
    split at hok
    · cases hok
    · next hc =>
      rw [if_neg hc, Ledger.append, sideShares_append, sideShares_singleton]
      simp only [Op.tally, Tally.zero]
      omega
  | execute ref shares =>
    have := h.sideShares_reduce hok side
    simp only [Op.tally, Tally.zero, Ledger.step]
    omega
  | cancel ref shares =>
    have := h.sideShares_reduce hok side
    simp only [Op.tally, Tally.zero, Ledger.step]
    omega
  | delete ref =>
    unfold Ledger.step Ledger.delete at hok ⊢
    dsimp only at hok ⊢
    cases hf : l.find ref with
    | none =>
      rw [hf] at hok
      cases hok
    | some r =>
      have := sideShares_remove l r side
      rw [(mem_of_find hf).2] at this
      simp only [Op.tally, Tally.zero]
      omega
  | replace oldRef newRef newShares newPrice =>
    unfold Ledger.step Ledger.replace at hok ⊢
    dsimp only at hok ⊢
    cases hf : l.find oldRef with
    | none =>
      rw [hf] at hok
      cases hok
    | some r =>
      rw [hf] at hok
      dsimp only at hok ⊢
      split at hok
      · cases hok
      · next hc =>
        have hout := sideShares_remove l r side
        have hheld := h.holds_eq (mem_of_find hf).1 side
        rw [(mem_of_find hf).2] at hout hheld
        have hin : (if holds l.orders oldRef side then newShares.toNat else 0) =
            onSide r.isBuy newShares.toNat side := by
          rw [hheld, onSide]
          exact if_congr (beq_iff_eq.trans eq_comm) rfl rfl
        rw [if_neg hc, Ledger.append, sideShares_append, sideShares_singleton]
        simp only [Op.tally, Tally.zero]
        omega

end Ledger

/-! ### One call -/

section Events

variable (order : IncomingOrder) (fs : List (Resting × ℕ)) {n : ℕ}

/-- A remainder is reported as resting or as killed. -/
theorem sum_remainderEvents (hn : n < 2 ^ 32) :
    ((remainderEvents order n).map Event.resting).sum +
      ((remainderEvents order n).map Event.killed).sum = n := by
  have hnat : (UInt32.ofNat n).toNat = n := UInt32.toNat_ofNat_of_lt' hn
  unfold remainderEvents
  split
  · next h => exact h.symm
  · split
    · exact hnat
    · exact (Nat.zero_add _).trans hnat

/-- That of a limit order is not killed. -/
theorem killed_remainderEvents (htype : order.type = .limit) :
    ((remainderEvents order n).map Event.killed).sum = 0 := by
  unfold remainderEvents
  rw [if_pos htype]
  split <;> rfl

/-- Fills are neither. -/
theorem sum_events {f : Event → ℕ} (hf : ∀ e, f (.fill e) = 0) (es : List Event) :
    ((((fs.map (fillEvent order)).map Event.fill) ++ es).map f).sum = (es.map f).sum := by
  have hzero : (((fs.map (fillEvent order)).map Event.fill).map f).sum = 0 := by
    refine List.sum_eq_zero fun m hm => ?_
    obtain ⟨e, he, rfl⟩ := List.mem_map.mp hm
    obtain ⟨x, -, rfl⟩ := List.mem_map.mp he
    exact hf x
  rw [List.map_append, List.sum_append, hzero, Nat.zero_add]

end Events

namespace OrderBook.Refines

variable {b : OrderBook} {l : Ledger}

theorem sideShares_eq (h : Refines b l) : sideShares b.liveOrders = sideShares l.orders := by
  funext side
  exact sharesOf_perm (h.liveOrders_perm.filter _)

theorem tally_eq (h : Refines b l) (op : Op) : op.tally b.liveOrders = op.tally l.orders := by
  have hheld : heldShares b.liveOrders = heldShares l.orders := by
    funext ref side
    exact sharesOf_perm (h.liveOrders_perm.filter _)
  have hholds : holds b.liveOrders = holds l.orders := by
    funext ref side
    exact h.liveOrders_perm.any_eq
  cases op with
  | add ref price shares isBuy traderId => rfl
  | execute ref shares => rw [Op.tally, Op.tally, hholds]
  | cancel ref shares => rw [Op.tally, Op.tally, hholds]
  | delete ref => rw [Op.tally, Op.tally, hheld]
  | replace oldRef newRef newShares newPrice => rw [Op.tally, Op.tally, hheld, hholds]

/-- What rests of an order, and that it is not killed as well. -/
theorem sideShares_rested (h : Refines b l) (preventSelfTrade : Bool) (order : IncomingOrder)
    (side : Bool) :
    sideShares (l.rested preventSelfTrade order) side =
        onSide order.isBuy (if rests preventSelfTrade b order then
          order.quantity.toNat - amount (l.taking preventSelfTrade order) else 0) side ∧
      (rests preventSelfTrade b order = true → ((remainderEvents order (order.quantity.toNat -
        amount (l.taking preventSelfTrade order))).map Event.killed).sum = 0) := by
  have hrests := h.rests_iff preventSelfTrade order
  have hlt := order.quantity.toNat_lt
  by_cases hnil : l.rested preventSelfTrade order = []
  · have hno : ¬ rests preventSelfTrade b order = true := fun e => hrests.mp e hnil
    rw [hnil, if_neg hno]
    refine ⟨?_, fun e => absurd e hno⟩
    unfold onSide
    split <;> rfl
  · rw [if_pos (hrests.mpr hnil)]
    rcases restedOf_cases order (l.taking preventSelfTrade order) l.orders l.capacity with e | e
    · exact absurd e hnil
    · refine ⟨?_, fun _ => killed_remainderEvents order ?_⟩
      · rw [Ledger.rested, e, sideShares_singleton, IncomingOrder.remainder,
          UInt32.toNat_ofNat_of_lt' (show _ < 2 ^ 32 by omega)]
      · unfold Ledger.rested restedOf at hnil
        dsimp only at hnil
        split at hnil
        · next hc => exact hc.1
        · exact absurd rfl hnil

/-- What a submitted order adds balances. -/
theorem submit_balances (h : Refines b l) (preventSelfTrade : Bool) (order : IncomingOrder) :
    (b.tally (.submit preventSelfTrade order)
        (.events (l.submit preventSelfTrade order).1)).Balances
      (sideShares l.orders) (sideShares (l.submit preventSelfTrade order).2.orders) := by
  intro side
  have ht := h.wf.takes_taking preventSelfTrade order
  have hle := l.amount_taking_le preventSelfTrade order
  have hlt := order.quantity.toNat_lt
  have hout := h.wf.sideShares_consume ht side
  have hside : ∀ f ∈ l.taking preventSelfTrade order, f.1.isBuy = !order.isBuy := by
    intro f hf
    unfold Ledger.taking at hf
    split at hf
    · cases hf
    · exact (Ledger.mem_reach (mem_greedy hf).1).2.1
  have htaken : amount ((l.taking preventSelfTrade order).filter fun f => f.1.isBuy == side) =
      onSide (!order.isBuy) (amount (l.taking preventSelfTrade order)) side := by
    unfold onSide
    split
    · next e =>
      rw [List.filter_eq_self.mpr fun f hf => beq_iff_eq.mpr ((hside f hf).trans e.symm)]
    · next e =>
      rw [List.filter_eq_nil_iff.mpr fun f hf e' =>
        e ((beq_iff_eq.mp e').symm.trans (hside f hf))]
      rfl
  obtain ⟨hown, hkill⟩ := h.sideShares_rested preventSelfTrade order side
  have hsum := sum_remainderEvents order
    (show order.quantity.toNat - amount (l.taking preventSelfTrade order) < 2 ^ 32 by omega)
  have happ : sideShares (l.submit preventSelfTrade order).2.orders side =
      sideShares (l.orders.filterMap (settle (taken (l.taking preventSelfTrade order)))) side +
        sideShares (l.rested preventSelfTrade order) side := by
    rw [h.wf.submit_orders, sideShares_append]
  have hnokill : ∀ e, Event.killed (.fill e) = 0 := fun _ => rfl
  have hnorest : ∀ e, Event.resting (.fill e) = 0 := fun _ => rfl
  rw [happ, hown, hout, htaken, l.submit_events]
  simp only [OrderBook.tally, ht.sum_fillsOf order, sum_events order _ hnokill,
    sum_events order _ hnorest]
  have hothers : ∀ n, onSide (!order.isBuy) n order.isBuy = 0 := fun n =>
    if_neg fun e => (Bool.eq_not_self order.isBuy).mp e
  by_cases hr : rests preventSelfTrade b order = true
  · have hkilled := hkill hr
    rw [if_pos hr, if_pos hr]
    rcases Bool.eq_or_eq_not side order.isBuy with rfl | rfl
    · simp only [onSide_self, hothers]
      omega
    · simp only [onSide_self, onSide_not]
      omega
  · rw [if_neg hr, if_neg hr]
    rcases Bool.eq_or_eq_not side order.isBuy with rfl | rfl
    · simp only [onSide_self, hothers]
      omega
    · simp only [onSide_self, onSide_not]
      omega

/-- **One call keeps the books balanced.** -/
theorem tally_balances (h : Refines b l) (c : Call) :
    (b.tally c (l.serve c).1).Balances (sideShares l.orders)
      (sideShares (l.serve c).2.orders) := by
  cases c with
  | book op =>
    rw [Ledger.serve]
    cases hok : (l.step op).1 with
    | false =>
      -- a call that fails changes nothing
      have hstep := h.step op
      have hsame : sideShares (l.step op).2.orders = sideShares l.orders := by
        rw [← hstep.refines.sideShares_eq, hstep.unchanged (hstep.result.trans hok),
          h.sideShares_eq]
      intro side
      rw [hsame]
      simp only [OrderBook.tally, Tally.zero, Nat.add_zero, Nat.zero_add]
    | true =>
      rw [OrderBook.tally, h.tally_eq]
      exact h.wf.step_balances hok
  | submit preventSelfTrade order => exact h.submit_balances preventSelfTrade order

/-- A remainder is refused only if the reference is live or the book is full. -/
theorem refused_cases (h : Refines b l) {preventSelfTrade : Bool} {order : IncomingOrder}
    {side : Bool} (hrefused : (b.tally (.submit preventSelfTrade order)
      (.events (l.submit preventSelfTrade order).1)).refused side ≠ 0) :
    order.type = .limit ∧ (b.IsLive order.orderRef ∨ b.orderCount = b.orderPool.capacity) := by
  have hrests := h.rests_iff preventSelfTrade order
  rw [l.submit_events] at hrefused
  have hnorest : ∀ e, Event.resting (.fill e) = 0 := fun _ => rfl
  simp only [OrderBook.tally, sum_events order _ hnorest] at hrefused
  unfold onSide at hrefused
  rw [ite_ne_right_iff] at hrefused
  obtain ⟨-, hrefused⟩ := hrefused
  rw [ite_ne_left_iff] at hrefused
  obtain ⟨hno, hsum⟩ := hrefused
  -- something is left of a limit order, but it does not rest
  have hrem : order.type = .limit ∧
      amount (l.taking preventSelfTrade order) < order.quantity.toNat := by
    unfold remainderEvents at hsum
    split at hsum
    · exact absurd rfl hsum
    · next hpos =>
      split at hsum
      · next htype => exact ⟨htype, by omega⟩
      · exact absurd rfl hsum
  have hnil : l.rested preventSelfTrade order = [] := not_not.mp fun e => hno (hrests.mpr e)
  refine ⟨hrem.1, ?_⟩
  by_contra hfree
  rw [not_or] at hfree
  have hkept := List.length_filterMap_le (settle (taken (l.taking preventSelfTrade order))) l.orders
  unfold Ledger.rested restedOf at hnil
  dsimp only at hnil
  rw [if_pos] at hnil
  · cases hnil
  refine ⟨hrem.1, hrem.2, fun x hx href => hfree.1 ?_, ?_⟩
  · obtain ⟨r, hr, hsettle⟩ := List.mem_filterMap.mp hx
    exact ⟨r, h.mem_liveOrders.mpr hr, (settle_eq_some hsettle).1.symm.trans href⟩
  · have hlen := h.wf.length_le
    have hfull := hfree.2
    rw [h.orderCount_eq, h.capacity_eq] at hfull
    omega

end OrderBook.Refines

/-! ### Along a run -/

/-- A limit order is submitted whose remainder the book may refuse: its reference is live,
or the book is full. -/
def OrderBook.MayRefuse (b : OrderBook) (c : Call) : Prop :=
  ∃ preventSelfTrade order, c = .submit preventSelfTrade order ∧ order.type = .limit ∧
    (b.IsLive order.orderRef ∨ b.orderCount = b.orderPool.capacity)

theorem Tally.Balances.add {t u : Tally} {n n' n'' : Bool → ℕ} (ht : t.Balances n n')
    (hu : u.Balances n' n'') : (t.add u).Balances n n'' := by
  intro side
  have h := ht side
  have h' := hu side
  simp only [Tally.add]
  omega

/-- Along a run the books stay balanced, from any tally. -/
theorem OrderBook.Refines.audit_balances {n : Bool → ℕ} :
    ∀ (calls : List Call) {t : Tally} {b : OrderBook} {l : Ledger}, Refines b l →
      t.Balances n (sideShares l.orders) →
      ∃ t' b', b.audit t calls = some (t', b') ∧ t'.Balances n (sideShares b'.liveOrders) ∧
        ∀ side, t'.refused side ≠ 0 → t.refused side ≠ 0 ∨ ∃ done c rest t₁ b₁,
          calls = done ++ c :: rest ∧ b.audit t done = some (t₁, b₁) ∧ b₁.MayRefuse c := by
  intro calls
  induction calls with
  | nil =>
    intro t b l h ht
    refine ⟨t, b, rfl, ?_, fun side e => Or.inl e⟩
    rw [h.sideShares_eq]
    exact ht
  | cons c calls ih =>
    intro t b l h ht
    obtain ⟨b₁, hserve, h₁⟩ := h.serve c
    obtain ⟨t', b', haudit, hbal, hrefused⟩ := ih h₁ (ht.add (h.tally_balances c))
    refine ⟨t', b', ?_, hbal, fun side e => ?_⟩
    · rw [OrderBook.audit, hserve]
      exact haudit
    rcases hrefused side e with hadd | ⟨done, c', rest, t₂, b₂, rfl, hdone, hmay⟩
    · by_cases hside : t.refused side = 0
      · -- the first call has refused it
        refine Or.inr ⟨[], c, calls, t, b, rfl, rfl, ?_⟩
        have hnew : (b.tally c (l.serve c).1).refused side ≠ 0 := fun e' =>
          hadd (Nat.add_eq_zero_iff.mpr ⟨hside, e'⟩)
        cases c with
        | book op =>
          rw [Ledger.serve] at hnew
          cases hok : (l.step op).1 with
          | false => rw [hok] at hnew; exact absurd rfl hnew
          | true => rw [hok] at hnew; cases op <;> exact absurd rfl hnew
        | submit preventSelfTrade order =>
          obtain ⟨htype, hcause⟩ := h.refused_cases hnew
          exact ⟨preventSelfTrade, order, rfl, htype, hcause⟩
      · exact Or.inl hside
    · refine Or.inr ⟨c :: done, c', rest, t₂, b₂, rfl, ?_, hmay⟩
      rw [OrderBook.audit, hserve]
      exact hdone

/-- **Every run keeps the books balanced.**  What has come in on a side is filled, killed,
taken back, refused as a remainder, or live; what is filled is so on both sides; and nothing
is refused unless a limit order is submitted while its reference is live or the book is
full. -/
theorem runs_conserve_shares (referencePrice : Price4) (halfWidth capacity : ℕ)
    (calls : List Call) :
    ∃ t b, (new referencePrice halfWidth capacity).audit .zero calls = some (t, b) ∧
      (∀ side, t.entered side =
        t.filled + t.killed side + t.withdrawn side + t.refused side +
          sideShares b.liveOrders side) ∧
      ((∃ side, t.refused side ≠ 0) → ∃ done c rest t₁ b₁, calls = done ++ c :: rest ∧
        (new referencePrice halfWidth capacity).audit .zero done = some (t₁, b₁) ∧
        b₁.MayRefuse c) := by
  have hzero : Tally.zero.Balances (fun _ => 0) (sideShares (Ledger.new capacity).orders) :=
    fun _ => rfl
  obtain ⟨t, b, haudit, hbal, hrefused⟩ :=
    (refines_new referencePrice halfWidth capacity).audit_balances calls hzero
  refine ⟨t, b, haudit, fun side => (Nat.zero_add _).symm.trans (hbal side), ?_⟩
  rintro ⟨side, hside⟩
  exact (hrefused side hside).resolve_left fun e => e rfl

end Liquibook
