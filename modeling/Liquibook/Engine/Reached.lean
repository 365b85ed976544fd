import Liquibook.Engine.Submit

/-!
# The states a book can be in

A run starts with a new book and goes on with calls of the book and submitted orders,
in any order and with any arguments.  The statements about runs differ in the calls
they allow and in what they ask of the states on the way, so both are parameters.

## Main definitions

* `Call`, `OrderBook.perform` — a call of the book, or an order submitted to the engine.
* `Reached allowed P b` — `b` is reached by allowed calls, through states that satisfy `P`.
* `Reachable b` — `b` is reached by any calls.

## Main results

* `Reached.refines` — **every book that is reached refines a ledger.**
* `reached_run` — a run of calls of the book reaches its last state.
* `Reached.exact` — if no total wraps on the way, the cached best prices are exact.
* `rejections_exact` — **the calls fail when they should, and then change nothing.**
-/

namespace Liquibook

open Lib OrderBook MatchingEngine

/-- A call of the book, or an order submitted to an engine on it. -/
inductive Call where
  | book (op : Op)
  | submit (preventSelfTrade : Bool) (order : IncomingOrder)
  deriving DecidableEq, Repr

/-- Make a call. -/
def OrderBook.perform (b : OrderBook) : Call → Option (List Event × OrderBook)
  | .book op => some ([], (b.step op).2)
  | .submit preventSelfTrade order => MatchingEngine.submit preventSelfTrade b order

/-- The book is reached from a new one by allowed calls, through states that all
satisfy `P`. -/
inductive Reached (allowed : Call → Prop) (P : OrderBook → Prop) : OrderBook → Prop where
  | new (referencePrice : Price4) (halfWidth capacity : ℕ)
      (hP : P (OrderBook.new referencePrice halfWidth capacity)) :
      Reached allowed P (OrderBook.new referencePrice halfWidth capacity)
  | call {b b' : OrderBook} {events : List Event} (c : Call) (h : Reached allowed P b)
      (hc : allowed c) (hcall : b.perform c = some (events, b')) (hP : P b') :
      Reached allowed P b'

/-- The book is reached from a new one by calls. -/
def Reachable (b : OrderBook) : Prop := Reached (fun _ => True) (fun _ => True) b

/-- What a call does to a ledger. -/
def Ledger.perform (l : Ledger) : Call → Ledger
  | .book op => (l.step op).2
  | .submit preventSelfTrade order => (l.submit preventSelfTrade order).2

namespace OrderBook

variable {b b' : OrderBook} {l : Ledger} {events : List Event}

theorem Refines.perform (h : Refines b l) {c : Call} (hcall : b.perform c = some (events, b')) :
    Refines b' (l.perform c) := by
  cases c with
  | book op =>
    simp only [OrderBook.perform, Option.some.injEq, Prod.mk.injEq] at hcall
    rw [← hcall.2]
    exact (h.step op).refines
  | submit preventSelfTrade order =>
    obtain ⟨b₁, b₂, hsubmit, -, -, href⟩ := h.submit preventSelfTrade order
    rw [OrderBook.perform, hsubmit, Option.some.injEq, Prod.mk.injEq] at hcall
    rw [← hcall.2]
    exact href

end OrderBook

variable {allowed : Call → Prop} {P : OrderBook → Prop} {b : OrderBook}

theorem Reached.here (h : Reached allowed P b) : P b := by
  cases h with
  | new _ _ _ hP => exact hP
  | call _ _ _ _ hP => exact hP

/-- **Every book that is reached refines a ledger.** -/
theorem Reached.refines (h : Reached allowed P b) : ∃ l, Refines b l := by
  induction h with
  | new referencePrice halfWidth capacity hP => exact ⟨_, refines_new _ _ _⟩
  | call c _ _ hcall _ ih =>
    obtain ⟨l, hl⟩ := ih
    exact ⟨_, hl.perform hcall⟩

/-- A run of calls of the book, through states that all satisfy `P`. -/
theorem reached_run {referencePrice : Price4} {halfWidth capacity : ℕ} {ops : List Op}
    (h : ∀ done ∈ ops.inits, P ((OrderBook.new referencePrice halfWidth capacity).run done)) :
    Reached (fun _ => True) P ((OrderBook.new referencePrice halfWidth capacity).run ops) := by
  simp only [List.mem_inits] at h
  induction ops using List.reverseRecOn with
  | nil => exact .new _ _ _ (h [] List.nil_prefix)
  | append_singleton ops op ih =>
    have hlast : (OrderBook.new referencePrice halfWidth capacity).run (ops ++ [op]) =
        (((OrderBook.new referencePrice halfWidth capacity).run ops).step op).2 := by
      rw [run, List.foldl_append]
      rfl
    have hP := h (ops ++ [op]) (List.prefix_refl _)
    rw [hlast] at hP ⊢
    have hops := ih fun done hd => h done (hd.trans (List.prefix_append _ _))
    exact .call (.book op) hops trivial rfl hP

theorem reachable_run (referencePrice : Price4) (halfWidth capacity : ℕ) (ops : List Op) :
    Reachable ((OrderBook.new referencePrice halfWidth capacity).run ops) :=
  reached_run fun _ _ => trivial

/-- A run on which the shares of all orders together fit in one share count. -/
theorem reached_run_bounded {referencePrice : Price4} {halfWidth capacity : ℕ} {ops : List Op}
    (h : ∀ done ∈ ops.inits,
      sharesOf ((OrderBook.new referencePrice halfWidth capacity).run done).liveOrders < 2 ^ 32) :
    Reached (fun _ => True) LevelSumsBounded
      ((OrderBook.new referencePrice halfWidth capacity).run ops) :=
  reached_run fun done hd => levelSumsBounded_of_sharesOf (h done hd)

/-! ### Exact best prices along a run -/

namespace Ledger

variable {l : Ledger}

/-- Matching keeps the cached best prices exact. -/
theorem Exact.consume : ∀ {fs : List (Resting × ℕ)} {l : Ledger}, Exact l → WF l → Bounded l →
    Exact (l.consume fs) ∧ WF (l.consume fs) ∧ Bounded (l.consume fs) := by
  intro fs
  induction fs with
  | nil => exact fun he hw hb => ⟨he, hw, hb⟩
  | cons f fs ih =>
    intro l he hw hb
    have hc := change_reduce l f.1.orderRef (UInt32.ofNat f.2)
    exact ih (he.change hw hb hc) (hw.change hc) (hb.reduce hw _ _)

/-- **A call keeps the cached best prices exact**, if no total has wrapped before. -/
theorem Exact.perform (he : Exact l) (hw : WF l) (hb : Bounded l) (c : Call) :
    Exact (l.perform c) := by
  cases c with
  | book op => exact he.change hw hb (change_step hw op)
  | submit preventSelfTrade order =>
    rw [Ledger.perform, hw.submit_snd]
    -- the fills take shares off, so no total wraps on the way either
    have he' := (@Exact.consume (l.taking preventSelfTrade order) l he hw hb).1
    cases l.rested preventSelfTrade order with
    | nil => exact he'
    | cons r rs => exact he'.append r

end Ledger

/-- **If no total wraps on the way, the cached best prices are exact.** -/
theorem Reached.exact (h : Reached allowed P b) (hP : ∀ b, P b → LevelSumsBounded b) :
    ∃ l, Refines b l ∧ l.Bounded ∧ l.Exact := by
  induction h with
  | new referencePrice halfWidth capacity _ =>
    exact ⟨_, refines_new _ _ _, Ledger.bounded_new _, Ledger.exact_new _⟩
  | call c _ _ hcall hPb ih =>
    obtain ⟨l, hl, hb, he⟩ := ih
    have hl' := hl.perform hcall
    exact ⟨_, hl', hl'.bounded_iff.mp (hP _ hPb), he.perform hl.wf hb c⟩

/-! ### Rejected calls -/

/-- An order with the reference is live. -/
def OrderBook.IsLive (b : OrderBook) (ref : OrderRef) : Prop := ∃ r ∈ b.liveOrders, r.orderRef = ref

namespace OrderBook.Refines

variable {l : Ledger} {ref : OrderRef}

theorem isLive_iff (h : Refines b l) : b.IsLive ref ↔ (l.find ref).isSome = true := by
  rw [Option.isSome_iff_ne_none, ne_eq, Ledger.find_eq_none_iff, IsLive]
  push Not
  exact exists_congr fun r => and_congr_left' h.mem_liveOrders

theorem isSome_find (h : Refines b l) :
    (b.orderIndex.find ref).isSome = (l.find ref).isSome := by
  obtain ⟨live, free, hsh, rfl, -⟩ := h
  rw [hsh.find_ledgerOf, Option.isSome_map]

theorem addOrder_false_iff (h : Refines b l) (price : Price4) (shares : Shares) (isBuy : Bool)
    (traderId : TraderId) :
    (b.addOrder ref price shares isBuy traderId).1 = false ↔
      shares = 0 ∨ b.IsLive ref ∨ b.orderCount = b.orderPool.capacity := by
  rw [h.isLive_iff, h.orderCount_eq, h.capacity_eq,
    (h.addOrder ⟨ref, price, shares, isBuy, traderId⟩).result, Ledger.add]
  dsimp only
  split
  · next hbad => exact ⟨fun _ => hbad, fun _ => rfl⟩
  · next hok => exact ⟨fun e => (by cases e), fun e => absurd e hok⟩

theorem deleteOrder_false_iff (h : Refines b l) :
    (b.deleteOrder ref).1 = false ↔ ¬ b.IsLive ref := by
  rw [h.isLive_iff, (h.deleteOrder ref).result, Ledger.delete]
  cases l.find ref <;> simp

theorem replaceOrder_false_iff (h : Refines b l) (ref newRef : OrderRef) (newShares : Shares)
    (newPrice : Price4) :
    (b.replaceOrder ref newRef newShares newPrice).1 = false ↔
      ¬ b.IsLive ref ∨ newShares = 0 ∨ (newRef ≠ ref ∧ b.IsLive newRef) := by
  rw [h.isLive_iff, h.isLive_iff, (h.replaceOrder ref newRef newShares newPrice).result,
    Ledger.replace]
  cases l.find ref with
  | none => simp
  | some r =>
    have hsome : (some r).isSome = true := rfl
    dsimp only
    split
    · next hbad =>
      exact ⟨fun _ => Or.inr (hbad.imp_right fun e => ⟨e.1.symm, e.2⟩), fun _ => rfl⟩
    · next hok =>
      refine ⟨fun e => (by cases e), fun e => absurd ?_ hok⟩
      exact (e.resolve_left (not_not.mpr hsome)).imp_right fun e => ⟨e.1.symm, e.2⟩

theorem executeOrder_false_iff (h : Refines b l) (n : Shares) :
    (b.executeOrder ref n).1 = false ↔
      ¬ b.IsLive ref ∨ n = 0 ∨ ∃ r ∈ b.liveOrders, r.orderRef = ref ∧ r.shares < n := by
  rw [h.isLive_iff, OrderBook.executeOrder, (h.reduceShares ref n).result, Ledger.reduce]
  cases hf : l.find ref with
  | none => simp
  | some r =>
    obtain ⟨hr, rfl⟩ := Ledger.mem_of_find hf
    have hex : (∃ x ∈ b.liveOrders, x.orderRef = r.orderRef ∧ x.shares < n) ↔ r.shares < n := by
      constructor
      · rintro ⟨x, hx, href, hlt⟩
        rw [← h.wf.eq_of_ref (h.mem_liveOrders.mp hx) hr href]
        exact hlt
      · exact fun hlt => ⟨r, h.mem_liveOrders.mpr hr, rfl, hlt⟩
    rw [hex]
    dsimp only
    split
    · next hbad => simpa using hbad
    · next hok => split <;> simpa using hok

/-- When the pool has a slot to hand out, the table has room for a new reference. -/
theorem insert_of_acquire (h : Refines b l) {s : ℕ} {pool : ObjectPool Order}
    (hfind : b.orderIndex.find ref = none) (hacq : b.orderPool.acquire {} = some (s, pool)) :
    (b.orderIndex.insert ref s).1 = true := by
  obtain ⟨live, free, hsh, rfl, -⟩ := h
  have hlt : live.length ≠ b.orderPool.capacity := by
    intro e
    rw [(hsh.pool.acquire_eq_none_iff _).mpr e] at hacq
    cases hacq
  have hsize : b.orderIndex.size < b.orderIndex.capacity := by
    have := hsh.length_le
    have := hsh.size_eq
    have := hsh.capacity_le
    omega
  obtain ⟨m, (hm : b.orderIndex.insert ref s = (true, m)), -⟩ :=
    hsh.index.insert_absent hfind hsize
  rw [hm]

/-- Once `replace_order` has removed the old order, it adds the new one. -/
theorem addOrder_of_replace (h : Refines b l) {newRef : OrderRef} {newShares : Shares}
    {newPrice : Price4} {s : ℕ} (hfind : b.orderIndex.find ref = some s) (hn : newShares ≠ 0)
    (hnew : ref = newRef ∨ b.orderIndex.find newRef = none) :
    ((b.removeOrderFully s).addOrder newRef newPrice newShares (b.orderPool.get s).isBuy 0).1 =
      true := by
  have hiff := h.replaceOrder_false_iff ref newRef newShares newPrice
  rw [h.isLive_iff, h.isLive_iff, ← h.isSome_find, ← h.isSome_find, hfind] at hiff
  have hok : ¬ (ref ≠ newRef ∧ (b.orderIndex.find newRef).isSome = true) := by
    rintro ⟨hne, hsome⟩
    rcases hnew with e | e
    · exact hne e
    · rw [e] at hsome
      cases hsome
  have heq : b.replaceOrder ref newRef newShares newPrice =
      (b.removeOrderFully s).addOrder newRef newPrice newShares (b.orderPool.get s).isBuy 0 := by
    unfold OrderBook.replaceOrder
    rw [hfind]
    dsimp only
    rw [if_neg hn, if_neg hok]
  rw [heq] at hiff
  rw [← Bool.not_eq_false, hiff]
  rintro (e | e | e)
  · exact e rfl
  · exact hn e
  · exact hok ⟨e.1.symm, e.2⟩

/-- What a replacement that succeeds leaves: the other orders, and the new one on the side of
the old one. -/
theorem liveOrders_replaceOrder (h : Refines b l) {newRef : OrderRef} {newShares : Shares}
    {newPrice : Price4} (hok : (b.replaceOrder ref newRef newShares newPrice).1 = true) :
    ∃ r ∈ b.liveOrders, r.orderRef = ref ∧
      (b.replaceOrder ref newRef newShares newPrice).2.liveOrders.Perm
        ((b.liveOrders.filter fun x => x.orderRef ≠ ref) ++
          [⟨newRef, newPrice, newShares, r.isBuy, 0⟩]) := by
  have hagrees := h.replaceOrder ref newRef newShares newPrice
  have href := hagrees.refines
  rw [hagrees.result] at hok
  unfold Ledger.replace at hok href
  cases hf : l.find ref with
  | none =>
    rw [hf] at hok
    cases hok
  | some r =>
    obtain ⟨hr, rfl⟩ := Ledger.mem_of_find hf
    rw [hf] at hok href
    dsimp only at hok href
    split at hok
    · cases hok
    · next hgood =>
      rw [if_neg hgood] at href
      refine ⟨r, h.mem_liveOrders.mpr hr, rfl, href.liveOrders_perm.trans ?_⟩
      -- the ledger without the old order, and then with the new one
      change List.Perm ((l.remove r).orders ++ _) _
      rw [Ledger.remove_orders]
      exact (h.liveOrders_perm.symm.filter _).append_right _

end OrderBook.Refines

/-- **The calls fail when they should, and then change nothing.**  When the pool has
a slot to hand out, the table has room for the reference, so `add_order` is never
rolled back; and once `replace_order` has removed the old order, it adds the new one, so
that when it succeeds the old order is gone and the new one is there. -/
theorem rejections_exact (hb : Reachable b) :
    (∀ ref price shares isBuy traderId,
      (b.addOrder ref price shares isBuy traderId).1 = false ↔
        shares = 0 ∨ b.IsLive ref ∨ b.orderCount = b.orderPool.capacity) ∧
    (∀ ref n, (b.executeOrder ref n).1 = false ↔
      ¬ b.IsLive ref ∨ n = 0 ∨ ∃ r ∈ b.liveOrders, r.orderRef = ref ∧ r.shares < n) ∧
    (∀ ref n, (b.cancelOrder ref n).1 = false ↔
      ¬ b.IsLive ref ∨ n = 0 ∨ ∃ r ∈ b.liveOrders, r.orderRef = ref ∧ r.shares < n) ∧
    (∀ ref, (b.deleteOrder ref).1 = false ↔ ¬ b.IsLive ref) ∧
    (∀ oldRef newRef newShares newPrice,
      (b.replaceOrder oldRef newRef newShares newPrice).1 = false ↔
        ¬ b.IsLive oldRef ∨ newShares = 0 ∨ (newRef ≠ oldRef ∧ b.IsLive newRef)) ∧
    (∀ op, (b.step op).1 = false → (b.step op).2 = b) ∧
    (∀ ref s pool, b.orderIndex.find ref = none → b.orderPool.acquire {} = some (s, pool) →
      (b.orderIndex.insert ref s).1 = true) ∧
    (∀ oldRef newRef newShares newPrice s, b.orderIndex.find oldRef = some s → newShares ≠ 0 →
      (oldRef = newRef ∨ b.orderIndex.find newRef = none) →
      ((b.removeOrderFully s).addOrder newRef newPrice newShares (b.orderPool.get s).isBuy 0).1 =
        true) ∧
    (∀ oldRef newRef newShares newPrice,
      (b.replaceOrder oldRef newRef newShares newPrice).1 = true →
        ∃ r ∈ b.liveOrders, r.orderRef = oldRef ∧
          (b.replaceOrder oldRef newRef newShares newPrice).2.liveOrders.Perm
            ((b.liveOrders.filter fun x => x.orderRef ≠ oldRef) ++
              [⟨newRef, newPrice, newShares, r.isBuy, 0⟩])) := by
  obtain ⟨l, h⟩ := hb.refines
  refine ⟨?_, ?_, ?_, ?_, ?_, ?_, ?_, ?_, ?_⟩
  · exact fun ref price shares isBuy traderId => h.addOrder_false_iff price shares isBuy traderId
  · exact fun ref n => h.executeOrder_false_iff n
  · exact fun ref n => h.executeOrder_false_iff n
  · exact fun ref => h.deleteOrder_false_iff
  · exact fun oldRef newRef newShares newPrice =>
      h.replaceOrder_false_iff oldRef newRef newShares newPrice
  · exact fun op => (h.step op).unchanged
  · exact fun ref s pool hfind hacq => h.insert_of_acquire hfind hacq
  · exact fun oldRef newRef newShares newPrice s hfind hn hnew =>
      h.addOrder_of_replace hfind hn hnew
  · exact fun oldRef newRef newShares newPrice hok => h.liveOrders_replaceOrder hok

/-- A book with room for two orders, after two have been added. -/
def twoOrderBook : OrderBook :=
  (OrderBook.new 1000 2 2).run [.add 1 1000 10 true 5, .add 2 1001 20 true 6]

theorem reachable_twoOrderBook : Reachable twoOrderBook := reachable_run 1000 2 2 _

/-- The full book refuses a third order, to cancel more shares than an order has, and to
replace one order under the reference of the other.  It does replace one by a new order. -/
theorem rejections_exact_full :
    (twoOrderBook.addOrder 3 1000 5 true 0).1 = false ∧ (twoOrderBook.cancelOrder 1 11).1 = false ∧
      (twoOrderBook.replaceOrder 1 2 5 1000).1 = false ∧
      (twoOrderBook.step (.replace 1 2 5 1000)).2 = twoOrderBook ∧
      (twoOrderBook.replaceOrder 1 3 5 1002).1 = true ∧
      (twoOrderBook.replaceOrder 1 3 5 1002).2.liveOrders.Perm
        [⟨2, 1001, 20, true, 6⟩, ⟨3, 1002, 5, true, 0⟩] := by
  have hlive : twoOrderBook.liveOrders = [⟨1, 1000, 10, true, 5⟩, ⟨2, 1001, 20, true, 6⟩] := by
    decide +kernel
  have hone : ⟨1, 1000, 10, true, 5⟩ ∈ twoOrderBook.liveOrders := by
    rw [hlive]
    decide
  have htwo : twoOrderBook.IsLive 2 := ⟨⟨2, 1001, 20, true, 6⟩, by rw [hlive]; decide, rfl⟩
  have hthree : ¬ twoOrderBook.IsLive 3 := by
    rintro ⟨r, hr, href⟩
    rw [hlive] at hr
    revert r
    decide
  obtain ⟨hadd, -, hcancel, -, hreplace, hsame, -, -, hdone⟩ :=
    rejections_exact reachable_twoOrderBook
  have hrefused := (hreplace 1 2 5 1000).mpr (Or.inr (Or.inr ⟨by decide, htwo⟩))
  have hok : (twoOrderBook.replaceOrder 1 3 5 1002).1 = true := by
    rw [← Bool.not_eq_false, hreplace]
    rintro (hnot | hzero | ⟨-, hnew⟩)
    · exact hnot ⟨_, hone, rfl⟩
    · exact absurd hzero (by decide)
    · exact hthree hnew
  refine ⟨(hadd 3 1000 5 true 0).mpr (Or.inr (Or.inr (by decide +kernel))),
    (hcancel 1 11).mpr (Or.inr (Or.inr ⟨_, hone, rfl, by decide⟩)), hrefused,
    hsame (.replace 1 2 5 1000) hrefused, hok, ?_⟩
  obtain ⟨r, hr, href, hperm⟩ := hdone 1 3 5 1002 hok
  rw [hlive] at hr hperm
  have hr' : r = ⟨1, 1000, 10, true, 5⟩ := by
    revert r
    decide
  rw [hr'] at hperm
  exact hperm

end Liquibook
