import Liquibook.Book.View

/-!
# Where levels are stored

A price in the window of the flat array has a level from the start.  A price outside gets a
node of the map with the first order that rests there, and keeps it for good: no call drops
a node, not even when its queues are empty, and a call that fails makes none.  So the map
holds the prices outside the window at which an order has rested at some time of the run.

## Main definitions

* `SameLevels` — the books have levels at the same prices.
* `Gains` — the second book has levels at more prices.

## Main results

* `Refines.gains_step` — **a call makes the levels of the orders it adds, and drops none.**
* `outlierLevels_run` — **the map holds the prices outside the window that have been used.**
-/

namespace Liquibook
namespace OrderBook

/-- The books have the same window, and levels at the same prices. -/
structure SameLevels (b b' : OrderBook) : Prop where
  flatIndexFor : b'.flatIndexFor = b.flatIndexFor
  hasLevel : ∀ p, b'.HasLevel p ↔ b.HasLevel p

/-- The books have the same window, and the second one has levels at some more prices. -/
structure Gains (b : OrderBook) (more : Price4 → Prop) (b' : OrderBook) : Prop where
  flatIndexFor : b'.flatIndexFor = b.flatIndexFor
  hasLevel : ∀ p, b'.HasLevel p ↔ b.HasLevel p ∨ more p

variable {b b' : OrderBook} {l : Ledger} {live free : List ℕ} {s : ℕ} {p : Price4}
  {more : Price4 → Prop}

namespace SameLevels

theorem refl (b : OrderBook) : SameLevels b b := ⟨rfl, fun _ => Iff.rfl⟩

theorem trans {b'' : OrderBook} (h : SameLevels b b') (h' : SameLevels b' b'') :
    SameLevels b b'' :=
  ⟨h'.flatIndexFor.trans h.flatIndexFor, fun p => (h'.hasLevel p).trans (h.hasLevel p)⟩

/-- The levels do not depend on the pool, the index and the cached best prices. -/
theorem of_eq (hr : b'.referencePrice = b.referencePrice)
    (hw : b'.flatArrayHalfWidth = b.flatArrayHalfWidth)
    (ho : b'.outlierLevels = b.outlierLevels) : SameLevels b b' := by
  have hidx : b'.flatIndexFor = b.flatIndexFor := by
    funext p
    simp only [OrderBook.flatIndexFor, hr, hw]
  refine ⟨hidx, fun p => ?_⟩
  rw [HasLevel, HasLevel, levelForQuery, levelForQuery, hidx, ho]

/-- Writing a level that is there. -/
theorem setLevel (h : b.HasLevel p) (l : PriceLevel) :
    SameLevels b (b.setLevel (some (b.ptrFor p)) l) := by
  have hidx : (b.setLevel (some (b.ptrFor p)) l).flatIndexFor = b.flatIndexFor := by
    funext q
    simp only [OrderBook.flatIndexFor, setLevel_referencePrice, setLevel_flatArrayHalfWidth]
  refine ⟨hidx, fun q => ⟨fun hq => ?_, HasLevel.setLevel⟩⟩
  by_cases hqp : q = p
  · rw [hqp]
    exact h
  unfold HasLevel levelForQuery at hq ⊢
  rw [hidx] at hq
  cases hf : b.flatIndexFor p with
  | some j => simpa [ptrFor, hf, OrderBook.setLevel] using hq
  | none =>
    have hne : compare p q ≠ .eq := fun e => hqp (Std.LawfulEqCmp.eq_of_compare e).symm
    simpa [ptrFor, hf, OrderBook.setLevel, Std.TreeMap.getElem?_insert, hne] using hq

/-- Writing a level and the pool. -/
theorem writeLevel (h : b.HasLevel p) (pool : ObjectPool Order) (l : PriceLevel) :
    SameLevels b ({ b with orderPool := pool }.setLevel (some (b.ptrFor p)) l) := by
  have hpool : SameLevels b { b with orderPool := pool } := of_eq rfl rfl rfl
  exact hpool.trans (setLevel ((hpool.hasLevel p).mpr h) l)

theorem dequeue (h : b.HasLevel p) (s : ℕ) (side : Bool) (n : Shares) :
    SameLevels b (b.dequeue s (some (b.ptrFor p)) side n) := by
  rw [dequeue_eq]
  exact writeLevel h _ _

theorem enqueue (h : b.HasLevel p) (s : ℕ) (side : Bool) (n : Shares) :
    SameLevels b (b.enqueue s (some (b.ptrFor p)) side n) := by
  rw [enqueue_eq]
  exact writeLevel h _ _

theorem recomputeBest (b : OrderBook) (side : Bool) :
    SameLevels b (b.recomputeBestAfterLevelEmptied side) := by
  unfold recomputeBestAfterLevelEmptied
  dsimp only
  split
  · exact of_eq rfl rfl rfl
  · exact of_eq rfl rfl rfl

theorem updateBestOnAdd (b : OrderBook) (p : Price4) (side : Bool) :
    SameLevels b (b.updateBestOnAdd p side) := by
  unfold OrderBook.updateBestOnAdd
  split
  · split
    · exact of_eq rfl rfl rfl
    · exact refl b
  · split
    · exact of_eq rfl rfl rfl
    · exact refl b

/-- The prices had their levels before. -/
theorem gains (h : SameLevels b b') (hmore : ∀ p, more p → b'.HasLevel p) : Gains b more b' := by
  refine ⟨h.flatIndexFor, fun p => ⟨fun hp => Or.inl ((h.hasLevel p).mp hp), ?_⟩⟩
  rintro (hp | hp)
  · exact (h.hasLevel p).mpr hp
  · exact hmore p hp

end SameLevels

namespace Gains

theorem after {b'' : OrderBook} (h' : Gains b' more b'') (h : SameLevels b b') :
    Gains b more b'' := by
  refine ⟨h'.flatIndexFor.trans h.flatIndexFor, fun p => ?_⟩
  rw [h'.hasLevel p, h.hasLevel p]

theorem before {b'' : OrderBook} (h : Gains b more b') (h' : SameLevels b' b'') :
    Gains b more b'' :=
  ⟨h'.flatIndexFor.trans h.flatIndexFor, fun p => (h'.hasLevel p).trans (h.hasLevel p)⟩

end Gains

/-! ### What a call does to the levels -/

/-- `level_for_mutation` makes a level if the price has none. -/
theorem gains_levelForMutation (b : OrderBook) (p : Price4) :
    Gains b (· = p) (b.levelForMutation p).2 := by
  unfold levelForMutation
  cases hf : b.flatIndexFor p with
  | some i =>
    have hp : b.HasLevel p := by simp [HasLevel, levelForQuery, hf]
    exact (SameLevels.refl b).gains fun q e => e ▸ hp
  | none =>
    cases ho : b.outlierLevels[p]? with
    | some l =>
      have hp : b.HasLevel p := by simp [HasLevel, levelForQuery, hf, ho]
      exact (SameLevels.refl b).gains fun q e => e ▸ hp
    | none =>
      have hidx : OrderBook.flatIndexFor
          { b with outlierLevels := b.outlierLevels.insert p { price := p } } = b.flatIndexFor :=
        rfl
      refine ⟨hidx, fun q => ?_⟩
      dsimp only
      unfold HasLevel levelForQuery
      rw [hidx]
      by_cases hqp : q = p
      · simp [hqp, hf]
      · have hne : compare p q ≠ .eq := fun e => hqp (Std.LawfulEqCmp.eq_of_compare e).symm
        simp [hqp, Std.TreeMap.getElem?_insert, hne]

namespace Shape

/-- Removing an order drops no level, not even the one that it leaves empty. -/
theorem sameLevels_remove (h : Shape b live free) (hs : s ∈ live) :
    SameLevels b (b.removeOrderFully s) := by
  obtain ⟨hlevel, hhas⟩ := h.queued.order_level s hs
  have hunhook : SameLevels b (unhook b s) := by
    have hdequeue := SameLevels.dequeue hhas s (b.orderPool.get s).isBuy (b.orderPool.get s).shares
    rw [← hlevel] at hdequeue
    exact hdequeue.trans (SameLevels.of_eq rfl rfl rfl)
  rw [removeOrderFully_eq]
  split
  · split
    · exact hunhook.trans (SameLevels.recomputeBest _ _)
    · exact hunhook
  · exact hunhook

theorem sameLevels_takeOff (h : Shape b live free) (hs : s ∈ live) (delta : Shares) :
    SameLevels b (takeOff b s delta) := by
  obtain ⟨hlevel, hhas⟩ := h.queued.order_level s hs
  rw [takeOff, reduceTotal_eq, hlevel]
  exact SameLevels.writeLevel hhas _ _

/-- A new order gets a level if its price has none. -/
theorem gains_hook (b : OrderBook) (pool : ObjectPool Order) (s : ℕ) (r : Resting) :
    Gains b (· = r.price) (hook b pool s r) := by
  set b₁ : OrderBook := { b with orderPool := pool } with hb₁
  set b₂ := (b₁.levelForMutation r.price).2 with hb₂
  set b₃ := b₂.modifyOrder s (newOrder r (b₂.ptrFor r.price)) with hb₃
  have hsame₁ : SameLevels b b₁ := SameLevels.of_eq rfl rfl rfl
  have hgains : Gains b₁ (· = r.price) b₂ := gains_levelForMutation b₁ r.price
  have hsame₃ : SameLevels b₂ b₃ := SameLevels.of_eq rfl rfl rfl
  have hself : b₃.HasLevel r.price :=
    (hsame₃.hasLevel _).mpr ((hgains.hasLevel _).mpr (Or.inr rfl))
  exact (hgains.after hsame₁).before (hsame₃.trans (SameLevels.enqueue hself s r.isBuy r.shares))

end Shape

/-- `add_order` makes the level of its order, and no other. -/
theorem gains_addOrder (r : Resting)
    (hok : (b.addOrder r.orderRef r.price r.shares r.isBuy r.traderId).1 = true) :
    Gains b (· = r.price) (b.addOrder r.orderRef r.price r.shares r.isBuy r.traderId).2 := by
  have hpos : r.shares ≠ 0 := by
    intro e
    rw [addOrder, if_pos e] at hok
    cases hok
  have hfind : b.orderIndex.find r.orderRef = none := by
    by_contra e
    rw [addOrder, if_neg hpos, if_pos (Option.isSome_iff_ne_none.mpr e)] at hok
    cases hok
  cases hacq : b.orderPool.acquire ({} : Order) with
  | none =>
    rw [addOrder, if_neg hpos, if_neg (by rw [hfind]; simp), hacq] at hok
    cases hok
  | some sp =>
    obtain ⟨s, pool⟩ := sp
    rw [Shape.addOrder_eq hpos hfind hacq] at hok ⊢
    -- the roll-back reports a failure
    cases hins : (Shape.hook b pool s r).orderIndex.insert r.orderRef s with
    | mk ok index =>
    rw [hins] at hok
    cases ok with
    | false => cases hok
    | true =>
    have hindex : SameLevels (Shape.hook b pool s r)
        { Shape.hook b pool s r with orderIndex := index } := SameLevels.of_eq rfl rfl rfl
    exact (Shape.gains_hook b pool s r).before (hindex.trans (SameLevels.updateBestOnAdd _ _ _))

namespace Refines

/-- Every order that rests has a level. -/
theorem hasLevel_of_live (h : Refines b l) {r : Resting} (hr : r ∈ b.liveOrders) :
    b.HasLevel r.price := by
  obtain ⟨live, free, hsh, rfl, -⟩ := id h
  rw [h.mem_liveOrders] at hr
  obtain ⟨s, hs, rfl⟩ := List.mem_map.mp hr
  exact (hsh.queued.order_level s hs).2

/-- A call that changes no level makes those of the orders it leaves. -/
theorem gains_of_same (h' : Refines b' l) (hsame : SameLevels b b') :
    Gains b (fun p => ∃ x ∈ b'.liveOrders, x.price = p) b' := by
  refine hsame.gains fun p => ?_
  rintro ⟨x, hx, rfl⟩
  exact h'.hasLevel_of_live hx

theorem gains_add (h : Refines b l) (r : Resting) :
    Gains b (fun p => ∃ x ∈
      (b.addOrder r.orderRef r.price r.shares r.isBuy r.traderId).2.liveOrders, x.price = p)
      (b.addOrder r.orderRef r.price r.shares r.isBuy r.traderId).2 := by
  have hadd := h.addOrder r
  cases hok : (b.addOrder r.orderRef r.price r.shares r.isBuy r.traderId).1 with
  | false =>
    rw [hadd.unchanged hok]
    exact h.gains_of_same (SameLevels.refl b)
  | true =>
    have hgains := gains_addOrder r hok
    have hnew : r ∈ (b.addOrder r.orderRef r.price r.shares r.isBuy r.traderId).2.liveOrders := by
      rw [hadd.refines.mem_liveOrders]
      have hledger := hadd.result.symm.trans hok
      unfold Ledger.add at hledger ⊢
      split at hledger
      · cases hledger
      · next hroom =>
        rw [if_neg hroom]
        exact List.mem_append_right _ List.mem_cons_self
    refine ⟨hgains.flatIndexFor, fun p => ⟨fun hp => ?_, ?_⟩⟩
    · rcases (hgains.hasLevel p).mp hp with hp | rfl
      · exact Or.inl hp
      · exact Or.inr ⟨r, hnew, rfl⟩
    · rintro (hp | ⟨x, hx, rfl⟩)
      · exact (hgains.hasLevel p).mpr (Or.inl hp)
      · exact hadd.refines.hasLevel_of_live hx

theorem sameLevels_reduceShares (h : Refines b l) (ref : OrderRef) (delta : Shares) :
    SameLevels b (b.reduceShares ref delta).2 := by
  obtain ⟨live, free, hsh, -, -⟩ := id h
  unfold OrderBook.reduceShares
  cases hfind : b.orderIndex.find ref with
  | none => exact SameLevels.refl b
  | some s =>
    obtain ⟨hs, -⟩ := (hsh.find_iff ref s).mp hfind
    dsimp only
    split
    · exact SameLevels.refl b
    · have htake := hsh.sameLevels_takeOff hs delta
      split
      · exact htake.trans ((hsh.takeOff_shape hs delta).1.sameLevels_remove hs)
      · exact htake

theorem sameLevels_deleteOrder (h : Refines b l) (ref : OrderRef) :
    SameLevels b (b.deleteOrder ref).2 := by
  obtain ⟨live, free, hsh, -, -⟩ := id h
  unfold OrderBook.deleteOrder
  cases hfind : b.orderIndex.find ref with
  | none => exact SameLevels.refl b
  | some s => exact hsh.sameLevels_remove ((hsh.find_iff ref s).mp hfind).1

/-- A replacement removes an order, which drops no level, and adds one. -/
theorem gains_replaceOrder (h : Refines b l) (oldRef newRef : OrderRef) (newShares : Shares)
    (newPrice : Price4) :
    Gains b (fun p => ∃ x ∈ (b.replaceOrder oldRef newRef newShares newPrice).2.liveOrders,
      x.price = p) (b.replaceOrder oldRef newRef newShares newPrice).2 := by
  obtain ⟨live, free, hsh, rfl, hwf⟩ := id h
  unfold OrderBook.replaceOrder
  cases hfind : b.orderIndex.find oldRef with
  | none => exact h.gains_of_same (SameLevels.refl b)
  | some s =>
    obtain ⟨hs, -⟩ := (hsh.find_iff oldRef s).mp hfind
    dsimp only
    split
    · exact h.gains_of_same (SameLevels.refl b)
    split
    · exact h.gains_of_same (SameLevels.refl b)
    obtain ⟨hsh', hledger⟩ := hsh.removeOrderFully hs
    have hremoved : Refines (b.removeOrderFully s)
        ((b.ledgerOf live).remove (b.orderPool.get s).resting) :=
      ⟨_, _, hsh', hledger, hwf.remove (List.mem_map_of_mem hs)⟩
    have hadd := hremoved.gains_add
      { orderRef := newRef, price := newPrice, shares := newShares,
        isBuy := (b.orderPool.get s).isBuy, traderId := 0 }
    exact hadd.after (hsh.sameLevels_remove hs)

/-- **A call makes the levels of the orders it adds, and drops none.** -/
theorem gains_step (h : Refines b l) (op : Op) :
    Gains b (fun p => ∃ x ∈ (b.step op).2.liveOrders, x.price = p) (b.step op).2 := by
  have hsame := (h.step op).refines.gains_of_same (b := b)
  cases op with
  | add ref price shares isBuy traderId =>
    exact h.gains_add { orderRef := ref, price := price, shares := shares, isBuy := isBuy,
                        traderId := traderId }
  | execute ref shares => exact hsame (h.sameLevels_reduceShares ref shares)
  | cancel ref shares => exact hsame (h.sameLevels_reduceShares ref shares)
  | delete ref => exact hsame (h.sameLevels_deleteOrder ref)
  | replace oldRef newRef newShares newPrice => exact h.gains_replaceOrder _ _ _ _

end Refines

/-! ### Whole runs -/

/-- A price is outside the window. -/
theorem flatIndexFor_eq_none_iff (b : OrderBook) (p : Price4) : b.flatIndexFor p = none ↔
    b.flatArrayHalfWidth < ((p.toNat : ℤ) - b.referencePrice.toNat).natAbs := by
  unfold flatIndexFor
  dsimp only
  split
  · simp only [true_iff]
    omega
  · simp only [reduceCtorEq, false_iff]
    omega

/-- A price has a level from the start, or since an order rested there. -/
theorem gains_run (referencePrice : Price4) (halfWidth capacity : ℕ) (ops : List Op) :
    Gains (new referencePrice halfWidth capacity)
      (fun p => ∃ pre, pre <+: ops ∧
        ∃ x ∈ ((new referencePrice halfWidth capacity).run pre).liveOrders, x.price = p)
      ((new referencePrice halfWidth capacity).run ops) := by
  induction ops using List.reverseRecOn with
  | nil =>
    refine (SameLevels.refl _).gains fun p => ?_
    rintro ⟨pre, hpre, x, hx, -⟩
    rw [List.prefix_nil.mp hpre, run, List.foldl_nil, liveOrders_new] at hx
    cases hx
  | append_singleton ops op ih =>
    have hstep := (refines_run referencePrice halfWidth capacity ops).gains_step op
    have hrun : (new referencePrice halfWidth capacity).run (ops ++ [op]) =
        (((new referencePrice halfWidth capacity).run ops).step op).2 := List.foldl_append
    rw [hrun]
    refine ⟨hstep.flatIndexFor.trans ih.flatIndexFor, fun p => ?_⟩
    rw [hstep.hasLevel p, ih.hasLevel p, or_assoc]
    refine or_congr_right ⟨?_, ?_⟩
    · rintro (⟨pre, hpre, hused⟩ | hused)
      · exact ⟨pre, hpre.trans (List.prefix_append _ _), hused⟩
      · rw [← hrun] at hused
        exact ⟨ops ++ [op], List.prefix_rfl, hused⟩
    · rintro ⟨pre, hpre, hused⟩
      rcases List.prefix_concat_iff.mp hpre with rfl | hpre
      · rw [hrun] at hused
        exact Or.inr hused
      · exact Or.inl ⟨pre, hpre, hused⟩

/-- **The map holds the prices outside the window that have been used.**  After any run from
a new book, a price is a key of the outlier levels exactly if it is further from the
reference price than the half width, and an order rested there at some time of the run. -/
theorem outlierLevels_run (referencePrice : Price4) (halfWidth capacity : ℕ) (ops : List Op)
    (p : Price4) :
    p ∈ ((new referencePrice halfWidth capacity).run ops).outlierLevels ↔
      halfWidth < ((p.toNat : ℤ) - referencePrice.toNat).natAbs ∧
        ∃ pre, pre <+: ops ∧
          ∃ x ∈ ((new referencePrice halfWidth capacity).run pre).liveOrders, x.price = p := by
  obtain ⟨hwindow, hlevels⟩ := gains_run referencePrice halfWidth capacity ops
  set b := (new referencePrice halfWidth capacity).run ops with hb
  have hout : (new referencePrice halfWidth capacity).flatIndexFor p = none ↔
      halfWidth < ((p.toNat : ℤ) - referencePrice.toNat).natAbs :=
    flatIndexFor_eq_none_iff _ p
  have hkeys : LevelsOK b := by
    obtain ⟨live, free, hsh, -, -⟩ := refines_run referencePrice halfWidth capacity ops
    exact hsh.queued.levels
  have hnew : (new referencePrice halfWidth capacity).flatIndexFor p = none →
      ¬ (new referencePrice halfWidth capacity).HasLevel p := by
    intro hnone
    rw [HasLevel, levelForQuery, hnone]
    simp [new]
  have hmem : p ∈ b.outlierLevels ↔ b.flatIndexFor p = none ∧ b.HasLevel p := by
    rw [Std.TreeMap.mem_iff_isSome_getElem?]
    constructor
    · intro hsome
      obtain ⟨l, hl⟩ := Option.isSome_iff_exists.mp hsome
      have hnone := (hkeys.outlier_key p l hl).1
      exact ⟨hnone, by simp [HasLevel, levelForQuery, hnone, hl]⟩
    · rintro ⟨hnone, hhas⟩
      rw [HasLevel, levelForQuery, hnone] at hhas
      cases ho : b.outlierLevels[p]? with
      | some l => rfl
      | none => rw [ho] at hhas; cases hhas
  rw [hmem, hwindow, hout]
  refine and_congr_right fun hfar => ?_
  rw [hlevels p]
  exact or_iff_right (hnew (hout.mpr hfar))

end OrderBook
end Liquibook
