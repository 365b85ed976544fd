import Liquibook.Book.OrderBook

/-!
# Price levels, wherever they are stored

A price is served by a slot of the flat array or by a node of the outlier map,
depending on the window of the book alone.  This file hides the difference: every
price `p` has one pointer `b.ptrFor p` and one level `b.levelAt p`, writing the
level of one price leaves the levels of all others alone, and the two scans of the
book find the best price among the levels that still have shares.

The window may run below price `0` or above the largest price.  The slots there
carry a wrapped price, but no price is served by them, so they stay empty and the
scans pass them by.

## Main definitions

* `PriceLevel.queue`, `PriceLevel.total` — the queue and the total of one side.
* `OrderBook.ptrFor`, `OrderBook.levelAt` — the level of a price.
* `LevelsOK b` — every level carries its price, and unused slots are empty.

## Main results

* `levelAt_setLevel` — writing one level.
* `LevelsOK.isBest_bestPriceWhere` — **the scan finds the best price with shares.**
-/

namespace Liquibook

open Lib

/-- The queue of one side. -/
def PriceLevel.queue (l : PriceLevel) (isBuy : Bool) : IntrusiveList :=
  if isBuy then l.bids else l.asks

/-- The share total of one side. -/
def PriceLevel.total (l : PriceLevel) (isBuy : Bool) : Shares :=
  if isBuy then l.totalBidShares else l.totalAskShares

/-- The level with the queue and the total of one side rewritten. -/
def PriceLevel.withSide (l : PriceLevel) (isBuy : Bool) (queue : IntrusiveList) (total : Shares) :
    PriceLevel :=
  if isBuy then { l with bids := queue, totalBidShares := total }
  else { l with asks := queue, totalAskShares := total }

namespace PriceLevel

variable (l : PriceLevel) (isBuy side : Bool) (queue : IntrusiveList) (total : Shares)

@[simp] theorem withSide_price : (l.withSide isBuy queue total).price = l.price := by
  cases isBuy <;> rfl

theorem queue_withSide : (l.withSide isBuy queue total).queue side =
    if side = isBuy then queue else l.queue side := by
  cases isBuy <;> cases side <;> rfl

theorem total_withSide : (l.withSide isBuy queue total).total side =
    if side = isBuy then total else l.total side := by
  cases isBuy <;> cases side <;> rfl

end PriceLevel

namespace OrderBook

/-! ### The ranking of prices -/

/-- For either side, "better" ranks the prices. -/
theorem ranking_better (isBuy : Bool) : Ranking fun p q => better isBuy p q = true where
  irrefl := by intro p; cases isBuy <;> simp [better]
  trans := by
    intro p q r
    cases isBuy <;> simp only [better, decide_eq_true_eq, gt_iff_lt, UInt32.lt_iff_toNat_lt,
      if_true, Bool.false_eq_true, if_false] <;> omega
  connected := by
    intro p q
    cases isBuy <;> simp only [better, decide_eq_true_eq, gt_iff_lt, UInt32.lt_iff_toNat_lt,
      ← UInt32.toNat_inj, if_true, Bool.false_eq_true, if_false] <;> omega

theorem better_true_iff {p q : Price4} : better true p q = true ↔ q < p := by simp [better]

theorem better_false_iff {p q : Price4} : better false p q = true ↔ p < q := by simp [better]

/-- The source's `is_buy ? std::max(f, o) : std::min(f, o)`. -/
theorem max_min_eq (isBuy : Bool) (f o : Price4) :
    (if isBuy then max f o else min f o) = if better isBuy o f = true then o else f := by
  cases isBuy with
  | true =>
    simp only [if_true, better_true_iff]
    change (if f ≤ o then o else f) = _
    simp only [UInt32.le_iff_toNat_le, UInt32.lt_iff_toNat_lt]
    by_cases h : f.toNat < o.toNat
    · rw [if_pos h, if_pos (by omega)]
    · rw [if_neg h]
      split
      · exact UInt32.toNat_inj.mp (by omega)
      · rfl
  | false =>
    simp only [Bool.false_eq_true, if_false, better_false_iff]
    change (if f ≤ o then f else o) = _
    simp only [UInt32.le_iff_toNat_le, UInt32.lt_iff_toNat_lt]
    by_cases h : o.toNat < f.toNat
    · rw [if_pos h, if_neg (by omega)]
    · rw [if_neg h, if_pos (by omega)]

/-! ### The window of the flat array -/

/-- The pointer to the level of a price. -/
def ptrFor (b : OrderBook) (price : Price4) : LevelPtr :=
  match b.flatIndexFor price with
  | some i => .flat i
  | none => .outlier price

/-- The level of a price; an empty one if the price has none yet. -/
def levelAt (b : OrderBook) (price : Price4) : PriceLevel := b.level (some (b.ptrFor price))

theorem flatIndexFor_eq_some_iff {b : OrderBook} {p : Price4} {i : ℕ} :
    b.flatIndexFor p = some i ↔
      (p.toNat : ℤ) = b.referencePrice.toNat + ((i : ℤ) - b.flatArrayHalfWidth) ∧
        i < b.flatSize := by
  unfold flatIndexFor flatSize
  dsimp only
  split
  · next h =>
    simp only [reduceCtorEq, false_iff, not_and]
    intro h1 h2
    omega
  · next h =>
    rw [Option.some.injEq]
    omega

/-- The slot of a price carries that price. -/
theorem slotPrice_of_flatIndexFor {b : OrderBook} {p : Price4} {i : ℕ}
    (h : b.flatIndexFor p = some i) :
    slotPrice b.referencePrice b.flatArrayHalfWidth i = p := by
  rw [slotPrice, ← (flatIndexFor_eq_some_iff.mp h).1]
  apply UInt32.toNat_inj.mp
  have := p.toNat_lt
  simp only [UInt32.ofInt, UInt32.toNat_ofNat']
  omega

/-- Slots further up the array serve higher prices. -/
theorem lt_of_flatIndexFor {b : OrderBook} {p q : Price4} {i j : ℕ}
    (hp : b.flatIndexFor p = some i) (hq : b.flatIndexFor q = some j) (hij : i < j) : p < q := by
  have h1 := (flatIndexFor_eq_some_iff.mp hp).1
  have h2 := (flatIndexFor_eq_some_iff.mp hq).1
  rw [UInt32.lt_iff_toNat_lt]
  omega

theorem ptrFor_injective {b : OrderBook} {p q : Price4} (h : b.ptrFor p = b.ptrFor q) : p = q := by
  unfold ptrFor at h
  cases hp : b.flatIndexFor p with
  | none =>
    cases hq : b.flatIndexFor q with
    | none => simpa [hp, hq] using h
    | some j => simp [hp, hq] at h
  | some i =>
    cases hq : b.flatIndexFor q with
    | none => simp [hp, hq] at h
    | some j =>
      have hij : i = j := by simpa [hp, hq] using h
      rw [← slotPrice_of_flatIndexFor hp, ← slotPrice_of_flatIndexFor hq, hij]

/-- The pointer of a price depends on the window only. -/
theorem ptrFor_congr {b b' : OrderBook} (hr : b'.referencePrice = b.referencePrice)
    (hw : b'.flatArrayHalfWidth = b.flatArrayHalfWidth) : b'.ptrFor = b.ptrFor := by
  funext p
  simp only [ptrFor, flatIndexFor, hr, hw]

/-! ### Reading and writing levels -/

variable {b : OrderBook}

@[simp] theorem setLevel_orderPool (b : OrderBook) (ptr : Option LevelPtr) (l : PriceLevel) :
    (b.setLevel ptr l).orderPool = b.orderPool := by
  unfold setLevel; split <;> rfl

@[simp] theorem setLevel_orderIndex (b : OrderBook) (ptr : Option LevelPtr) (l : PriceLevel) :
    (b.setLevel ptr l).orderIndex = b.orderIndex := by
  unfold setLevel; split <;> rfl

@[simp] theorem setLevel_referencePrice (b : OrderBook) (ptr : Option LevelPtr) (l : PriceLevel) :
    (b.setLevel ptr l).referencePrice = b.referencePrice := by
  unfold setLevel; split <;> rfl

@[simp] theorem setLevel_flatArrayHalfWidth (b : OrderBook) (ptr : Option LevelPtr)
    (l : PriceLevel) : (b.setLevel ptr l).flatArrayHalfWidth = b.flatArrayHalfWidth := by
  unfold setLevel; split <;> rfl

@[simp] theorem ptrFor_setLevel (b : OrderBook) (ptr : Option LevelPtr) (l : PriceLevel) :
    (b.setLevel ptr l).ptrFor = b.ptrFor :=
  ptrFor_congr (by simp) (by simp)

theorem level_setLevel (b : OrderBook) (ptr q : LevelPtr) (l : PriceLevel) :
    (b.setLevel (some ptr) l).level (some q) = if q = ptr then l else b.level (some q) := by
  cases ptr with
  | flat i =>
    cases q with
    | flat j =>
      simp only [setLevel, level, Function.update_apply, LevelPtr.flat.injEq]
    | outlier p => simp [setLevel, level]
  | outlier p =>
    cases q with
    | flat j => simp [setLevel, level]
    | outlier q =>
      simp only [setLevel, level, Std.TreeMap.getD_insert, LevelPtr.outlier.injEq]
      by_cases h : q = p
      · simp [h]
      · rw [if_neg h, if_neg fun e => h (Std.LawfulEqCmp.eq_of_compare e).symm]

/-- **Writing the level of one price** leaves the levels of all others alone. -/
theorem levelAt_setLevel (b : OrderBook) (p q : Price4) (l : PriceLevel) :
    (b.setLevel (some (b.ptrFor p)) l).levelAt q = if q = p then l else b.levelAt q := by
  rw [levelAt, ptrFor_setLevel, level_setLevel]
  by_cases h : q = p
  · rw [if_pos h, if_pos (by rw [h])]
  · rw [if_neg h, if_neg fun e => h (ptrFor_injective e)]
    rfl

/-- Every level carries its own price, the slots no price is served by are empty,
and the map holds only prices outside the window. -/
structure LevelsOK (b : OrderBook) : Prop where
  flat_price : ∀ i, (b.flatLevels i).price = slotPrice b.referencePrice b.flatArrayHalfWidth i
  flat_unused : ∀ i, (∀ p, b.flatIndexFor p ≠ some i) →
    b.flatLevels i = { price := slotPrice b.referencePrice b.flatArrayHalfWidth i }
  outlier_key : ∀ p l, b.outlierLevels[p]? = some l → b.flatIndexFor p = none ∧ l.price = p

/-- The price has a level: a slot of the array, or a node of the map. -/
def HasLevel (b : OrderBook) (p : Price4) : Prop := (b.levelForQuery p).isSome

theorem levelForQuery_eq (b : OrderBook) (p : Price4) :
    b.levelForQuery p = if (b.levelForQuery p).isSome then some (b.ptrFor p) else none := by
  unfold levelForQuery ptrFor
  cases b.flatIndexFor p with
  | some i => rfl
  | none => cases b.outlierLevels[p]? <;> rfl

theorem HasLevel.levelForQuery {p : Price4} (h : b.HasLevel p) :
    b.levelForQuery p = some (b.ptrFor p) := by
  rw [HasLevel] at h
  rw [levelForQuery_eq, if_pos h]

/-- A price without a level has nothing on either side. -/
theorem levelAt_of_not_hasLevel {p : Price4} (h : ¬ b.HasLevel p) : b.levelAt p = {} := by
  unfold HasLevel OrderBook.levelForQuery at h
  unfold levelAt ptrFor
  cases hf : b.flatIndexFor p with
  | some i => simp [hf] at h
  | none =>
    cases ho : b.outlierLevels[p]? with
    | some l => simp [hf, ho] at h
    | none => simp [level, Std.TreeMap.getD_eq_getD_getElem?, ho]

/-- `shares_at` reads the total of the level. -/
theorem sharesAt_eq (b : OrderBook) (p : Price4) (side : Bool) :
    b.sharesAt p side = (b.levelAt p).total side := by
  unfold sharesAt
  rw [levelForQuery_eq]
  by_cases h : (b.levelForQuery p).isSome = true
  · rw [if_pos h]
    rfl
  · rw [if_neg h, levelAt_of_not_hasLevel h]
    cases side <;> rfl

theorem LevelsOK.levelAt_price (hb : LevelsOK b) {p : Price4} (h : b.HasLevel p) :
    (b.levelAt p).price = p := by
  unfold HasLevel OrderBook.levelForQuery at h
  unfold levelAt ptrFor
  cases hf : b.flatIndexFor p with
  | some i => exact (hb.flat_price i).trans (slotPrice_of_flatIndexFor hf)
  | none =>
    cases ho : b.outlierLevels[p]? with
    | some l => simpa [level, Std.TreeMap.getD_eq_getD_getElem?, ho] using (hb.outlier_key p l ho).2
    | none => simp [hf, ho] at h

/-- The pointer `level_for_mutation` returns, and what it leaves of the book. -/
theorem levelForMutation_fst (b : OrderBook) (p : Price4) :
    (b.levelForMutation p).1 = b.ptrFor p := by
  unfold levelForMutation ptrFor
  cases b.flatIndexFor p with
  | some i => rfl
  | none => cases b.outlierLevels[p]? <;> rfl

/-- A book in which only the outlier levels may differ. -/
theorem levelForMutation_snd (b : OrderBook) (p : Price4) :
    ∃ m, (b.levelForMutation p).2 = { b with outlierLevels := m } := by
  unfold levelForMutation
  cases b.flatIndexFor p with
  | some i => exact ⟨b.outlierLevels, rfl⟩
  | none =>
    cases b.outlierLevels[p]? with
    | some l => exact ⟨b.outlierLevels, rfl⟩
    | none => exact ⟨_, rfl⟩

/-- `level_for_mutation` creates an empty level at most: the queues and totals of
all prices stay. -/
theorem levelForMutation_levelAt (b : OrderBook) (p q : Price4) (side : Bool) :
    ((b.levelForMutation p).2.levelAt q).queue side = (b.levelAt q).queue side ∧
      ((b.levelForMutation p).2.levelAt q).total side = (b.levelAt q).total side := by
  unfold levelForMutation
  cases hf : b.flatIndexFor p with
  | some i => exact ⟨rfl, rfl⟩
  | none =>
    cases ho : b.outlierLevels[p]? with
    | some l => exact ⟨rfl, rfl⟩
    | none =>
      -- the new node is reached from `p` only, and `p` had no level before
      have hset : { b with outlierLevels := b.outlierLevels.insert p { price := p } } =
          b.setLevel (some (b.ptrFor p)) { price := p } := by
        rw [ptrFor, hf]
        rfl
      dsimp only
      rw [hset, levelAt_setLevel]
      by_cases h : q = p
      · have hempty : b.levelAt q = {} := by
          refine levelAt_of_not_hasLevel ?_
          simp [h, HasLevel, levelForQuery, hf, ho]
        rw [if_pos h, hempty]
        cases side <;> exact ⟨rfl, rfl⟩
      · rw [if_neg h]
        exact ⟨rfl, rfl⟩

/-- Writing a level that carries its price keeps the levels in order. -/
theorem LevelsOK.setLevel (hb : LevelsOK b) {p : Price4} {l : PriceLevel} (hl : l.price = p) :
    LevelsOK (b.setLevel (some (b.ptrFor p)) l) := by
  have hidx : ∀ q, (b.setLevel (some (b.ptrFor p)) l).flatIndexFor q = b.flatIndexFor q := by
    intro q
    simp only [flatIndexFor, setLevel_referencePrice, setLevel_flatArrayHalfWidth]
  refine ⟨?_, ?_, ?_⟩
  · intro i
    rw [setLevel_referencePrice, setLevel_flatArrayHalfWidth]
    cases hf : b.flatIndexFor p with
    | none => simpa [ptrFor, hf, OrderBook.setLevel] using hb.flat_price i
    | some j =>
      simp only [ptrFor, hf, OrderBook.setLevel, Function.update_apply]
      split
      · next h => rw [hl, h, slotPrice_of_flatIndexFor hf]
      · exact hb.flat_price i
  · intro i hi
    simp only [hidx] at hi
    rw [setLevel_referencePrice, setLevel_flatArrayHalfWidth]
    cases hf : b.flatIndexFor p with
    | none => simpa [ptrFor, hf, OrderBook.setLevel] using hb.flat_unused i hi
    | some j =>
      have hij : i ≠ j := fun e => hi p (by rw [hf, e])
      simpa [ptrFor, hf, OrderBook.setLevel, Function.update_apply, hij] using hb.flat_unused i hi
  · intro q k hk
    rw [hidx]
    cases hf : b.flatIndexFor p with
    | some j => exact hb.outlier_key q k (by simpa [ptrFor, hf, OrderBook.setLevel] using hk)
    | none =>
      simp only [ptrFor, hf, OrderBook.setLevel, Std.TreeMap.getElem?_insert] at hk
      split at hk
      · next h =>
        have hpq := Std.LawfulEqCmp.eq_of_compare h
        rw [← hpq, hf, ← Option.some.inj hk, hl]
        exact ⟨rfl, rfl⟩
      · exact hb.outlier_key q k hk

theorem HasLevel.setLevel {p q : Price4} {l : PriceLevel} (h : b.HasLevel q) :
    (b.setLevel (some (b.ptrFor p)) l).HasLevel q := by
  unfold HasLevel OrderBook.levelForQuery at h ⊢
  have hidx : (b.setLevel (some (b.ptrFor p)) l).flatIndexFor q = b.flatIndexFor q := by
    simp only [flatIndexFor, setLevel_referencePrice, setLevel_flatArrayHalfWidth]
  rw [hidx]
  cases hq : b.flatIndexFor q with
  | some i => rfl
  | none =>
    simp only [hq] at h
    cases hf : b.flatIndexFor p with
    | some j => simpa [ptrFor, hf, OrderBook.setLevel] using h
    | none =>
      simp only [ptrFor, hf, OrderBook.setLevel, Std.TreeMap.getElem?_insert]
      split
      · rfl
      · next hnone =>
        split at hnone
        · cases hnone
        · simp [hnone] at h

/-- After `level_for_mutation` the price has a level, the others keep theirs, and
the levels are still in order. -/
theorem LevelsOK.levelForMutation (hb : LevelsOK b) (p : Price4) :
    LevelsOK (b.levelForMutation p).2 ∧ (b.levelForMutation p).2.HasLevel p ∧
      ∀ q, b.HasLevel q → (b.levelForMutation p).2.HasLevel q := by
  unfold OrderBook.levelForMutation
  cases hf : b.flatIndexFor p with
  | some i => exact ⟨hb, by simp [HasLevel, OrderBook.levelForQuery, hf], fun q h => h⟩
  | none =>
    cases ho : b.outlierLevels[p]? with
    | some l => exact ⟨hb, by simp [HasLevel, OrderBook.levelForQuery, hf, ho], fun q h => h⟩
    | none =>
      have hset : { b with outlierLevels := b.outlierLevels.insert p { price := p } } =
          b.setLevel (some (b.ptrFor p)) { price := p } := by
        rw [ptrFor, hf]
        rfl
      refine ⟨by rw [hset]; exact hb.setLevel rfl, ?_, fun q h => by rw [hset]; exact h.setLevel⟩
      have hidx : OrderBook.flatIndexFor
          { b with outlierLevels := b.outlierLevels.insert p { price := p } } p = none := hf
      simp [HasLevel, OrderBook.levelForQuery, hidx]

/-! ### The scan -/

/-- A slot with shares serves the price it carries. -/
theorem LevelsOK.flatIndexFor_of_total (hb : LevelsOK b) {i : ℕ} {side : Bool}
    (h : (b.flatLevels i).total side ≠ 0) : b.flatIndexFor (b.flatLevels i).price = some i := by
  by_contra hcon
  have hunused : ∀ p, b.flatIndexFor p ≠ some i := by
    intro p hp
    exact hcon (by rw [hb.flat_price, slotPrice_of_flatIndexFor hp, hp])
  refine h ?_
  rw [hb.flat_unused i hunused]
  cases side <;> rfl

theorem total_true (l : PriceLevel) : l.total true = l.totalBidShares := rfl

theorem total_false (l : PriceLevel) : l.total false = l.totalAskShares := rfl

theorem decide_pos_eq (s : Shares) : decide (s > 0) = decide (s ≠ 0) := by
  rw [decide_eq_decide, gt_iff_lt, UInt32.lt_iff_toNat_lt, ne_eq, ← UInt32.toNat_inj]
  exact Nat.pos_iff_ne_zero

/-- The part of the scan that runs over the flat array: from the top for bids, from
the bottom for asks. -/
def bestInFlat (b : OrderBook) (isBuy : Bool) (admits : Price4 → Bool) : Option Price4 :=
  ((if isBuy then (List.range b.flatSize).reverse else List.range b.flatSize).find? fun i =>
    admits (b.flatLevels i).price && decide ((b.flatLevels i).total isBuy ≠ 0)).map
      fun i => (b.flatLevels i).price

/-- The part of the scan that runs over the outliers. -/
def bestInOutliers (b : OrderBook) (isBuy : Bool) (admits : Price4 → Bool) : Option Price4 :=
  ((b.outlierLevels.toList.filter fun e => admits e.1 && decide (e.2.total isBuy ≠ 0)).map
    Prod.fst).foldl (improve fun p q => better isBuy p q = true) none

/-- The scan, taken apart. -/
theorem bestPriceWhere_eq (b : OrderBook) (isBuy : Bool) (admits : Price4 → Bool) :
    b.bestPriceWhere isBuy admits =
      match b.bestInFlat isBuy admits, b.bestInOutliers isBuy admits with
      | some f, some o => some (if better isBuy o f = true then o else f)
      | some f, none => some f
      | none, o => o := by
  have hout : b.bestInOutliers isBuy admits =
      b.outlierLevels.foldl (fun best price level =>
        if !admits price then best
        else
          let shares := if isBuy then level.totalBidShares else level.totalAskShares
          if shares = 0 then best
          else if best.all (better isBuy price) then some price
          else best) none := by
    rw [bestInOutliers, Std.TreeMap.foldl_eq_foldl_toList, List.foldl_map, List.foldl_filter]
    congr 1
    funext best e
    change _ = if !admits e.1 then best else if e.2.total isBuy = 0 then best else
      if best.all (better isBuy e.1) then some e.1 else best
    by_cases ha : admits e.1 = true
    · by_cases ht : e.2.total isBuy = 0
      · simp [ha, ht]
      · cases best <;> simp [ha, ht, improve]
    · simp [ha]
  have hflat : b.bestInFlat isBuy admits =
      if isBuy then
        ((List.range b.flatSize).reverse.find? fun i =>
          admits (b.flatLevels i).price && decide ((b.flatLevels i).totalBidShares > 0)).map
            fun i => (b.flatLevels i).price
      else
        ((List.range b.flatSize).find? fun i =>
          admits (b.flatLevels i).price && decide ((b.flatLevels i).totalAskShares > 0)).map
            fun i => (b.flatLevels i).price := by
    unfold bestInFlat
    cases isBuy <;> simp only [decide_pos_eq, total_true, total_false, if_true,
      Bool.false_eq_true, if_false] <;> rfl
  unfold bestPriceWhere
  rw [← hout, ← hflat]
  cases b.bestInFlat isBuy admits <;> cases b.bestInOutliers isBuy admits <;>
    simp only [max_min_eq]

/-- The scan of the flat array finds the best price among its slots. -/
theorem LevelsOK.isBest_bestInFlat (hb : LevelsOK b) (isBuy : Bool) (admits : Price4 → Bool) :
    IsBest (fun p q => better isBuy p q = true)
      (fun p => (b.flatIndexFor p).isSome ∧ admits p ∧ (b.levelAt p).total isBuy ≠ 0)
      (b.bestInFlat isBuy admits) := by
  set hit : ℕ → Bool := fun i =>
    admits (b.flatLevels i).price && decide ((b.flatLevels i).total isBuy ≠ 0) with hhit
  have htotal : ∀ i, hit i = true → (b.flatLevels i).total isBuy ≠ 0 := by
    intro i hi
    simp only [hhit, Bool.and_eq_true, decide_eq_true_eq] at hi
    exact hi.2
  -- slots with shares are visited in an order in which the price gets worse
  have hord : ∀ i j, i < j → hit i = true → hit j = true →
      (b.flatLevels i).price < (b.flatLevels j).price := by
    intro i j hij hi hj
    exact lt_of_flatIndexFor (hb.flatIndexFor_of_total (htotal i hi))
      (hb.flatIndexFor_of_total (htotal j hj)) hij
  have hscan := isBest_find? (ranking_better isBuy) (fun i => (b.flatLevels i).price)
    (show (if isBuy then (List.range b.flatSize).reverse else List.range b.flatSize).Pairwise
      (fun i j => hit i = true → hit j = true →
        ¬ better isBuy (b.flatLevels j).price (b.flatLevels i).price = true) by
      cases isBuy with
      | true =>
        rw [if_pos rfl, List.pairwise_reverse]
        refine List.pairwise_lt_range.imp fun {i j} hij hj hi => ?_
        rw [better_true_iff, UInt32.not_lt]
        exact UInt32.le_of_lt (hord i j hij hi hj)
      | false =>
        rw [if_neg (by simp)]
        refine List.pairwise_lt_range.imp fun {i j} hij hi hj => ?_
        rw [better_false_iff, UInt32.not_lt]
        exact UInt32.le_of_lt (hord i j hij hi hj))
  refine hscan.congr fun p => ?_
  have hmem : ∀ i, i ∈ (if isBuy then (List.range b.flatSize).reverse else List.range b.flatSize) ↔
      i < b.flatSize := by
    intro i
    cases isBuy <;> simp
  constructor
  · rintro ⟨i, -, hi, rfl⟩
    have hidx := hb.flatIndexFor_of_total (htotal i hi)
    refine ⟨by rw [hidx]; rfl, ?_, ?_⟩
    · simp only [hhit, Bool.and_eq_true] at hi
      exact hi.1
    · rw [levelAt, ptrFor, hidx]
      exact htotal i hi
  · rintro ⟨hsome, hadm, htot⟩
    -- the slot of a price in the window carries that price
    obtain ⟨i, hidx⟩ := Option.isSome_iff_exists.mp hsome
    have hprice : (b.flatLevels i).price = p := by
      rw [hb.flat_price, slotPrice_of_flatIndexFor hidx]
    rw [levelAt, ptrFor, hidx] at htot
    refine ⟨i, (hmem i).mpr (flatIndexFor_eq_some_iff.mp hidx).2, ?_, hprice⟩
    simp only [hhit, Bool.and_eq_true, decide_eq_true_eq, hprice]
    exact ⟨hadm, htot⟩

/-- The scan of the map finds the best price among the outliers. -/
theorem LevelsOK.isBest_bestInOutliers (hb : LevelsOK b) (isBuy : Bool) (admits : Price4 → Bool) :
    IsBest (fun p q => better isBuy p q = true)
      (fun p => b.flatIndexFor p = none ∧ admits p ∧ (b.levelAt p).total isBuy ≠ 0)
      (b.bestInOutliers isBuy admits) := by
  have hfold := isBest_foldl_improve (ranking_better isBuy)
    ((b.outlierLevels.toList.filter fun e => admits e.1 && decide (e.2.total isBuy ≠ 0)).map
      Prod.fst) (fun _ => False) none (fun _ h => h)
  refine hfold.congr fun p => ?_
  simp only [false_or, List.mem_map, List.mem_filter, Prod.exists, exists_and_right,
    exists_eq_right, Std.TreeMap.mem_toList_iff_getElem?_eq_some, Bool.and_eq_true,
    decide_eq_true_eq]
  constructor
  · rintro ⟨l, hl, hadm, htot⟩
    -- the keys of the map are outside the window
    have hnone := (hb.outlier_key p l hl).1
    refine ⟨hnone, hadm, ?_⟩
    simpa [levelAt, ptrFor, hnone, level, Std.TreeMap.getD_eq_getD_getElem?, hl] using htot
  · rintro ⟨hnone, hadm, htot⟩
    cases hl : b.outlierLevels[p]? with
    | none =>
      refine absurd ?_ htot
      rw [levelAt, ptrFor, hnone]
      simp only [level, Std.TreeMap.getD_eq_getD_getElem?, hl, Option.getD_none]
      cases isBuy <;> rfl
    | some l =>
      refine ⟨l, rfl, hadm, ?_⟩
      simpa [levelAt, ptrFor, hnone, level, Std.TreeMap.getD_eq_getD_getElem?, hl] using htot

/-- **The scan finds the best price that is let through and still has shares.** -/
theorem LevelsOK.isBest_bestPriceWhere (hb : LevelsOK b) (isBuy : Bool) (admits : Price4 → Bool) :
    IsBest (fun p q => better isBuy p q = true)
      (fun p => admits p ∧ (b.levelAt p).total isBuy ≠ 0) (b.bestPriceWhere isBuy admits) := by
  have hf := hb.isBest_bestInFlat isBuy admits
  have ho := hb.isBest_bestInOutliers isBuy admits
  -- a price is served by the array or by the map, never by both
  have hunion : ∀ p, (((b.flatIndexFor p).isSome ∧ admits p ∧ (b.levelAt p).total isBuy ≠ 0) ∨
      (b.flatIndexFor p = none ∧ admits p ∧ (b.levelAt p).total isBuy ≠ 0)) ↔
      (admits p ∧ (b.levelAt p).total isBuy ≠ 0) := by
    intro p
    cases b.flatIndexFor p <;> simp
  rw [bestPriceWhere_eq]
  cases hfv : b.bestInFlat isBuy admits with
  | none =>
    rw [hfv] at hf
    exact (hf.none_or ho).congr hunion
  | some f =>
    rw [hfv] at hf
    cases hov : b.bestInOutliers isBuy admits with
    | none =>
      rw [hov] at ho
      exact (hf.or_none ho).congr hunion
    | some o =>
      rw [hov] at ho
      exact (hf.or (ranking_better isBuy) ho).congr hunion

end OrderBook
end Liquibook
