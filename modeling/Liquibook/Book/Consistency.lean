import Liquibook.Book.View
import Mathlib.Data.List.Find

/-!
# The representation invariant

What the pool, the index, the levels and the queues of a book have to do with each
other, written out in terms of the memory of the book, and that every run from a new
book keeps it.  There is no condition on the calls: they may fail, and the share
totals may wrap.

The queues are first in, first out.  The calls of a run are numbered, and the number
of an order is that of the last successful call that created an order with its
reference, so a reference that was freed and used again has the number of its second
order.  Read from the head, the numbers in a queue increase.

## Main definitions

* `levelPtrs` — the levels of a book, those of the array and those of the map.
* `lastCreation` — the number of the call that created an order.
* `Consistent b created` — the representation invariant.

## Main results

* `run_consistent` — **every run keeps the representation invariant.**
-/

namespace Liquibook

namespace OrderBook

/-- The levels there are: the slots of the flat array and the nodes of the map. -/
def levelPtrs (b : OrderBook) : List LevelPtr :=
  (List.range b.flatSize).map .flat ++ b.outlierLevels.keys.map .outlier

/-- The representation invariant; `created` numbers the references of the orders in
the order in which they were created. -/
structure Consistent (b : OrderBook) (created : OrderRef → Option ℕ) : Prop where
  /-- The index leads from the references of the live orders, and from no others, to
  their slots. -/
  index_iff : ∀ ref s, b.orderIndex.find ref = some s ↔
    s < b.orderPool.capacity ∧ ∃ o, b.orderIn s = some o ∧ o.orderRef = ref
  pool_size : b.orderPool.size = b.liveOrders.length
  index_size : b.orderIndex.size = b.liveOrders.length
  queues_size : (b.levelPtrs.map fun ptr =>
    (b.slotsAt ptr true).length + (b.slotsAt ptr false).length).sum = b.liveOrders.length
  /-- A queue is a finite list of live slots, as long as its size says. -/
  queue : ∀ ptr ∈ b.levelPtrs, ∀ side,
    ((b.level (some ptr)).queue side).nodes b.orderPool b.orderPool.capacity =
        some (b.slotsAt ptr side) ∧
      ((b.level (some ptr)).queue side).size = (b.slotsAt ptr side).length ∧
      ∀ s ∈ b.slotsAt ptr side, s < b.orderPool.capacity ∧ (b.orderIn s).isSome
  /-- A live order has shares and is queued once, at the level it points to. -/
  order : ∀ s o, s < b.orderPool.capacity → b.orderIn s = some o →
    0 < o.shares ∧ ∃ ptr ∈ b.levelPtrs, o.level = some ptr ∧
      (b.level (some ptr)).price = o.price ∧ b.levelForQuery o.price = some ptr ∧
      ∀ ptr' ∈ b.levelPtrs, ∀ side,
        (b.slotsAt ptr' side).count s = if ptr' = ptr ∧ side = o.isBuy then 1 else 0
  /-- The queues are in the order of creation. -/
  fifo : ∀ ptr ∈ b.levelPtrs, ∀ side,
    ∃ numbers : List ℕ, numbers.Pairwise (· < ·) ∧
      (b.slotsAt ptr side).map (fun s => created (b.orderPool.get s).orderRef) =
        numbers.map some
  /-- The totals are the sums of the queues, modulo `2 ^ 32`. -/
  total : ∀ ptr ∈ b.levelPtrs, ∀ side,
    ((b.level (some ptr)).total side).toNat =
      ((b.slotsAt ptr side).map fun s => (b.orderPool.get s).shares.toNat).sum % 2 ^ 32

/-- The number of the last successful call of a run that created an order with the
reference. -/
def lastCreation (b : OrderBook) (ops : List Op) (ref : OrderRef) : Option ℕ :=
  (List.range ops.length).reverse.find? fun k =>
    match ops[k]? with
    | some op => ((b.run (ops.take k)).step op).1 && op.creates == some ref
    | none => false

/-! ### The levels -/

variable {b : OrderBook} {live free : List ℕ}

theorem nodup_levelPtrs (b : OrderBook) : b.levelPtrs.Nodup := by
  unfold levelPtrs
  rw [List.nodup_append]
  refine ⟨?_, ?_, ?_⟩
  · exact List.nodup_range.map fun i j h => by simpa using h
  · exact Std.TreeMap.nodup_keys.map fun p q h => by simpa using h
  · intro x hx y hy
    obtain ⟨i, -, rfl⟩ := List.mem_map.mp hx
    obtain ⟨p, -, rfl⟩ := List.mem_map.mp hy
    simp

/-- A level is that of a price, or a slot no price is served by. -/
theorem LevelsOK.levelPtr_cases (hb : LevelsOK b) {ptr : LevelPtr} (h : ptr ∈ b.levelPtrs) :
    (∃ p, b.HasLevel p ∧ ptr = b.ptrFor p) ∨
      (∀ p, ptr ≠ b.ptrFor p) ∧ ∀ side, (b.level (some ptr)).queue side = {} ∧
        (b.level (some ptr)).total side = 0 := by
  rcases List.mem_append.mp h with h | h
  · obtain ⟨i, -, rfl⟩ := List.mem_map.mp h
    by_cases hi : ∃ p, b.flatIndexFor p = some i
    · obtain ⟨p, hp⟩ := hi
      refine Or.inl ⟨p, ?_, by rw [ptrFor, hp]⟩
      simp [HasLevel, levelForQuery, hp]
    · rw [not_exists] at hi
      refine Or.inr ⟨fun p e => ?_, fun side => ?_⟩
      · unfold ptrFor at e
        cases hf : b.flatIndexFor p with
        | none => simp [hf] at e
        | some j =>
          have hij : i = j := by simpa [hf] using e
          exact hi p (by rw [hf, hij])
      · rw [level, hb.flat_unused i hi]
        cases side <;> exact ⟨rfl, rfl⟩
  · obtain ⟨p, hp, rfl⟩ := List.mem_map.mp h
    rw [Std.TreeMap.mem_keys] at hp
    have hget := Std.TreeMap.getElem?_eq_some_getElem hp
    have hnone := (hb.outlier_key p _ hget).1
    refine Or.inl ⟨p, ?_, by rw [ptrFor, hnone]⟩
    simp [HasLevel, levelForQuery, hnone, hget]

theorem HasLevel.mem_levelPtrs {p : Price4} (h : b.HasLevel p) : b.ptrFor p ∈ b.levelPtrs := by
  unfold HasLevel OrderBook.levelForQuery at h
  unfold levelPtrs ptrFor
  cases hf : b.flatIndexFor p with
  | some i =>
    refine List.mem_append_left _ (List.mem_map_of_mem (List.mem_range.mpr ?_))
    exact (flatIndexFor_eq_some_iff.mp hf).2
  | none =>
    rw [hf] at h
    refine List.mem_append_right _ (List.mem_map_of_mem (Std.TreeMap.mem_keys.mpr ?_))
    cases ho : b.outlierLevels[p]? with
    | none => rw [ho] at h; cases h
    | some l => exact Std.TreeMap.mem_iff_isSome_getElem?.mpr (by rw [ho]; rfl)

theorem slotsAt_of_empty {ptr : LevelPtr} {side : Bool}
    (hempty : (b.level (some ptr)).queue side = {}) : b.slotsAt ptr side = [] := by
  rw [slotsAt, hempty]
  simp [IntrusiveList.nodes]

/-- The queue of a level holds the live orders that point to it. -/
theorem Shape.slotsAt_level (h : Shape b live free) {ptr : LevelPtr} (hptr : ptr ∈ b.levelPtrs)
    (side : Bool) :
    ((b.level (some ptr)).queue side).Represents b.orderPool (b.slotsAt ptr side) ∧
      b.slotsAt ptr side = live.filter fun s =>
        decide ((b.orderPool.get s).level = some ptr ∧ (b.orderPool.get s).isBuy = side) := by
  rcases h.queued.levels.levelPtr_cases hptr with ⟨p, -, rfl⟩ | ⟨hno, hempty⟩
  · rw [h.slotsAt_eq]
    refine ⟨h.queued.queue p side, List.filter_congr fun s hs => ?_⟩
    rw [RestsAt, decide_eq_decide, (h.queued.order_level s hs).1, Option.some.injEq]
    exact and_congr_left' ⟨fun e => by rw [e], ptrFor_injective⟩
  · rw [slotsAt_of_empty (hempty side).1, (hempty side).1]
    refine ⟨IntrusiveList.Represents.nil _, (List.filter_eq_nil_iff.mpr fun s hs => ?_).symm⟩
    rw [decide_eq_true_eq, (h.queued.order_level s hs).1, Option.some.injEq]
    exact fun e => hno _ e.1.symm

/-- The queues of all levels together are the live slots, once each. -/
theorem Shape.queues_size (h : Shape b live free) :
    (b.levelPtrs.map fun ptr =>
      (b.slotsAt ptr true).length + (b.slotsAt ptr false).length).sum = live.length := by
  have hmem : ∀ ptr ∈ b.levelPtrs, ∀ s,
      s ∈ b.slotsAt ptr true ++ b.slotsAt ptr false ↔
        s ∈ live ∧ (b.orderPool.get s).level = some ptr := by
    intro ptr hptr s
    rw [List.mem_append, (h.slotsAt_level hptr true).2, (h.slotsAt_level hptr false).2,
      List.mem_filter, List.mem_filter, decide_eq_true_eq, decide_eq_true_eq]
    cases (b.orderPool.get s).isBuy <;> simp
  have hnodup :
      (b.levelPtrs.flatMap fun ptr => b.slotsAt ptr true ++ b.slotsAt ptr false).Nodup := by
    rw [List.nodup_flatMap]
    refine ⟨?_, (nodup_levelPtrs b).pairwise_of_forall_ne ?_⟩
    · intro ptr hptr
      rw [(h.slotsAt_level hptr true).2, (h.slotsAt_level hptr false).2, List.nodup_append]
      refine ⟨h.pool.live_nodup.filter _, h.pool.live_nodup.filter _, ?_⟩
      rintro s hs t ht rfl
      rw [List.mem_filter, decide_eq_true_eq] at hs ht
      have := hs.2.2.symm.trans ht.2.2
      cases this
    · intro ptr hptr ptr' hptr' hne s hs hs'
      have h1 := ((hmem ptr hptr s).mp hs).2
      rw [((hmem ptr' hptr' s).mp hs').2] at h1
      exact hne (Option.some.inj h1).symm
  have hperm : (b.levelPtrs.flatMap fun ptr => b.slotsAt ptr true ++ b.slotsAt ptr false).Perm
      live := by
    refine (List.perm_ext_iff_of_nodup hnodup h.pool.live_nodup).mpr fun s => ?_
    rw [List.mem_flatMap]
    constructor
    · rintro ⟨ptr, hptr, hs⟩
      exact ((hmem ptr hptr s).mp hs).1
    · intro hs
      obtain ⟨hlevel, hhas⟩ := h.queued.order_level s hs
      exact ⟨_, hhas.mem_levelPtrs, (hmem _ hhas.mem_levelPtrs s).mpr ⟨hs, hlevel⟩⟩
  rw [← hperm.length_eq, List.length_flatMap]
  simp only [List.length_append]

/-! ### The order of creation -/

theorem lastCreation_append (b : OrderBook) (ops : List Op) (op : Op) (ref : OrderRef) :
    b.lastCreation (ops ++ [op]) ref =
      if ((b.run ops).step op).1 = true ∧ op.creates = some ref then some ops.length
      else b.lastCreation ops ref := by
  unfold lastCreation
  rw [List.length_append, List.length_singleton, List.range_succ, List.reverse_append,
    List.reverse_singleton, List.singleton_append, List.find?_cons]
  have hlast : (ops ++ [op])[ops.length]? = some op := List.getElem?_concat_length
  have htake : (ops ++ [op]).take ops.length = ops := by simp
  simp only [hlast, htake]
  by_cases hc : ((b.run ops).step op).1 = true ∧ op.creates = some ref
  · simp [hc]
  · have hfalse : (((b.run ops).step op).1 && op.creates == some ref) = false := by
      simpa using hc
    rw [if_neg hc, hfalse]
    dsimp only
    -- the earlier calls are the same in the longer run
    refine List.find?_congr fun k hk => ?_
    have hk : k < ops.length := by simpa using hk
    rw [List.getElem?_append_left hk, List.take_append_of_le_length hk.le]

/-- The references are numbered in increasing order. -/
def InOrder (created : OrderRef → Option ℕ) (refs : List OrderRef) : Prop :=
  ∃ numbers : List ℕ, numbers.Pairwise (· < ·) ∧ refs.map created = numbers.map some

theorem InOrder.sublist {created : OrderRef → Option ℕ} {refs refs' : List OrderRef}
    (h : InOrder created refs) (hs : refs'.Sublist refs) : InOrder created refs' := by
  obtain ⟨numbers, hpw, hmap⟩ := h
  have := hs.map created
  rw [hmap, List.sublist_map_iff] at this
  obtain ⟨numbers', hsub, hmap'⟩ := this
  exact ⟨numbers', hpw.sublist hsub, hmap'⟩

theorem InOrder.congr {created created' : OrderRef → Option ℕ} {refs : List OrderRef}
    (h : InOrder created refs) (heq : ∀ ref ∈ refs, created' ref = created ref) :
    InOrder created' refs := by
  obtain ⟨numbers, hpw, hmap⟩ := h
  exact ⟨numbers, hpw, by rw [List.map_congr_left heq, hmap]⟩

/-- A reference with a greater number goes to the end. -/
theorem InOrder.concat {created : OrderRef → Option ℕ} {refs : List OrderRef} {ref : OrderRef}
    {m : ℕ} (h : InOrder created refs) (hlt : ∀ ref ∈ refs, ∀ n, created ref = some n → n < m)
    (href : created ref = some m) : InOrder created (refs ++ [ref]) := by
  obtain ⟨numbers, hpw, hmap⟩ := h
  refine ⟨numbers ++ [m], ?_, ?_⟩
  · rw [List.pairwise_append]
    refine ⟨hpw, List.pairwise_singleton _ _, ?_⟩
    intro n hn k hk
    rw [List.mem_singleton.mp hk]
    have hmem : some n ∈ refs.map created := by
      rw [hmap]
      exact List.mem_map_of_mem hn
    obtain ⟨ref', hr', hn'⟩ := List.mem_map.mp hmem
    exact hlt ref' hr' n hn'
  · rw [List.map_append, hmap, List.map_append, List.map_singleton, href, List.map_singleton]

/-- **Arrival is creation**: along a run the ledger lists the references in the order
of the calls that created them. -/
theorem inOrder_run (referencePrice : Price4) (halfWidth capacity : ℕ) (ops : List Op) :
    InOrder ((new referencePrice halfWidth capacity).lastCreation ops)
        ((Ledger.new capacity).run ops).refs ∧
      ∀ ref ∈ ((Ledger.new capacity).run ops).refs, ∀ n,
        (new referencePrice halfWidth capacity).lastCreation ops ref = some n →
          n < ops.length := by
  set b₀ := new referencePrice halfWidth capacity with hb₀
  induction ops using List.reverseRecOn with
  | nil => exact ⟨⟨[], List.Pairwise.nil, rfl⟩, by intro ref href; cases href⟩
  | append_singleton ops op ih =>
    obtain ⟨hord, hlt⟩ := ih
    set l := (Ledger.new capacity).run ops with hl
    have href : Refines (b₀.run ops) l := refines_run _ _ _ _
    have hrun : (Ledger.new capacity).run (ops ++ [op]) = (l.step op).2 := by
      rw [Ledger.run, List.foldl_append]
      rfl
    have hres : ((b₀.run ops).step op).1 = (l.step op).1 := (href.step op).result
    rw [hrun]
    -- a reference that is not created by this call keeps its number
    have hkeep : ∀ ref, ¬ ((l.step op).1 = true ∧ op.creates = some ref) →
        b₀.lastCreation (ops ++ [op]) ref = b₀.lastCreation ops ref := by
      intro ref hc
      rw [lastCreation_append, hres, if_neg hc]
    have hold : ∀ old : List OrderRef, old.Sublist l.refs →
        (∀ ref ∈ old, ¬ ((l.step op).1 = true ∧ op.creates = some ref)) →
        InOrder (b₀.lastCreation (ops ++ [op])) old ∧
          ∀ ref ∈ old, ∀ n, b₀.lastCreation (ops ++ [op]) ref = some n → n < ops.length := by
      intro old hsub hne
      refine ⟨(hord.sublist hsub).congr fun ref hr => hkeep ref (hne ref hr), ?_⟩
      intro ref hr n hn
      rw [hkeep ref (hne ref hr)] at hn
      exact hlt ref (hsub.subset hr) n hn
    rw [List.length_append, List.length_singleton]
    rcases Ledger.refs_step href.wf op with ⟨hnone, hsub⟩ | ⟨ref, old, hok, hcre, hsub, hnot, heq⟩
    · obtain ⟨h1, h2⟩ := hold _ hsub fun ref _ hc => by
        rcases hnone with hn | hn
        · rw [hn] at hc; cases hc.1
        · rw [hn] at hc; cases hc.2
      exact ⟨h1, fun ref hr n hn => Nat.lt_succ_of_lt (h2 ref hr n hn)⟩
    · -- the call creates an order, and its number is the greatest
      obtain ⟨h1, h2⟩ := hold old hsub fun ref' hr hc => by
        rw [hcre] at hc
        exact hnot (Option.some.inj hc.2 ▸ hr)
      have hnew : b₀.lastCreation (ops ++ [op]) ref = some ops.length := by
        rw [lastCreation_append, hres, if_pos ⟨hok, hcre⟩]
      rw [heq]
      refine ⟨h1.concat h2 hnew, ?_⟩
      intro ref' hr' n hn
      rcases List.mem_append.mp hr' with hr' | hr'
      · exact Nat.lt_succ_of_lt (h2 ref' hr' n hn)
      · rw [List.mem_singleton.mp hr', hnew] at hn
        rw [← Option.some.inj hn]
        exact Nat.lt_succ_self _

/-! ### The invariant -/

/-- A live slot, found in the pool. -/
theorem Shape.mem_of_orderIn (h : Shape b live free) {s : ℕ} {o : Order}
    (hs : s < b.orderPool.capacity) (ho : b.orderIn s = some o) :
    s ∈ live ∧ b.orderPool.get s = o := by
  have hmem := h.orderIn_iff.mp ⟨hs, by rw [ho]; rfl⟩
  rw [h.orderIn_of_mem hmem] at ho
  exact ⟨hmem, Option.some.inj ho⟩

/-- A live order is queued once, at its level. -/
theorem Shape.count_slotsAt (h : Shape b live free) {s : ℕ} (hs : s ∈ live) {ptr : LevelPtr}
    (hlevel : (b.orderPool.get s).level = some ptr) :
    ∀ ptr' ∈ b.levelPtrs, ∀ side, (b.slotsAt ptr' side).count s =
      if ptr' = ptr ∧ side = (b.orderPool.get s).isBuy then 1 else 0 := by
  intro ptr' hptr' side
  rw [(h.slotsAt_level hptr' side).2, (h.pool.live_nodup.filter _).count]
  refine if_congr ?_ rfl rfl
  rw [List.mem_filter, decide_eq_true_eq, hlevel, Option.some.injEq]
  constructor
  · rintro ⟨-, h1, h2⟩
    exact ⟨h1.symm, h2.symm⟩
  · rintro ⟨h1, h2⟩
    exact ⟨hs, h1.symm, h2.symm⟩

/-- The total of a level is the sum of its queue, as the counter adds it up. -/
theorem Shape.total_slotsAt (h : Shape b live free) {ptr : LevelPtr} (hptr : ptr ∈ b.levelPtrs)
    (side : Bool) : ((b.level (some ptr)).total side).toNat =
      ((b.slotsAt ptr side).map fun s => (b.orderPool.get s).shares.toNat).sum % 2 ^ 32 := by
  rcases h.queued.levels.levelPtr_cases hptr with ⟨p, -, rfl⟩ | ⟨hno, hempty⟩
  · have htotal := h.total_ledgerOf p side
    rw [levelAt] at htotal
    rw [← htotal, Ledger.total, toNat_sum_shares, Shape.queue_ledgerOf, h.slotsAt_eq, sharesOf,
      List.map_map]
    rfl
  · rw [(hempty side).2, slotsAt_of_empty (hempty side).1]
    rfl

/-- **Every run keeps the representation invariant.** -/
theorem run_consistent (referencePrice : Price4) (halfWidth capacity : ℕ) (ops : List Op) :
    Consistent ((new referencePrice halfWidth capacity).run ops)
      ((new referencePrice halfWidth capacity).lastCreation ops) := by
  obtain ⟨live, free, hsh, hledger, hwf⟩ := refines_run referencePrice halfWidth capacity ops
  have hord := (inOrder_run referencePrice halfWidth capacity ops).1
  set b := (new referencePrice halfWidth capacity).run ops with hb
  set created := (new referencePrice halfWidth capacity).lastCreation ops with hcreated
  have hlen : b.liveOrders.length = live.length := by
    rw [hsh.liveOrders_perm.length_eq]
    exact List.length_map _
  refine ⟨?_, ?_, ?_, ?_, ?_, ?_, ?_, fun ptr hptr side => hsh.total_slotsAt hptr side⟩
  · intro ref s
    rw [hsh.find_iff]
    constructor
    · rintro ⟨hs, href⟩
      exact ⟨hsh.pool.lt_capacity hs, _, hsh.orderIn_of_mem hs, href⟩
    · rintro ⟨hs, o, ho, href⟩
      obtain ⟨hmem, rfl⟩ := hsh.mem_of_orderIn hs ho
      exact ⟨hmem, href⟩
  · rw [hsh.pool.size_eq, hlen]
  · rw [hsh.size_eq, hlen]
  · rw [hsh.queues_size, hlen]
  · intro ptr hptr side
    obtain ⟨hrep, hslots⟩ := hsh.slotsAt_level hptr side
    have hle : (b.slotsAt ptr side).length ≤ b.orderPool.capacity := by
      rw [hslots]
      exact (List.length_filter_le _ _).trans hsh.length_le
    refine ⟨hrep.nodes_eq hle, hrep.size_eq, fun s hs => ?_⟩
    rw [hslots] at hs
    exact hsh.orderIn_iff.mpr (List.mem_filter.mp hs).1
  · intro s o hs ho
    obtain ⟨hmem, rfl⟩ := hsh.mem_of_orderIn hs ho
    obtain ⟨hlevel, hhas⟩ := hsh.queued.order_level s hmem
    have hpos := hwf.positive (b.orderPool.get s).resting (by
      rw [← hledger]
      exact List.mem_map_of_mem hmem)
    refine ⟨?_, _, hhas.mem_levelPtrs, hlevel, hsh.queued.levels.levelAt_price hhas,
      hhas.levelForQuery, hsh.count_slotsAt hmem hlevel⟩
    rw [UInt32.lt_iff_toNat_lt]
    exact Nat.pos_of_ne_zero fun e => hpos (UInt32.toNat_inj.mp e)
  · -- a queue is a part of the ledger, which lists the references in order
    intro ptr hptr side
    rw [← hledger] at hord
    have hsub : ((b.slotsAt ptr side).map fun s => (b.orderPool.get s).orderRef).Sublist
        (b.ledgerOf live).refs := by
      rw [Ledger.refs, ledgerOf, List.map_map, (hsh.slotsAt_level hptr side).2]
      exact List.filter_sublist.map _
    obtain ⟨numbers, hpw, hmap⟩ := hord.sublist hsub
    exact ⟨numbers, hpw, by rw [← hmap, List.map_map]; rfl⟩

end OrderBook
end Liquibook
