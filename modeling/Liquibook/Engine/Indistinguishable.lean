import Liquibook.Engine.Transcript

/-!
# What a book remembers

A book carries traces of everything that has happened to it: which slots of the pool have
been used, where the index has tombstones, which outlier levels have been created, in
which order the orders of different queues have arrived.  None of this can be seen from
outside.  What a book does from now on depends on its queues and its best prices alone,
and on its capacity if it fills up.

So a book can be handed over by its queues: adding the orders of every queue in queue order
to a new book, in whatever way the queues are interleaved, gives a book that no sequence
of calls can tell from the first.

## Main definitions

* `Ledger.Alike` — two ledgers have the same queues and the same best prices; on one side,
  `Ledger.AlikeOn`.
* `OrderBook.Indistinguishable` — no sequence of calls tells two books apart.
* `Call.mayAdd`, `OrderBook.RoomDuring` — no order arrives while the book is full.

## Main results

* `Alike.serve` — **alike ledgers reply alike, and stay alike.**
* `history_unobservable` — **books with the same queues cannot be told apart.**
* `rebuilt_indistinguishable` — **a book can be rebuilt from its queues.**
* `capacity_unobservable` — **the capacity does not show until a book is full.**
-/

namespace Liquibook

open Lib OrderBook MatchingEngine

/-- Two lists with the same orders at every price and side have the same orders. -/
theorem perm_of_queues {rs rs' : List Resting}
    (h : ∀ p side, rs.filter (fun r => decide (r.price = p ∧ r.isBuy = side)) =
      rs'.filter fun r => decide (r.price = p ∧ r.isBuy = side)) : rs.Perm rs' := by
  have hcount : ∀ (rs : List Resting) (r : Resting),
      (rs.filter fun x => decide (x.price = r.price ∧ x.isBuy = r.isBuy)).count r = rs.count r :=
    fun rs r => List.count_filter (by simp)
  refine List.perm_iff_count.mpr fun r => ?_
  rw [← hcount rs, h, hcount]

namespace Ledger

/-- The same queues and the same best price on one side. -/
structure AlikeOn (side : Bool) (l l' : Ledger) : Prop where
  queue_eq : ∀ p, l.queue p side = l'.queue p side
  best_eq : l.best side = l'.best side

/-- The same queues and the same best prices. -/
def Alike (l l' : Ledger) : Prop := ∀ side, AlikeOn side l l'

/-- Either both are full or none. -/
def FullAlike (l l' : Ledger) : Prop :=
  l.orders.length = l.capacity ↔ l'.orders.length = l'.capacity

namespace AlikeOn

variable {side : Bool} {l l' : Ledger}

/-- **One side of alike ledgers**, as the matching engine meets it, is the same. -/
theorem depth_eq (h : AlikeOn side l l') : l.depth side = l'.depth side := by
  unfold Ledger.depth
  rw [h.best_eq, funext h.queue_eq]
  refine Depth.of_congr fun p => ?_
  rw [mem_prices, mem_prices, h.queue_eq]

theorem total_eq (h : AlikeOn side l l') (p : Price4) : l.total p side = l'.total p side := by
  rw [Ledger.total, h.queue_eq, Ledger.total]

theorem append (h : AlikeOn side l l') (r : Resting) : AlikeOn side (l.append r) (l'.append r) where
  queue_eq p := by rw [queue_append, queue_append, h.queue_eq]
  best_eq := by
    rw [append_best, append_best]
    split
    · next e =>
      subst e
      rw [h.best_eq]
    · exact h.best_eq

theorem setShares (h : AlikeOn side l l') (ref : OrderRef) (n : Shares) :
    AlikeOn side (l.setShares ref n) (l'.setShares ref n) where
  queue_eq p := by rw [queue_setShares, queue_setShares, h.queue_eq]
  best_eq := h.best_eq

theorem remove (h : AlikeOn side l l') (r : Resting) : AlikeOn side (l.remove r) (l'.remove r) := by
  have hqueue : ∀ p, (l.remove r).queue p side = (l'.remove r).queue p side := by
    intro p
    rw [queue_remove, queue_remove, h.queue_eq]
  refine ⟨hqueue, ?_⟩
  rw [remove_best, remove_best]
  by_cases hs : side = r.isBuy
  · subst hs
    -- the best price is looked for among the same totals
    have hlevels : ((l.remove r).depth r.isBuy).levels = ((l'.remove r).depth r.isBuy).levels := by
      unfold Ledger.depth Depth.of
      dsimp only
      simp only [hqueue]
      refine rank_congr (ranking_better r.isBuy) fun p => ?_
      rw [List.mem_filter, List.mem_filter, mem_prices, mem_prices, hqueue]
    rw [hqueue, h.best_eq, hlevels]
  · rw [if_neg fun e => hs e.1, if_neg fun e => hs e.1]
    exact h.best_eq

/-- An incoming order takes the same from ledgers that are alike on the other side. -/
theorem taking_eq {order : IncomingOrder} (h : AlikeOn (!order.isBuy) l l')
    (preventSelfTrade : Bool) :
    l.taking preventSelfTrade order = l'.taking preventSelfTrade order := by
  unfold Ledger.taking Ledger.available Ledger.fills Ledger.reach
  rw [h.depth_eq]

end AlikeOn

namespace Alike

variable {l l' : Ledger} {r : Resting} {ref : OrderRef} {n : Shares}

theorem perm (h : Alike l l') : l.orders.Perm l'.orders :=
  perm_of_queues fun p side => (h side).queue_eq p

theorem mem_iff (h : Alike l l') : r ∈ l.orders ↔ r ∈ l'.orders := h.perm.mem_iff

theorem length_eq (h : Alike l l') : l.orders.length = l'.orders.length := h.perm.length_eq

theorem find_eq (h : Alike l l') (hw : WF l) (hw' : WF l') (ref : OrderRef) :
    l.find ref = l'.find ref := by
  refine Option.ext fun r => ?_
  rw [hw.find_iff, hw'.find_iff, h.mem_iff]

/-- **Alike ledgers show the same.** -/
theorem view_eq (h : Alike l l') : l.view = l'.view := by
  apply View.ext
  · exact (h true).best_eq
  · exact (h false).best_eq
  · exact h.length_eq
  · funext p side
    exact (h side).total_eq p
  · funext p side
    exact (h side).queue_eq p
  · funext p side
    change l.nextPriceAfter p side = l'.nextPriceAfter p side
    rw [Ledger.nextPriceAfter, (h side).depth_eq, Ledger.nextPriceAfter]

/-! ### What the calls do to alike ledgers -/

theorem append (h : Alike l l') (r : Resting) : Alike (l.append r) (l'.append r) :=
  fun side => (h side).append r

theorem setShares (h : Alike l l') (ref : OrderRef) (n : Shares) :
    Alike (l.setShares ref n) (l'.setShares ref n) := fun side => (h side).setShares ref n

theorem remove (h : Alike l l') (r : Resting) : Alike (l.remove r) (l'.remove r) :=
  fun side => (h side).remove r

theorem reduce (h : Alike l l') (hw : WF l) (hw' : WF l') (ref : OrderRef) (n : Shares) :
    (l.reduce ref n).1 = (l'.reduce ref n).1 ∧ Alike (l.reduce ref n).2 (l'.reduce ref n).2 := by
  unfold Ledger.reduce
  rw [h.find_eq hw hw']
  cases l'.find ref with
  | none => exact ⟨rfl, h⟩
  | some r =>
    dsimp only
    split
    · exact ⟨rfl, h⟩
    · split
      · exact ⟨rfl, h.remove r⟩
      · exact ⟨rfl, h.setShares ref _⟩

theorem delete (h : Alike l l') (hw : WF l) (hw' : WF l') (ref : OrderRef) :
    (l.delete ref).1 = (l'.delete ref).1 ∧ Alike (l.delete ref).2 (l'.delete ref).2 := by
  unfold Ledger.delete
  rw [h.find_eq hw hw']
  cases l'.find ref with
  | none => exact ⟨rfl, h⟩
  | some r => exact ⟨rfl, h.remove r⟩

theorem add (h : Alike l l') (hw : WF l) (hw' : WF l') (hfull : FullAlike l l') (r : Resting) :
    (l.add r).1 = (l'.add r).1 ∧ Alike (l.add r).2 (l'.add r).2 := by
  unfold Ledger.FullAlike at hfull
  unfold Ledger.add
  simp only [h.find_eq hw hw', hfull]
  split
  · exact ⟨rfl, h⟩
  · exact ⟨rfl, h.append r⟩

theorem replace (h : Alike l l') (hw : WF l) (hw' : WF l') (oldRef newRef : OrderRef)
    (newShares : Shares) (newPrice : Price4) :
    (l.replace oldRef newRef newShares newPrice).1 =
        (l'.replace oldRef newRef newShares newPrice).1 ∧
      Alike (l.replace oldRef newRef newShares newPrice).2
        (l'.replace oldRef newRef newShares newPrice).2 := by
  unfold Ledger.replace
  rw [h.find_eq hw hw', h.find_eq hw hw' newRef]
  cases l'.find oldRef with
  | none => exact ⟨rfl, h⟩
  | some r =>
    dsimp only
    split
    · exact ⟨rfl, h⟩
    · exact ⟨rfl, (h.remove r).append _⟩

/-- **A call on alike ledgers** has the same result, and leaves them alike.  Only an order
that is added must find both full or none. -/
theorem step (h : Alike l l') (hw : WF l) (hw' : WF l') (op : Op)
    (hfull : ∀ ref price shares isBuy traderId, op = .add ref price shares isBuy traderId →
      FullAlike l l') : (l.step op).1 = (l'.step op).1 ∧ Alike (l.step op).2 (l'.step op).2 := by
  cases op with
  | add ref price shares isBuy traderId =>
    exact h.add hw hw' (hfull ref price shares isBuy traderId rfl) _
  | execute ref shares => exact h.reduce hw hw' ref shares
  | cancel ref shares => exact h.reduce hw hw' ref shares
  | delete ref => exact h.delete hw hw' ref
  | replace oldRef newRef newShares newPrice => exact h.replace hw hw' _ _ _ _

theorem consume (h : Alike l l') (hw : WF l) (hw' : WF l') (fs : List (Resting × ℕ)) :
    Alike (l.consume fs) (l'.consume fs) ∧ WF (l.consume fs) ∧ WF (l'.consume fs) := by
  induction fs generalizing l l' with
  | nil => exact ⟨h, hw, hw'⟩
  | cons f fs ih =>
    exact ih (h.reduce hw hw' _ _).2 (hw.change (change_reduce l _ _))
      (hw'.change (change_reduce l' _ _))

/-- The remainder of an order rests on both, or on none. -/
theorem settleRemainder (h : Alike l l') (hw : WF l) (hw' : WF l') (order : IncomingOrder) (n : ℕ)
    (hfull : order.type = .limit → FullAlike l l') :
    (l.settleRemainder order n).1 = (l'.settleRemainder order n).1 ∧
      Alike (l.settleRemainder order n).2 (l'.settleRemainder order n).2 := by
  unfold Ledger.settleRemainder
  split
  · exact ⟨rfl, h⟩
  · split
    · next htype => exact ⟨rfl, (h.add hw hw' (hfull htype) _).2⟩
    · exact ⟨rfl, h⟩

end Alike

/-! ### Room -/

/-- Both have the same capacity, or room for an order. -/
def RoomAlike (l l' : Ledger) : Prop :=
  l.capacity = l'.capacity ∨
    l.orders.length < l.capacity ∧ l'.orders.length < l'.capacity

variable {l l' : Ledger}

theorem RoomAlike.fullAlike (hroom : RoomAlike l l') (h : Alike l l') : FullAlike l l' := by
  have hlen := h.length_eq
  unfold FullAlike
  rcases hroom with e | ⟨hlt, hlt'⟩
  · rw [hlen, e]
  · constructor <;> intro e <;> omega

/-- Executing fills makes room. -/
theorem WF.length_consume_le (hw : WF l) (preventSelfTrade : Bool) (order : IncomingOrder) :
    (l.consume (l.taking preventSelfTrade order)).orders.length ≤ l.orders.length ∧
      (l.consume (l.taking preventSelfTrade order)).capacity = l.capacity := by
  obtain ⟨-, hcapacity, horders⟩ := hw.consume_orders (hw.takes_taking preventSelfTrade order)
  rw [horders]
  exact ⟨List.length_filterMap_le _ _, hcapacity⟩

theorem RoomAlike.consume (hroom : RoomAlike l l') (hw : WF l) (hw' : WF l')
    (preventSelfTrade : Bool) (order : IncomingOrder) :
    RoomAlike (l.consume (l.taking preventSelfTrade order))
      (l'.consume (l'.taking preventSelfTrade order)) := by
  obtain ⟨hle, hcapacity⟩ := hw.length_consume_le preventSelfTrade order
  obtain ⟨hle', hcapacity'⟩ := hw'.length_consume_le preventSelfTrade order
  unfold RoomAlike
  rw [hcapacity, hcapacity']
  exact hroom.imp_right fun hlt => ⟨hle.trans_lt hlt.1, hle'.trans_lt hlt.2⟩

end Ledger

/-- The call may leave an order more in the book than there was. -/
def Call.mayAdd : Call → Bool
  | .book (.add ..) => true
  | .submit _ order => decide (order.type = .limit)
  | _ => false

namespace Ledger

variable {l l' : Ledger}

/-- A call keeps the capacity and the form of a ledger. -/
theorem WF.serve (hw : WF l) (c : Call) :
    WF (l.serve c).2 ∧ (l.serve c).2.capacity = l.capacity := by
  cases c with
  | book op => exact ⟨hw.step op, (change_step hw op).capacity⟩
  | submit preventSelfTrade order =>
    obtain ⟨hwf, hcapacity, -⟩ := hw.consume_orders (hw.takes_taking preventSelfTrade order)
    change WF (settleRemainder _ _ _).2 ∧ (settleRemainder _ _ _).2.capacity = _
    unfold settleRemainder
    split
    · exact ⟨hwf, hcapacity⟩
    · split
      · have hchange := change_add hwf
          (order.remainder (order.quantity.toNat - amount (l.taking preventSelfTrade order)))
        exact ⟨hwf.change hchange, hchange.capacity.trans hcapacity⟩
      · exact ⟨hwf, hcapacity⟩

/-- **Alike ledgers reply alike, and stay alike.** -/
theorem Alike.serve (h : Alike l l') (hw : WF l) (hw' : WF l') (c : Call)
    (hroom : c.mayAdd = true → RoomAlike l l') :
    (l.serve c).1 = (l'.serve c).1 ∧ Alike (l.serve c).2 (l'.serve c).2 := by
  cases c with
  | book op =>
    obtain ⟨hresult, halike⟩ := h.step hw hw' op fun ref price shares isBuy traderId e =>
      (hroom (by rw [e]; rfl)).fullAlike h
    exact ⟨congrArg Reply.result hresult, halike⟩
  | submit preventSelfTrade order =>
    have htaking := (h !order.isBuy).taking_eq preventSelfTrade
    obtain ⟨halike, hwf, hwf'⟩ := h.consume hw hw' (l'.taking preventSelfTrade order)
    obtain ⟨hevents, halike'⟩ := halike.settleRemainder hwf hwf' order
      (order.quantity.toNat - amount (l'.taking preventSelfTrade order)) fun htype => by
        have hmay : (Call.submit preventSelfTrade order).mayAdd = true := by
          simp [Call.mayAdd, htype]
        have hconsumed := (hroom hmay).consume hw hw' preventSelfTrade order
        rw [htaking] at hconsumed
        exact hconsumed.fullAlike halike
    unfold Ledger.serve Ledger.submit
    dsimp only
    rw [htaking, hevents]
    exact ⟨rfl, halike'⟩

/-- Alike ledgers of one capacity have the same transcripts. -/
theorem Alike.transcript_eq (h : Alike l l') (hw : WF l) (hw' : WF l')
    (hcapacity : l.capacity = l'.capacity) (calls : List Call) :
    l.transcript calls = l'.transcript calls := by
  induction calls generalizing l l' with
  | nil => rfl
  | cons c calls ih =>
    obtain ⟨hreply, halike⟩ := h.serve hw hw' c fun _ => Or.inl hcapacity
    obtain ⟨hwf, hcap⟩ := hw.serve c
    obtain ⟨hwf', hcap'⟩ := hw'.serve c
    rw [Ledger.transcript, Ledger.transcript, hreply, halike.view_eq,
      ih halike hwf hwf' (by rw [hcap, hcap', hcapacity])]

/-- Exact ledgers with the same queues have the same best prices. -/
theorem Exact.alike (he : Exact l) (he' : Exact l')
    (h : ∀ p side, l.queue p side = l'.queue p side) : Alike l l' := by
  refine fun side => ⟨fun p => h p side, ?_⟩
  refine (he side).unique (ranking_better side) ((he' side).congr fun p => ?_)
  rw [h]

/-! ### Rebuilding -/

end Ledger

/-- The call that adds an order. -/
def Resting.toAdd (r : Resting) : Op := .add r.orderRef r.price r.shares r.isBuy r.traderId

namespace Ledger

/-- Orders that a ledger has room for, with different references, are all added. -/
theorem run_toAdd {rs : List Resting} {capacity : ℕ} (hnd : (rs.map Resting.orderRef).Nodup)
    (hpos : ∀ r ∈ rs, r.shares ≠ 0) (hlen : rs.length ≤ capacity) :
    ((new capacity).run (rs.map Resting.toAdd)).orders = rs ∧
      WF ((new capacity).run (rs.map Resting.toAdd)) ∧
      Exact ((new capacity).run (rs.map Resting.toAdd)) ∧
      ∀ done r rest, rs = done ++ r :: rest →
        (((new capacity).run (done.map Resting.toAdd)).step r.toAdd).1 = true := by
  induction rs using List.reverseRecOn with
  | nil =>
    refine ⟨rfl, wf_new capacity, exact_new capacity, fun done r rest e => ?_⟩
    exact absurd e (by simp)
  | append_singleton rs x ih =>
    rw [List.map_append, List.map_singleton, List.nodup_append] at hnd
    rw [List.length_append, List.length_singleton] at hlen
    obtain ⟨horders, hwf, hexact, hall⟩ :=
      ih hnd.1 (fun r hr => hpos r (List.mem_append_left _ hr)) (by omega)
    set l := (new capacity).run (rs.map Resting.toAdd) with hl
    have hfree : l.find x.orderRef = none := by
      rw [find_eq_none_iff, horders]
      intro r hr e
      exact hnd.2.2 _ (List.mem_map_of_mem hr) _ (List.mem_singleton_self _) e
    have hcapacity : l.capacity = capacity := capacity_run capacity _
    have hlast : l.step x.toAdd = (true, l.append x) := by
      refine if_neg ?_
      rw [not_or, not_or, hfree, horders, hcapacity]
      exact ⟨hpos x (by simp), by simp, by omega⟩
    have hrun : (new capacity).run ((rs ++ [x]).map Resting.toAdd) = l.append x := by
      rw [List.map_append, run, List.foldl_append]
      exact congrArg Prod.snd hlast
    rw [hrun]
    refine ⟨congrArg (· ++ [x]) horders, ?_, hexact.append x, fun done r rest e => ?_⟩
    · exact hwf.append (hpos x (by simp)) hfree (by rw [horders, hcapacity]; omega)
    · rcases List.eq_nil_or_concat' rest with rfl | ⟨rest, y, rfl⟩
      · obtain ⟨rfl, hx⟩ := List.append_inj' e rfl
        obtain rfl : x = r := List.singleton_inj.mp hx
        exact congrArg Prod.fst hlast
      · rw [← List.cons_append, ← List.append_assoc] at e
        exact hall done r rest (List.append_inj' e rfl).1

end Ledger

namespace OrderBook

/-- No sequence of calls tells the books apart: they show the same, and whatever calls are
made, they reply the same and show the same after every one. -/
def Indistinguishable (b b' : OrderBook) : Prop :=
  b.view = b'.view ∧ ∀ calls, ∃ replies,
    b.transcript calls = some replies ∧ b'.transcript calls = some replies

/-- No call that may add an order is made while the book is full. -/
def RoomDuring : OrderBook → List Call → Prop
  | _, [] => True
  | b, c :: calls =>
      (c.mayAdd = true → b.orderCount < b.orderPool.capacity) ∧
        ∀ reply b', b.serve c = some (reply, b') → RoomDuring b' calls

variable {b b' : OrderBook} {l l' : Ledger}

/-- **Books of alike ledgers cannot be told apart**, if they have the same capacity. -/
theorem Refines.indistinguishable (h : Refines b l) (h' : Refines b' l') (halike : l.Alike l')
    (hcapacity : l.capacity = l'.capacity) : b.Indistinguishable b' := by
  refine ⟨h.view_eq.trans (halike.view_eq.trans h'.view_eq.symm), fun calls => ?_⟩
  refine ⟨l.transcript calls, h.transcript calls, ?_⟩
  rw [halike.transcript_eq h.wf h'.wf hcapacity]
  exact h'.transcript calls

/-- As long as the smaller of two books has room, the other has room too. -/
theorem Refines.transcript_of_room (h : Refines b l) (hw' : l'.WF) (halike : l.Alike l')
    (hcapacity : l.capacity ≤ l'.capacity) {calls : List Call} (hroom : b.RoomDuring calls) :
    l.transcript calls = l'.transcript calls := by
  induction calls generalizing b l l' with
  | nil => rfl
  | cons c calls ih =>
    obtain ⟨hhere, hnext⟩ := hroom
    obtain ⟨b₁, hserve, href⟩ := h.serve c
    have hlen := halike.length_eq
    obtain ⟨hreply, halike₁⟩ := halike.serve h.wf hw' c fun hadd => by
      have hlt := hhere hadd
      rw [h.orderCount_eq, h.capacity_eq] at hlt
      exact Or.inr ⟨hlt, by omega⟩
    obtain ⟨-, hcap⟩ := h.wf.serve c
    obtain ⟨hwf', hcap'⟩ := hw'.serve c
    rw [Ledger.transcript, Ledger.transcript, hreply, halike₁.view_eq,
      ih href hwf' halike₁ (by omega) (hnext _ _ hserve)]

end OrderBook

variable {allowed allowed' : Call → Prop} {b b' : OrderBook}

/-- **Books with the same queues cannot be told apart**, if no total has wrapped on the ways
they were reached, and they have the same capacity. -/
theorem history_unobservable (hb : Reached allowed LevelSumsBounded b)
    (hb' : Reached allowed' LevelSumsBounded b')
    (hcapacity : b.orderPool.capacity = b'.orderPool.capacity)
    (hqueue : ∀ p side, b.queueAt p side = b'.queueAt p side) : b.Indistinguishable b' := by
  obtain ⟨l, h, -, hexact⟩ := hb.exact fun _ hP => hP
  obtain ⟨l', h', -, hexact'⟩ := hb'.exact fun _ hP => hP
  rw [h.capacity_eq, h'.capacity_eq] at hcapacity
  refine h.indistinguishable h' (hexact.alike hexact' fun p side => ?_) hcapacity
  rw [← h.queueAt_eq, hqueue, h'.queueAt_eq]

/-- A book that has been emptied, and one that is new. -/
theorem history_unobservable_emptied :
    ((OrderBook.new 1000 2 4).run [.add 7 5000 10 true 0, .delete 7]).Indistinguishable
      (OrderBook.new 0 1 4) := by
  have hb : Reached (fun _ => True) LevelSumsBounded
      ((OrderBook.new 1000 2 4).run [.add 7 5000 10 true 0, .delete 7]) :=
    reached_run_bounded (by decide +kernel)
  have hb' : Reached (fun _ => True) LevelSumsBounded (OrderBook.new 0 1 4) :=
    .new 0 1 4 (levelSumsBounded_of_sharesOf (by decide))
  refine history_unobservable hb hb' rfl fun p side => ?_
  rw [(refines_run 1000 2 4 _).queueAt_eq, (refines_new 0 1 4).queueAt_eq]
  rfl

/-- **A book can be rebuilt from its queues**: take any list that has the orders of every
queue in queue order, and add them to a new book of the same capacity.  Every one of them
is accepted, and then the two books cannot be told apart. -/
theorem rebuilt_indistinguishable (hb : Reached allowed LevelSumsBounded b) {rs : List Resting}
    (hrs : ∀ p side, rs.filter (fun r => decide (r.price = p ∧ r.isBuy = side)) =
      b.queueAt p side) (referencePrice : Price4) (halfWidth : ℕ) :
    let rebuilt := fun rs : List Resting =>
      (OrderBook.new referencePrice halfWidth b.orderPool.capacity).run (rs.map Resting.toAdd)
    (∀ done r rest, rs = done ++ r :: rest → ((rebuilt done).step r.toAdd).1 = true) ∧
      b.Indistinguishable (rebuilt rs) := by
  intro rebuilt
  obtain ⟨l, h, -, hexact⟩ := hb.exact fun _ hP => hP
  have hqueue : ∀ p side, rs.filter (fun r => decide (r.price = p ∧ r.isBuy = side)) =
      l.queue p side := fun p side => (hrs p side).trans (h.queueAt_eq p side)
  have hperm : rs.Perm l.orders := perm_of_queues hqueue
  obtain ⟨horders, hwf, hexact', hall⟩ := @Ledger.run_toAdd rs l.capacity
    ((hperm.map _).nodup_iff.mpr h.wf.nodup) (fun r hr => h.wf.positive r (hperm.mem_iff.mp hr))
    (by rw [hperm.length_eq]; exact h.wf.length_le)
  have href : ∀ rs : List Resting, Refines (rebuilt rs)
      ((Ledger.new l.capacity).run (rs.map Resting.toAdd)) := by
    intro rs
    rw [← h.capacity_eq]
    exact refines_run _ _ _ _
  refine ⟨fun done r rest e => ?_, ?_⟩
  · rw [((href done).step r.toAdd).result]
    exact hall done r rest e
  · refine h.indistinguishable (href rs) (hexact.alike hexact' fun p side => ?_)
      (Ledger.capacity_run _ _).symm
    rw [← hqueue p side, Ledger.queue, horders]

/-- The orders of two queues, the later arrival first. -/
theorem rebuilt_indistinguishable_two :
    ((OrderBook.new 1000 2 4).run
        [.add 1 5000 10 false 5, .add 2 999 20 true 6]).Indistinguishable
      ((OrderBook.new 7 0 4).run [.add 2 999 20 true 6, .add 1 5000 10 false 5]) := by
  have hb : Reached (fun _ => True) LevelSumsBounded
      ((OrderBook.new 1000 2 4).run [.add 1 5000 10 false 5, .add 2 999 20 true 6]) :=
    reached_run_bounded (by decide +kernel)
  refine (@rebuilt_indistinguishable _ _ hb [⟨2, 999, 20, true, 6⟩, ⟨1, 5000, 10, false, 5⟩]
    (fun p side => ?_) 7 0).2
  have horders : ((Ledger.new 4).run [.add 1 5000 10 false 5, .add 2 999 20 true 6]).orders =
      [⟨1, 5000, 10, false, 5⟩, ⟨2, 999, 20, true, 6⟩] := rfl
  rw [(refines_run 1000 2 4 _).queueAt_eq, Ledger.queue, horders]
  cases side <;> simp [List.filter_cons]

/-- **The capacity does not show until a book is full**: a new book and a larger one, each with
any flat array, have the same transcript of any calls, as long as no order arrives at the
smaller one while it is full. -/
theorem capacity_unobservable (referencePrice referencePrice' : Price4)
    (halfWidth halfWidth' : ℕ) {capacity capacity' : ℕ} (hle : capacity ≤ capacity')
    {calls : List Call}
    (hroom : (OrderBook.new referencePrice halfWidth capacity).RoomDuring calls) :
    ∃ replies,
      (OrderBook.new referencePrice halfWidth capacity).transcript calls = some replies ∧
      (OrderBook.new referencePrice' halfWidth' capacity').transcript calls = some replies := by
  have h := refines_new referencePrice halfWidth capacity
  have h' := refines_new referencePrice' halfWidth' capacity'
  refine ⟨(Ledger.new capacity).transcript calls, h.transcript calls, ?_⟩
  rw [h.transcript_of_room h'.wf (fun _ => ⟨fun _ => rfl, rfl⟩) hle hroom]
  exact h'.transcript calls

/-- Two orders, in a book that has room for two and in one that has room for ten. -/
theorem capacity_unobservable_two :
    ∃ replies,
      (OrderBook.new 1000 2 2).transcript
        [.book (.add 1 1000 5 true 0), .book (.add 2 1000 5 true 0)] = some replies ∧
      (OrderBook.new 0 0 10).transcript
        [.book (.add 1 1000 5 true 0), .book (.add 2 1000 5 true 0)] = some replies := by
  refine capacity_unobservable 1000 0 2 0 (by decide) ⟨fun _ => by decide, fun reply b' h => ?_⟩
  cases h
  exact ⟨fun _ => by decide, fun _ _ _ => trivial⟩

end Liquibook
