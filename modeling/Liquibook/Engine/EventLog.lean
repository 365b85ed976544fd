import Liquibook.Engine.Outcome
import Liquibook.Engine.Transcript

/-!
# The events are a complete log

Somebody who only hears what is reported, the calls of the book that succeed and the events
of the orders that are submitted, can keep a book of his own: a fill is an execution of the
resting order, a report of a resting order is an addition, and a kill is nothing.  His book
shows at any time what the book of the engine shows, but for the trader ids, which no event
carries.  This includes the reports of resting orders that the book has refused, since his
book refuses them as well.

## Main definitions

* `Call.heard` — the calls of the book that are read off a reply.
* `Ledger.anonymous`, `View.anonymous` — without the trader ids.

## Main results

* `step_anonymous` — a call of the book does not look at trader ids.
* `submit_anonymous` — **the events of a submitted order tell all it does.**
* `events_rebuild_book` — **a book kept from the events shows the same.**
-/

namespace Liquibook

open Lib OrderBook MatchingEngine

/-- What an event means to a book. -/
def Event.toOp : Event → Option Op
  | .fill e => some (.execute e.restingRef e.quantity)
  | .rest e => some (.add e.orderRef e.price e.quantity e.isBuy 0)
  | .kill _ => none

/-- A call of the book without the trader id. -/
def Op.anonymous : Op → Op
  | .add ref price shares isBuy _ => .add ref price shares isBuy 0
  | op => op

/-- The calls of the book that are read off a reply. -/
def Call.heard : Call → Reply → List Op
  | .book op, .result true => [op.anonymous]
  | .submit _ _, .events events => events.filterMap Event.toOp
  | _, _ => []

/-- Make the calls one by one, and take down the replies. -/
def OrderBook.serveAll : OrderBook → List Call → Option (List Reply × OrderBook)
  | b, [] => some ([], b)
  | b, c :: calls =>
      (b.serve c).bind fun (reply, b') =>
        (serveAll b' calls).map fun (replies, b'') => (reply :: replies, b'')

def Resting.anonymous (r : Resting) : Resting := { r with traderId := 0 }

/-- What the book shows, without the trader ids. -/
def View.anonymous (v : View) : View :=
  { v with queueAt := fun p side => (v.queueAt p side).map Resting.anonymous }

namespace Ledger

def anonymous (l : Ledger) : Ledger := { l with orders := l.orders.map Resting.anonymous }

variable {l : Ledger}

theorem find_anonymous (l : Ledger) (ref : OrderRef) :
    l.anonymous.find ref = (l.find ref).map Resting.anonymous :=
  List.find?_map ..

theorem queue_anonymous (l : Ledger) (p : Price4) (side : Bool) :
    l.anonymous.queue p side = (l.queue p side).map Resting.anonymous :=
  List.filter_map ..

theorem total_anonymous (l : Ledger) (p : Price4) (side : Bool) :
    l.anonymous.total p side = l.total p side := by
  rw [total, queue_anonymous, List.map_map]
  rfl

/-- The levels are the same, whoever the orders belong to. -/
theorem levels_anonymous (l : Ledger) (side : Bool) :
    (l.anonymous.depth side).levels = (l.depth side).levels := by
  refine eq_of_pairwise_better (ranking_better side) (pairwise_levels _ _) (pairwise_levels _ _)
    fun p => ?_
  rw [mem_levels, mem_levels, total_anonymous]

theorem append_anonymous (l : Ledger) (r : Resting) :
    l.anonymous.append r.anonymous = (l.append r).anonymous := by
  apply Ledger.ext
  · rfl
  · simp [append, anonymous]
  · rfl

theorem remove_anonymous (l : Ledger) (r : Resting) :
    l.anonymous.remove r.anonymous = (l.remove r).anonymous := by
  have horders : (l.anonymous.remove r.anonymous).orders = (l.remove r).anonymous.orders := by
    rw [remove_orders]
    refine Eq.trans ?_ (congrArg (List.map Resting.anonymous) (remove_orders l r).symm)
    exact List.filter_map ..
  apply Ledger.ext
  · rw [remove_capacity]
    exact (remove_capacity l r).symm
  · exact horders
  · funext side
    have hqueue : (l.anonymous.remove r.anonymous).queue r.price r.isBuy = [] ↔
        (l.remove r).queue r.price r.isBuy = [] := by
      rw [queue, horders, ← queue, queue_anonymous, List.map_eq_nil_iff]
    have hlevels : ((l.anonymous.remove r.anonymous).depth side).levels =
        ((l.remove r).depth side).levels := by
      rw [← levels_anonymous (l.remove r)]
      unfold depth Depth.of prices queue
      rw [horders]
    have hbest : (l.remove r).anonymous.best side = (l.remove r).best side := rfl
    rw [remove_best, hbest, remove_best, hlevels]
    exact if_congr (and_congr_right fun _ => and_congr_left fun _ => hqueue) rfl rfl

theorem setShares_anonymous (l : Ledger) (ref : OrderRef) (n : Shares) :
    l.anonymous.setShares ref n = (l.setShares ref n).anonymous := by
  unfold setShares anonymous
  congr 1
  rw [List.map_map, List.map_map]
  refine List.map_congr_left fun r _ => ?_
  rw [Function.comp_apply, Function.comp_apply]
  change (if r.orderRef = ref then _ else _) = Resting.anonymous (if r.orderRef = ref then _ else _)
  split <;> rfl

/-! ### Calls of the book -/

theorem add_anonymous (l : Ledger) (r : Resting) :
    l.anonymous.add r.anonymous = ((l.add r).1, (l.add r).2.anonymous) := by
  have hcond : (r.anonymous.shares = 0 ∨ (l.anonymous.find r.anonymous.orderRef).isSome = true ∨
      l.anonymous.orders.length = l.anonymous.capacity) ↔
      (r.shares = 0 ∨ (l.find r.orderRef).isSome = true ∨ l.orders.length = l.capacity) := by
    rw [find_anonymous]
    simp [anonymous, Resting.anonymous]
  unfold add
  by_cases h : r.shares = 0 ∨ (l.find r.orderRef).isSome = true ∨ l.orders.length = l.capacity
  · rw [if_pos (hcond.mpr h), if_pos h]
  · rw [if_neg fun e => h (hcond.mp e), if_neg h, append_anonymous]

theorem reduce_anonymous (l : Ledger) (ref : OrderRef) (delta : Shares) :
    l.anonymous.reduce ref delta = ((l.reduce ref delta).1, (l.reduce ref delta).2.anonymous) := by
  unfold reduce
  rw [find_anonymous]
  cases l.find ref with
  | none => rfl
  | some r =>
    have hshares : r.anonymous.shares = r.shares := rfl
    dsimp only [Option.map_some]
    rw [hshares]
    split
    · rfl
    · split
      · rw [remove_anonymous]
      · rw [setShares_anonymous]

/-- **A call of the book does not look at trader ids.** -/
theorem step_anonymous (l : Ledger) (op : Op) :
    l.anonymous.step op.anonymous = ((l.step op).1, (l.step op).2.anonymous) := by
  cases op with
  | add ref price shares isBuy traderId =>
    exact add_anonymous l ⟨ref, price, shares, isBuy, traderId⟩
  | execute ref shares => exact reduce_anonymous l ref shares
  | cancel ref shares => exact reduce_anonymous l ref shares
  | delete ref =>
    change l.anonymous.delete ref = ((l.delete ref).1, (l.delete ref).2.anonymous)
    unfold delete
    rw [find_anonymous]
    cases l.find ref with
    | none => rfl
    | some r =>
      dsimp only [Option.map_some]
      rw [remove_anonymous]
  | replace oldRef newRef newShares newPrice =>
    change l.anonymous.replace oldRef newRef newShares newPrice =
      ((l.replace oldRef newRef newShares newPrice).1,
        (l.replace oldRef newRef newShares newPrice).2.anonymous)
    unfold replace
    rw [find_anonymous, find_anonymous, Option.isSome_map]
    cases l.find oldRef with
    | none => rfl
    | some r =>
      dsimp only [Option.map_some]
      split
      · rfl
      · rw [remove_anonymous, ← append_anonymous]
        rfl

/-! ### Submitted orders -/

/-- The fills, heard one by one. -/
theorem consume_anonymous (order : IncomingOrder) (fs : List (Resting × ℕ)) (l : Ledger) :
    l.anonymous.run (((fs.map (fillEvent order)).map Event.fill).filterMap Event.toOp) =
      (l.consume fs).anonymous := by
  induction fs generalizing l with
  | nil => rfl
  | cons f fs ih =>
    have hfirst : (l.anonymous.step (.execute f.1.orderRef (UInt32.ofNat f.2))).2 =
        (l.reduce f.1.orderRef (UInt32.ofNat f.2)).2.anonymous :=
      congrArg Prod.snd (reduce_anonymous l _ _)
    have hnext := ih (l.reduce f.1.orderRef (UInt32.ofNat f.2)).2
    rw [← hfirst] at hnext
    exact hnext

/-- **The events of a submitted order tell all it does.** -/
theorem submit_anonymous (l : Ledger) (preventSelfTrade : Bool) (order : IncomingOrder) :
    l.anonymous.run ((l.submit preventSelfTrade order).1.filterMap Event.toOp) =
      (l.submit preventSelfTrade order).2.anonymous := by
  have happ : ∀ (ops ops' : List Op) (l : Ledger), l.run (ops ++ ops') = (l.run ops).run ops' :=
    fun ops ops' l => List.foldl_append ..
  rw [l.submit_events, List.filterMap_append, happ, consume_anonymous]
  unfold submit settleRemainder remainderEvents
  dsimp only
  set fs := l.taking preventSelfTrade order
  split
  · rfl
  · split
    · exact congrArg Prod.snd (add_anonymous (l.consume fs) (order.remainder _))
    · rfl

/-- A call that fails changes nothing. -/
theorem step_of_rejected (l : Ledger) (op : Op) (h : (l.step op).1 = false) :
    (l.step op).2 = l := by
  have hreduce : ∀ ref n, (l.reduce ref n).1 = false → (l.reduce ref n).2 = l := by
    intro ref n
    unfold reduce
    split
    · exact fun _ => rfl
    · split
      · exact fun _ => rfl
      · split <;> exact fun e => (by cases e)
  cases op with
  | add ref price shares isBuy traderId =>
    revert h
    unfold Ledger.step Ledger.add
    dsimp only
    split
    · exact fun _ => rfl
    · exact fun e => (by cases e)
  | execute ref shares => exact hreduce ref shares h
  | cancel ref shares => exact hreduce ref shares h
  | delete ref =>
    revert h
    unfold Ledger.step Ledger.delete
    dsimp only
    split
    · exact fun _ => rfl
    · exact fun e => (by cases e)
  | replace oldRef newRef newShares newPrice =>
    revert h
    unfold Ledger.step Ledger.replace
    dsimp only
    split
    · exact fun _ => rfl
    · split
      · exact fun _ => rfl
      · exact fun e => (by cases e)

/-- What a reply tells is what the call does. -/
theorem serve_anonymous (l : Ledger) (c : Call) :
    l.anonymous.run (c.heard (l.serve c).1) = (l.serve c).2.anonymous := by
  cases c with
  | book op =>
    rw [serve]
    cases hok : (l.step op).1 with
    | false => rw [step_of_rejected l op hok]; rfl
    | true => exact congrArg Prod.snd (step_anonymous l op)
  | submit preventSelfTrade order => exact submit_anonymous l preventSelfTrade order

end Ledger

/-! ### Along a run -/

namespace OrderBook.Refines

variable {b : OrderBook} {l : Ledger}

/-- Along a run a book that is kept from the replies follows. -/
theorem serveAll_anonymous : ∀ (calls : List Call) {b : OrderBook} {l : Ledger}, Refines b l →
    ∃ replies b' l', b.serveAll calls = some (replies, b') ∧ Refines b' l' ∧
      l.anonymous.run ((calls.zip replies).flatMap fun x => x.1.heard x.2) = l'.anonymous := by
  intro calls
  induction calls with
  | nil => exact fun {b l} h => ⟨[], b, l, rfl, h, rfl⟩
  | cons c calls ih =>
    intro b l h
    obtain ⟨b₁, hserve, h₁⟩ := h.serve c
    obtain ⟨replies, b', l', hall, h', hrun⟩ := ih h₁
    refine ⟨(l.serve c).1 :: replies, b', l', ?_, h', ?_⟩
    · rw [OrderBook.serveAll, hserve, Option.bind_some]
      dsimp only
      rw [hall]
      rfl
    · rw [List.zip_cons_cons, List.flatMap_cons, Ledger.run, List.foldl_append]
      have hfirst := l.serve_anonymous c
      rw [Ledger.run] at hfirst
      rw [hfirst]
      exact hrun

theorem view_anonymous (h : Refines b l.anonymous) {b' : OrderBook} (h' : Refines b' l) :
    b.view = b'.view.anonymous := by
  rw [h.view_eq, h'.view_eq]
  apply View.ext
  · rfl
  · rfl
  · exact List.length_map ..
  · funext p side
    exact l.total_anonymous p side
  · funext p side
    exact l.queue_anonymous p side
  · funext p side
    exact congrArg (fun ps => (ps.filter (better side p)).head?) (l.levels_anonymous side)

end OrderBook.Refines

/-- **A book kept from the events shows the same**, at any time, wherever its flat array lies
and however wide it is, but for the trader ids. -/
theorem events_rebuild_book (referencePrice referencePrice' : Price4)
    (halfWidth halfWidth' capacity : ℕ) (calls : List Call) :
    ∃ replies b, (new referencePrice halfWidth capacity).serveAll calls = some (replies, b) ∧
      ((new referencePrice' halfWidth' capacity).run
        ((calls.zip replies).flatMap fun x => x.1.heard x.2)).view = b.view.anonymous := by
  obtain ⟨replies, b, l, hall, h, hrun⟩ :=
    (refines_new referencePrice halfWidth capacity).serveAll_anonymous calls
  refine ⟨replies, b, hall, ?_⟩
  have hheard := refines_run referencePrice' halfWidth' capacity
    ((calls.zip replies).flatMap fun x => x.1.heard x.2)
  have hnew : (Ledger.new capacity).anonymous = Ledger.new capacity := rfl
  rw [hnew] at hrun
  rw [hrun] at hheard
  exact hheard.view_anonymous h

end Liquibook
