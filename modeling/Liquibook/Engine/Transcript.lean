import Liquibook.Engine.Reached

/-!
# What a caller sees of a book

A caller makes calls of the book and submits orders.  It gets the value a call
returns and the events of a submitted order, and between two calls it can ask for
everything the book shows of itself.  The transcript is all of this, from the first
call to the last.

The ledger has a transcript too, and a book that refines it has the same.  A ledger
knows nothing of the flat array, so the transcript does not depend on where the flat
array lies and how wide it is.

## Main definitions

* `Reply`, `OrderBook.serve` — a call, and what it returns.
* `View`, `OrderBook.view` — what the book shows between two calls.
* `OrderBook.transcript` — the replies, each with what the book shows after it.

## Main results

* `Refines.transcript` — **the transcript of a book is that of its ledger.**
* `flatArray_unobservable` — **the flat array is only an optimisation.**
-/

namespace Liquibook

open Lib OrderBook MatchingEngine

/-- What a call returns: the result of a call of the book, or the events of a
submitted order. -/
inductive Reply where
  | result (accepted : Bool)
  | events (events : List Event)
  deriving DecidableEq, Repr

/-- What a book shows of itself. -/
@[ext]
structure View where
  bestBid : Option Price4
  bestAsk : Option Price4
  orderCount : ℕ
  sharesAt : Price4 → Bool → Shares
  queueAt : Price4 → Bool → List Resting
  /-- The price of the level that `next_level_after` leads to. -/
  nextPriceAfter : Price4 → Bool → Option Price4

namespace OrderBook

/-- Make a call, and report what it returns. -/
def serve (b : OrderBook) : Call → Option (Reply × OrderBook)
  | .book op => some (.result (b.step op).1, (b.step op).2)
  | .submit preventSelfTrade order =>
      (MatchingEngine.submit preventSelfTrade b order).map fun (events, b') => (.events events, b')

/-- The price of the level that `next_level_after` leads to. -/
def nextPriceAfter (b : OrderBook) (price : Price4) (isBuy : Bool) : Option Price4 :=
  (b.nextLevelAfter price isBuy).map fun ptr => (b.level (some ptr)).price

def view (b : OrderBook) : View where
  bestBid := b.bestBid
  bestAsk := b.bestAsk
  orderCount := b.orderCount
  sharesAt := b.sharesAt
  queueAt := b.queueAt
  nextPriceAfter := b.nextPriceAfter

/-- Make the calls one by one, and take down what each returns and what the book
shows after it. -/
def transcript : OrderBook → List Call → Option (List (Reply × View))
  | _, [] => some []
  | b, c :: calls =>
      (b.serve c).bind fun (reply, b') =>
        (transcript b' calls).map fun rest => (reply, b'.view) :: rest

end OrderBook

namespace Ledger

def serve (l : Ledger) : Call → Reply × Ledger
  | .book op => (.result (l.step op).1, (l.step op).2)
  | .submit preventSelfTrade order =>
      (.events (l.submit preventSelfTrade order).1, (l.submit preventSelfTrade order).2)

/-- The best of the prices with a total that are worse than a price. -/
def nextPriceAfter (l : Ledger) (price : Price4) (side : Bool) : Option Price4 :=
  ((l.depth side).levels.filter (better side price)).head?

def view (l : Ledger) : View where
  bestBid := l.best true
  bestAsk := l.best false
  orderCount := l.orders.length
  sharesAt := l.total
  queueAt := l.queue
  nextPriceAfter := l.nextPriceAfter

def transcript : Ledger → List Call → List (Reply × View)
  | _, [] => []
  | l, c :: calls => ((l.serve c).1, (l.serve c).2.view) :: transcript (l.serve c).2 calls

end Ledger

namespace OrderBook.Refines

variable {b : OrderBook} {l : Ledger}

theorem nextPriceAfter_eq (h : Refines b l) (p : Price4) (side : Bool) :
    b.nextPriceAfter p side = l.nextPriceAfter p side := by
  obtain ⟨live, free, hsh, rfl, hwf⟩ := h
  unfold OrderBook.nextPriceAfter Ledger.nextPriceAfter
  rw [hsh.nextLevelAfter_eq]
  cases hq : (((b.ledgerOf live).depth side).levels.filter (better side p)).head? with
  | none => rfl
  | some q =>
    have hmem := (List.mem_filter.mp (List.mem_of_head? hq)).1
    have hqueue : (b.ledgerOf live).queue q side ≠ [] := fun e =>
      Ledger.mem_levels.mp hmem (Ledger.total_eq_zero_of_queue_eq_nil e)
    exact congrArg some (hsh.queued.levels.levelAt_price (hsh.hasLevel hqueue))

/-- **What a book shows** is what its ledger shows. -/
theorem view_eq (h : Refines b l) : b.view = l.view := by
  apply View.ext
  · exact h.bestBid_eq
  · exact h.bestAsk_eq
  · exact h.orderCount_eq
  · funext p side
    exact h.sharesAt_eq p side
  · funext p side
    exact h.queueAt_eq p side
  · funext p side
    exact h.nextPriceAfter_eq p side

/-- A call returns what it returns on the ledger. -/
theorem serve (h : Refines b l) (c : Call) :
    ∃ b', b.serve c = some ((l.serve c).1, b') ∧ Refines b' (l.serve c).2 := by
  cases c with
  | book op =>
    refine ⟨(b.step op).2, ?_, (h.step op).refines⟩
    rw [OrderBook.serve, (h.step op).result]
    rfl
  | submit preventSelfTrade order =>
    obtain ⟨b₁, b', hsubmit, -, -, href⟩ := h.submit preventSelfTrade order
    refine ⟨b', ?_, href⟩
    rw [OrderBook.serve, hsubmit]
    rfl

/-- **The transcript of a book is that of its ledger.** -/
theorem transcript (h : Refines b l) (calls : List Call) :
    b.transcript calls = some (l.transcript calls) := by
  induction calls generalizing b l with
  | nil => rfl
  | cons c calls ih =>
    obtain ⟨b', hserve, href⟩ := h.serve c
    rw [OrderBook.transcript, hserve, Option.bind_some]
    dsimp only
    rw [ih href, href.view_eq]
    rfl

end OrderBook.Refines

/-- **The flat array is only an optimisation**: wherever it lies and however wide it
is, a new book of the same capacity shows the same, and every sequence of calls has
the same transcript on it. -/
theorem flatArray_unobservable (referencePrice referencePrice' : Price4)
    (halfWidth halfWidth' capacity : ℕ) (calls : List Call) :
    (new referencePrice halfWidth capacity).view =
        (new referencePrice' halfWidth' capacity).view ∧
      ∃ replies, (new referencePrice halfWidth capacity).transcript calls = some replies ∧
        (new referencePrice' halfWidth' capacity).transcript calls = some replies := by
  have h := refines_new referencePrice halfWidth capacity
  have h' := refines_new referencePrice' halfWidth' capacity
  refine ⟨h.view_eq.trans h'.view_eq.symm, (Ledger.new capacity).transcript calls, ?_, ?_⟩
  · exact h.transcript calls
  · exact h'.transcript calls

end Liquibook
