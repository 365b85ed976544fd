import Liquibook.Itch.Framing

/-!
# The synthetic stream

`generate` of `itch/synth.cpp`: a start event, a directory message for each symbol, then
orders that are added, executed, cancelled, deleted and replaced at random until enough
have been added, and an end event.  The generator keeps its own account of the orders that
are live and picks the order of a message among them.

What is drawn is a parameter: each distribution returns a value in its declared range,
and nothing more is known.  The map of the live orders is a list here; the source
iterates over an `std::unordered_map`, whose order is not specified, and picks at random.

A step of the generator writes one message, or goes on to the next part of the stream.

## Main definitions

* `SynthConfig`, `Draws` — the configuration, and what one iteration draws.
* `Generator`, `Generator.step`, `Generator.run` — the state of `generate`, and its steps.
* `Flow` — what a message does to the account.
* `Generator.Sends` — the step writes a message under a locate.

## Main results

* `Generator.step_sends` — **what a step does**, with the locate of what it writes.
* `Generator.step_cases` — **a step writes nothing, or one message that fits the account.**
-/

namespace Liquibook

/-- `struct SynthConfig`, with a spread that `std::int32_t` can hold.  The seed is in the
draws. -/
structure SynthConfig where
  numOrders : UInt64 := 10000
  symbols : List (List Byte) := [[65, 65, 80, 76], [77, 83, 70, 84], [71, 79, 79, 71, 76]]
  basePrice : Price4 := 1500000
  priceSpread : Price4 := 50000
  priceSpread_le : priceSpread.toNat ≤ 2 ^ 31 - 1 := by decide

/-- What the distributions return in one iteration, each in its range. -/
structure Draws (config : SynthConfig) where
  /-- `symbol_dist` -/
  symbolIndex : ℕ
  symbolIndex_le : symbolIndex ≤ if config.symbols.isEmpty then 0 else config.symbols.length - 1
  /-- `action_dist` -/
  action : ℕ
  action_le : action ≤ 99
  /-- `side_dist` -/
  side : ℕ
  side_le : side ≤ 1
  /-- `shares_dist` -/
  shares : Shares
  shares_ge : 10 ≤ shares
  shares_le : shares ≤ 1000
  /-- `jitter_dist` -/
  jitter : ℤ
  jitter_ge : -(config.priceSpread.toNat : ℤ) ≤ jitter
  jitter_le : jitter ≤ config.priceSpread.toNat
  /-- `mpid_dist` -/
  mpid : ℕ
  mpid_le : mpid ≤ 2
  /-- `rng` itself -/
  rng : UInt64

/-- `struct LiveOrder` -/
structure LiveOrder where
  symbolIndex : ℕ
  remainingShares : Shares
  price : Price4
  side : Byte
  deriving DecidableEq, Repr, Inhabited

/-- `live_orders` -/
abbrev LiveOrders := List (OrderRef × LiveOrder)

namespace LiveOrders

/-- `live_orders.erase` -/
def erase (live : LiveOrders) (ref : OrderRef) : LiveOrders :=
  live.filter fun e => decide (e.1 ≠ ref)

/-- `live_orders[ref] = order` -/
def put (live : LiveOrders) (ref : OrderRef) (order : LiveOrder) : LiveOrders :=
  live.erase ref ++ [(ref, order)]

/-- `order.remaining_shares -= shares`, and the order is erased when none are left. -/
def reduce (live : LiveOrders) (ref : OrderRef) (order : LiveOrder) (shares : Shares) :
    LiveOrders :=
  if order.remainingShares - shares = 0 then live.erase ref
  else live.map fun e =>
    if e.1 = ref then (ref, { order with remainingShares := order.remainingShares - shares }) else e

end LiveOrders

/-- The parts of the stream. -/
inductive Phase where
  /-- 1. System Event: start of messages. -/
  | start
  /-- 2. Stock Directory, one per symbol. -/
  | directory (i : ℕ)
  /-- 3. Randomized order flow. -/
  | orderFlow
  /-- 4. System Event: end of messages. -/
  | ending
  | done
  deriving DecidableEq, Repr

/-- The local variables of `generate`, and what it has written. -/
structure Generator where
  phase : Phase := .start
  tracking : TrackingNumber := 1
  ts : Timestamp := 0
  nextOrderRef : OrderRef := 1
  nextMatchNumber : MatchNumber := 1
  liveOrders : LiveOrders := []
  ordersAdded : UInt64 := 0
  out : List Byte := []

namespace Generator

variable {config : SynthConfig}

/-- The header takes `tracking++` and `next_ts()`, and the message goes through
`write_framed`. -/
def write (g : Generator) (locate : StockLocate) (m : SynthMessage) : Generator :=
  { g with
    tracking := g.tracking + 1
    ts := g.ts + 1000
    out := writeFramed g.out (m.bytes locate g.tracking (g.ts + 1000)) }

/-- The Stock Directory message of a symbol. -/
def directoryMessage (symbol : List Byte) : SynthMessage :=
  .stockDirectory symbol 81 78 100 89 67 [] 80 78 78 49 78 0 78

/-- `static_cast<Price4>` of a price and a jitter. -/
def jitteredPrice (price : Price4) (jitter : ℤ) : Price4 :=
  UInt32.ofNat ((price.toNat + jitter) % 2 ^ 32).toNat

/-- `'B'` or `'S'`. -/
def sideOf (d : Draws config) : Byte := if d.side = 0 then 66 else 83

/-- The symbol of a message, `"TEST"` when there are none. -/
def symbolOf (d : Draws config) : List Byte :=
  if config.symbols.isEmpty then [84, 69, 83, 84] else config.symbols.getD d.symbolIndex []

/-- Add Order, with `"EDGX"` as attribution in one case of three. -/
def addOrder (g : Generator) (d : Draws config) : Generator :=
  let locate := UInt16.ofNat (d.symbolIndex + 1)
  let price := jitteredPrice config.basePrice d.jitter
  let msg : SynthMessage :=
    if d.mpid = 0 then
      .addOrderMPID g.nextOrderRef (sideOf d) d.shares (symbolOf d) price [69, 68, 71, 88]
    else .addOrder g.nextOrderRef (sideOf d) d.shares (symbolOf d) price
  { g.write locate msg with
    liveOrders := g.liveOrders.put g.nextOrderRef
      { symbolIndex := d.symbolIndex, remainingShares := d.shares, price := price, side := sideOf d }
    nextOrderRef := g.nextOrderRef + 1
    ordersAdded := g.ordersAdded + 1 }

/-- The messages about a live order, and Trade. -/
def useOrder (g : Generator) (d : Draws config) (action : ℕ) (ref : OrderRef) (order : LiveOrder) :
    Generator :=
  let locate := UInt16.ofNat (d.symbolIndex + 1)
  let shares := min order.remainingShares d.shares
  if action < 70 then
    { g.write locate (.orderExecuted ref shares g.nextMatchNumber) with
      nextMatchNumber := g.nextMatchNumber + 1
      liveOrders := g.liveOrders.reduce ref order shares }
  else if action < 80 then
    { g.write locate (.orderCancel ref shares) with
      liveOrders := g.liveOrders.reduce ref order shares }
  else if action < 90 then
    { g.write locate (.orderDelete ref) with liveOrders := g.liveOrders.erase ref }
  else if action < 97 then
    let newPrice := jitteredPrice order.price d.jitter
    { g.write locate (.orderReplace ref g.nextOrderRef d.shares newPrice) with
      nextOrderRef := g.nextOrderRef + 1
      liveOrders := (g.liveOrders.erase ref).put g.nextOrderRef
        { order with remainingShares := d.shares, price := newPrice } }
  else
    { g.write locate (.trade g.nextOrderRef (sideOf d) d.shares (symbolOf d) order.price
        g.nextMatchNumber) with
      nextOrderRef := g.nextOrderRef + 1
      nextMatchNumber := g.nextMatchNumber + 1 }

/-- One iteration of the order flow. -/
def iterate (g : Generator) (d : Draws config) : Generator :=
  let action := if g.liveOrders.isEmpty then 0 else d.action
  if action < 55 then g.addOrder d
  else
    let entry := g.liveOrders.getD (d.rng.toNat % g.liveOrders.length) default
    g.useOrder d action entry.1 entry.2

/-- A step of `generate`. -/
def step (g : Generator) (d : Draws config) : Generator :=
  match g.phase with
  | .start => { g.write 0 (.systemEvent 79) with phase := .directory 0 }
  | .directory i =>
      if i < config.symbols.length then
        { g.write (UInt16.ofNat (i + 1)) (directoryMessage (config.symbols.getD i [])) with
          phase := .directory (i + 1) }
      else { g with phase := .orderFlow }
  | .orderFlow =>
      if g.ordersAdded < config.numOrders then g.iterate d else { g with phase := .ending }
  | .ending => { g.write 0 (.systemEvent 67) with phase := .done }
  | .done => g

/-- `generate`, as far as the draws lead. -/
def run (config : SynthConfig) (draws : List (Draws config)) : Generator :=
  draws.foldl step {}

end Generator

/-! ### What a step does -/

namespace Payload

/-- The order that a message adds. -/
def adds : Payload → Option OrderRef
  | .addOrder p => some p.orderReferenceNumber
  | _ => none

/-- The order that a message is about. -/
def uses : Payload → Option OrderRef
  | .orderExecuted p => some p.orderReferenceNumber
  | .orderExecutedWithPrice p => some p.orderReferenceNumber
  | .orderCancel p => some p.orderReferenceNumber
  | .orderDelete p => some p.orderReferenceNumber
  | .orderReplace p => some p.originalOrderReferenceNumber
  | _ => none

end Payload

/-- The locate of the symbol an order belongs to. -/
def LiveOrder.locate (order : LiveOrder) : StockLocate := UInt16.ofNat (order.symbolIndex + 1)

namespace Generator

variable {config : SynthConfig}

/-- The order that an iteration picks. -/
def picked (g : Generator) (d : Draws config) : OrderRef × LiveOrder :=
  g.liveOrders.getD (d.rng.toNat % g.liveOrders.length) default

/-- The step is an iteration that writes a message about the order it picks: an
execution, a cancel, a deletion or a replacement. -/
def UsesOrder (g : Generator) (d : Draws config) : Prop :=
  g.phase = .orderFlow ∧ g.ordersAdded < config.numOrders ∧ g.liveOrders ≠ [] ∧
    55 ≤ d.action ∧ d.action < 97

end Generator

/-- What a message does to the account: the next reference and the live orders. -/
inductive Flow : OrderRef → LiveOrders → SynthMessage → OrderRef → LiveOrders → Prop
  | systemEvent {next live} (eventCode) : Flow next live (.systemEvent eventCode) next live
  | stockDirectory {next live} (stock c₁ c₂ n₁ c₃ c₄ s c₅ c₆ c₇ c₈ c₉ n₂ c₁₀) :
      Flow next live (.stockDirectory stock c₁ c₂ n₁ c₃ c₄ s c₅ c₆ c₇ c₈ c₉ n₂ c₁₀) next live
  | addOrder {next live} (order : LiveOrder) (stock) (h : order.remainingShares ≠ 0) :
      Flow next live (.addOrder next order.side order.remainingShares stock order.price) (next + 1)
        (live.put next order)
  | addOrderMPID {next live} (order : LiveOrder) (stock attribution)
      (h : order.remainingShares ≠ 0) :
      Flow next live
        (.addOrderMPID next order.side order.remainingShares stock order.price attribution)
        (next + 1) (live.put next order)
  | orderExecuted {next live ref} {order : LiveOrder} {shares : Shares} (matchNumber)
      (hmem : (ref, order) ∈ live) (hpos : shares ≠ 0) (hle : shares ≤ order.remainingShares) :
      Flow next live (.orderExecuted ref shares matchNumber) next (live.reduce ref order shares)
  | orderCancel {next live ref} {order : LiveOrder} {shares : Shares}
      (hmem : (ref, order) ∈ live) (hpos : shares ≠ 0) (hle : shares ≤ order.remainingShares) :
      Flow next live (.orderCancel ref shares) next (live.reduce ref order shares)
  | orderDelete {next live ref} {order : LiveOrder} (hmem : (ref, order) ∈ live) :
      Flow next live (.orderDelete ref) next (live.erase ref)
  | orderReplace {next live ref} {order : LiveOrder} {shares : Shares} (price)
      (hmem : (ref, order) ∈ live) (hpos : shares ≠ 0) :
      Flow next live (.orderReplace ref next shares price) (next + 1)
        ((live.erase ref).put next { order with remainingShares := shares, price := price })
  | trade {next live} (side shares stock price matchNumber) :
      Flow next live (.trade next side shares stock price matchNumber) (next + 1) live

/-- Every live order has shares left. -/
def LiveOrders.Positive (live : LiveOrders) : Prop := ∀ e ∈ live, e.2.remainingShares ≠ 0

/-- A message leaves every live order with shares. -/
theorem Flow.positive {next next' : OrderRef} {live live' : LiveOrders} {m : SynthMessage}
    (h : Flow next live m next' live') (hpos : live.Positive) : live'.Positive := by
  have herase : ∀ ref, (live.erase ref).Positive := fun ref e he => hpos e (List.mem_filter.mp he).1
  have hput : ∀ (live : LiveOrders) ref (order : LiveOrder), live.Positive →
      order.remainingShares ≠ 0 → (live.put ref order).Positive := by
    intro live ref order hpos hne e he
    rcases List.mem_append.mp he with he | he
    · exact hpos e (List.mem_filter.mp he).1
    · rw [List.mem_singleton.mp he]
      exact hne
  have hreduce : ∀ ref (order : LiveOrder) (shares : Shares),
      (live.reduce ref order shares).Positive := by
    intro ref order shares
    unfold LiveOrders.reduce
    split
    · exact herase ref
    · next hne =>
      intro e he
      obtain ⟨x, hx, rfl⟩ := List.mem_map.mp he
      split
      · exact hne
      · exact hpos x hx
  cases h with
  | systemEvent eventCode => exact hpos
  | stockDirectory => exact hpos
  | addOrder order stock hne => exact hput live _ order hpos hne
  | addOrderMPID order stock attribution hne => exact hput live _ order hpos hne
  | orderExecuted matchNumber hmem hne hle => exact hreduce _ _ _
  | orderCancel hmem hne hle => exact hreduce _ _ _
  | orderDelete hmem => exact herase _
  | orderReplace price hmem hne => exact hput _ _ _ (herase _) hne
  | trade side shares stock price matchNumber => exact hpos

namespace Generator

variable {config : SynthConfig}

theorem draws_shares_ne_zero (d : Draws config) : d.shares ≠ 0 := by
  intro h
  have hge := d.shares_ge
  rw [h] at hge
  exact absurd hge (by decide)

/-- The shares of an execution or a cancel. -/
theorem min_shares {remaining drawn : Shares} (hr : remaining ≠ 0) (hd : drawn ≠ 0) :
    min remaining drawn ≠ 0 ∧ min remaining drawn ≤ remaining := by
  change (if remaining ≤ drawn then remaining else drawn) ≠ 0 ∧
    (if remaining ≤ drawn then remaining else drawn) ≤ remaining
  split
  · exact ⟨hr, UInt32.le_refl _⟩
  · next h => exact ⟨hd, UInt32.le_of_lt (UInt32.not_le.mp h)⟩

/-- The step writes the message, and does to the account what the message says. -/
def Writes (g g' : Generator) : Prop :=
  ∃ m locate tracking ts, g'.out = writeFramed g.out (SynthMessage.bytes m locate tracking ts) ∧
    Flow g.nextOrderRef g.liveOrders m g'.nextOrderRef g'.liveOrders

/-- The step writes this message with this locate.  An order that it adds belongs to the
symbol that is drawn, and so does the locate. -/
structure Sends (g : Generator) (d : Draws config) (g' : Generator) (m : SynthMessage)
    (locate : StockLocate) : Prop where
  out_eq : ∃ tracking ts, g'.out = writeFramed g.out (m.bytes locate tracking ts)
  flow : Flow g.nextOrderRef g.liveOrders m g'.nextOrderRef g'.liveOrders
  adds_symbol : ∀ e ∈ g'.liveOrders, m.payload.adds = some e.1 →
    e.2.symbolIndex = d.symbolIndex ∧ locate = UInt16.ofNat (d.symbolIndex + 1)

theorem Sends.writes {g g' : Generator} {d : Draws config} {m : SynthMessage}
    {locate : StockLocate} (h : g.Sends d g' m locate) : g.Writes g' := by
  obtain ⟨tracking, ts, hout⟩ := h.out_eq
  exact ⟨m, locate, tracking, ts, hout, h.flow⟩

theorem sends_addOrder (g : Generator) (d : Draws config) :
    ∃ m, g.Sends d (g.addOrder d) m (UInt16.ofNat (d.symbolIndex + 1)) ∧ m.payload.uses = none := by
  have hpos := draws_shares_ne_zero d
  -- the new order is the only one with its reference
  have hsymbol : ∀ e ∈ (g.addOrder d).liveOrders, e.1 = g.nextOrderRef →
      e.2.symbolIndex = d.symbolIndex := by
    intro e he href
    rcases List.mem_append.mp he with he | he
    · exact absurd href (by simpa using (List.mem_filter.mp he).2)
    · rw [List.mem_singleton.mp he]
  by_cases hmpid : d.mpid = 0
  · refine ⟨.addOrderMPID g.nextOrderRef (sideOf d) d.shares (symbolOf d)
      (jitteredPrice config.basePrice d.jitter) [69, 68, 71, 88],
      ⟨⟨g.tracking, g.ts + 1000, ?_⟩, ?_, ?_⟩, rfl⟩
    · simp only [addOrder, if_pos hmpid]
      rfl
    · exact Flow.addOrderMPID ⟨_, _, _, _⟩ _ _ hpos
    · exact fun e he hadds => ⟨hsymbol e he (Option.some.inj hadds).symm, rfl⟩
  · refine ⟨.addOrder g.nextOrderRef (sideOf d) d.shares (symbolOf d)
      (jitteredPrice config.basePrice d.jitter),
      ⟨⟨g.tracking, g.ts + 1000, ?_⟩, ?_, ?_⟩, rfl⟩
    · simp only [addOrder, if_neg hmpid]
      rfl
    · exact Flow.addOrder ⟨_, _, _, _⟩ _ hpos
    · exact fun e he hadds => ⟨hsymbol e he (Option.some.inj hadds).symm, rfl⟩

theorem sends_useOrder (g : Generator) (d : Draws config) (action : ℕ) {ref : OrderRef}
    {order : LiveOrder} (hmem : (ref, order) ∈ g.liveOrders) (hpos : order.remainingShares ≠ 0) :
    ∃ m, g.Sends d (g.useOrder d action ref order) m (UInt16.ofNat (d.symbolIndex + 1)) ∧
      m.payload.uses = if action < 97 then some ref else none := by
  have hdraw := draws_shares_ne_zero d
  obtain ⟨hmin, hle⟩ := min_shares hpos hdraw
  unfold useOrder
  dsimp only
  split
  · rw [if_pos (by omega)]
    exact ⟨_, ⟨⟨_, _, rfl⟩, Flow.orderExecuted _ hmem hmin hle, fun e _ h => by cases h⟩, rfl⟩
  · split
    · rw [if_pos (by omega)]
      exact ⟨_, ⟨⟨_, _, rfl⟩, Flow.orderCancel hmem hmin hle, fun e _ h => by cases h⟩, rfl⟩
    · split
      · rw [if_pos (by omega)]
        exact ⟨_, ⟨⟨_, _, rfl⟩, Flow.orderDelete hmem, fun e _ h => by cases h⟩, rfl⟩
      · split
        · exact ⟨_, ⟨⟨_, _, rfl⟩, Flow.orderReplace _ hmem hdraw, fun e _ h => by cases h⟩, rfl⟩
        · exact ⟨_, ⟨⟨_, _, rfl⟩, Flow.trade _ _ _ _ _, fun e _ h => by cases h⟩, rfl⟩

theorem picked_mem (g : Generator) (d : Draws config) (hne : g.liveOrders ≠ []) :
    g.picked d ∈ g.liveOrders := by
  have hlt : d.rng.toNat % g.liveOrders.length < g.liveOrders.length :=
    Nat.mod_lt _ (List.length_pos_of_ne_nil hne)
  rw [picked, List.getD_eq_getElem _ _ hlt]
  exact List.getElem_mem hlt

/-- An iteration writes one message, with the locate of the symbol that is drawn. -/
theorem sends_iterate (g : Generator) (d : Draws config) (hpos : g.liveOrders.Positive) :
    ∃ m, g.Sends d (g.iterate d) m (UInt16.ofNat (d.symbolIndex + 1)) ∧
      m.payload.uses = if g.liveOrders ≠ [] ∧ 55 ≤ d.action ∧ d.action < 97
        then some (g.picked d).1 else none := by
  unfold iterate
  by_cases hne : g.liveOrders = []
  · rw [if_pos (by simp [hne]), if_neg (by simp [hne])]
    exact g.sends_addOrder d
  · have hlive : g.liveOrders.isEmpty = false := by simpa using hne
    simp only [hlive, Bool.false_eq_true, if_false]
    by_cases haction : d.action < 55
    · rw [if_pos haction, if_neg (by omega)]
      exact g.sends_addOrder d
    · rw [if_neg haction]
      have hmem : ((g.picked d).1, (g.picked d).2) ∈ g.liveOrders := g.picked_mem d hne
      obtain ⟨m, hsends, huses⟩ := g.sends_useOrder d d.action hmem (hpos _ hmem)
      refine ⟨m, hsends, ?_⟩
      rw [huses]
      by_cases hlt : d.action < 97
      · rw [if_pos hlt, if_pos ⟨hne, by omega, hlt⟩]
      · rw [if_neg hlt, if_neg fun h => hlt h.2.2]

/-- **What a step does**: it writes nothing, or one message that fits the account.  A
message about an order is about the one that is picked, and goes out under the symbol that
is drawn. -/
theorem step_sends (g : Generator) (d : Draws config) (hpos : g.liveOrders.Positive) :
    ((g.step d).out = g.out ∧ (g.step d).nextOrderRef = g.nextOrderRef ∧
        (g.step d).liveOrders = g.liveOrders ∧ ¬ g.UsesOrder d) ∨
      ∃ m locate, g.Sends d (g.step d) m locate ∧
        (g.UsesOrder d → m.payload.uses = some (g.picked d).1 ∧
          locate = UInt16.ofNat (d.symbolIndex + 1)) ∧
        (¬ g.UsesOrder d → m.payload.uses = none) := by
  unfold UsesOrder step
  cases hphase : g.phase with
  | start =>
    exact Or.inr ⟨_, _, ⟨⟨_, _, rfl⟩, Flow.systemEvent _, fun e _ h => by cases h⟩,
      by simp, fun _ => rfl⟩
  | directory i =>
    dsimp only
    split
    · exact Or.inr ⟨_, _, ⟨⟨_, _, rfl⟩, Flow.stockDirectory .., fun e _ h => by cases h⟩,
        by simp, fun _ => rfl⟩
    · exact Or.inl ⟨rfl, rfl, rfl, by simp⟩
  | orderFlow =>
    dsimp only
    split
    · next hmore =>
      obtain ⟨m, hsends, huses⟩ := g.sends_iterate d hpos
      refine Or.inr ⟨m, _, hsends, ?_, ?_⟩
      · rintro ⟨-, -, h⟩
        rw [huses, if_pos h]
        exact ⟨rfl, rfl⟩
      · intro h
        rw [huses, if_neg fun h' => h ⟨rfl, hmore, h'⟩]
    · next hdone => exact Or.inl ⟨rfl, rfl, rfl, fun h => hdone h.2.1⟩
  | ending =>
    exact Or.inr ⟨_, _, ⟨⟨_, _, rfl⟩, Flow.systemEvent _, fun e _ h => by cases h⟩,
      by simp, fun _ => rfl⟩
  | done => exact Or.inl ⟨rfl, rfl, rfl, by simp⟩

/-- **A step writes nothing, or one message that fits the account.** -/
theorem step_cases (g : Generator) (d : Draws config) (hpos : g.liveOrders.Positive) :
    ((g.step d).out = g.out ∧ (g.step d).nextOrderRef = g.nextOrderRef ∧
        (g.step d).liveOrders = g.liveOrders) ∨ g.Writes (g.step d) := by
  obtain ⟨hout, hnext, hlive, -⟩ | ⟨m, locate, hsends, -⟩ := g.step_sends d hpos
  · exact Or.inl ⟨hout, hnext, hlive⟩
  · exact Or.inr hsends.writes

end Generator
end Liquibook
