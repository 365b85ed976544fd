import Liquibook.Itch.StreamReplay

/-!
# The shape of a session

A session that `generate` writes opens with a system event and a directory message for each
symbol, goes on with the order flow, and closes with a system event.  The messages are
numbered and carry the time: the tracking number and the timestamp of a message follow from
its place alone, as far as their fields are wide enough.  The references of new orders and
trades are `1`, `2`, `3` and so on, and so are the match numbers.

## Main definitions

* `stamped` — messages with the headers of a session.
* `opening`, `Stage` — the parts of a session, and how far it has come.
* `FlowOf` — what is known of the order flow.

## Main results

* `FlowOf.iterate` — an iteration adds one message to the order flow.
* `session_shape` — **every session has this shape.**
-/

namespace Liquibook

open Lib

/-- A message and its locate. -/
abbrev Entry := SynthMessage × StockLocate

/-- Messages with the headers of a session: `tracking++` and `next_ts()`. -/
def stamped (log : List Entry) : List DecodedMessage :=
  log.mapIdx fun k x => x.1.message x.2 (UInt16.ofNat (k + 1)) (UInt64.ofNat (1000 * (k + 1)))

/-- `1`, `2`, `3` and so on, as 64-bit numbers. -/
def numbered (n : ℕ) : List UInt64 := (List.range n).map fun i => UInt64.ofNat (i + 1)

namespace SynthMessage

/-- A message of the order flow. -/
def isFlow : SynthMessage → Bool
  | .systemEvent _ => false
  | .stockDirectory .. => false
  | _ => true

/-- Add Order, with an attribution or without. -/
def isAdd : SynthMessage → Bool
  | .addOrder .. => true
  | .addOrderMPID .. => true
  | _ => false

/-- The reference that a message hands out. -/
def newRef : SynthMessage → Option OrderRef
  | .addOrder ref .. => some ref
  | .addOrderMPID ref .. => some ref
  | .orderReplace _ newRef .. => some newRef
  | .trade ref .. => some ref
  | _ => none

/-- The match number of an execution or a trade. -/
def matchNumber : SynthMessage → Option MatchNumber
  | .orderExecuted _ _ matchNumber => some matchNumber
  | .trade _ _ _ _ _ matchNumber => some matchNumber
  | _ => none

end SynthMessage

namespace Generator

/-- The start event and the directory. -/
def opening (config : SynthConfig) : List Entry :=
  (.systemEvent 79, 0) ::
    config.symbols.mapIdx fun i symbol => (directoryMessage symbol, UInt16.ofNat (i + 1))

/-- How far a session has come, with its order flow and all its messages. -/
inductive Stage (config : SynthConfig) : Phase → List Entry → List Entry → Prop where
  | start : Stage config .start [] []
  | directory (i : ℕ) (h : i ≤ config.symbols.length) :
      Stage config (.directory i) [] ((opening config).take (i + 1))
  | orderFlow (flow : List Entry) : Stage config .orderFlow flow (opening config ++ flow)
  | ending (flow : List Entry) : Stage config .ending flow (opening config ++ flow)
  | done (flow : List Entry) :
      Stage config .done flow (opening config ++ flow ++ [(.systemEvent 67, 0)])

/-- Numbers that have been handed out one after the other, and the next one. -/
def HandedOut (xs : List UInt64) (next : UInt64) : Prop :=
  ∃ n, xs = numbered n ∧ next = UInt64.ofNat (n + 1)

/-- What is known of the order flow of a session. -/
structure FlowOf (config : SynthConfig) (g : Generator) (flow : List Entry) : Prop where
  isFlow : ∀ x ∈ flow, x.1.isFlow = true
  drawn : ∀ x ∈ flow, ∃ d : Draws config, x.2 = UInt16.ofNat (d.symbolIndex + 1)
  adds : (flow.filter fun x => x.1.isAdd).length = g.ordersAdded.toNat
  adds_le : g.ordersAdded ≤ config.numOrders
  refs : HandedOut (flow.filterMap fun x => x.1.newRef) g.nextOrderRef
  matchNumbers : HandedOut (flow.filterMap fun x => x.1.matchNumber) g.nextMatchNumber

theorem stamped_concat (log : List Entry) (x : Entry) :
    stamped (log ++ [x]) = stamped log ++ [x.1.message x.2 (UInt16.ofNat (log.length + 1))
      (UInt64.ofNat (1000 * (log.length + 1)))] := List.mapIdx_concat

theorem numbered_succ (n : ℕ) : numbered (n + 1) = numbered n ++ [UInt64.ofNat (n + 1)] := by
  rw [numbered, List.range_succ, List.map_append]
  rfl

/-- A number is handed out, or none. -/
theorem HandedOut.concat {α : Type*} {f : α → Option UInt64} {xs : List α} {x : α}
    {next next' : UInt64} (h : HandedOut (xs.filterMap f) next)
    (hx : f x = none ∧ next' = next ∨ f x = some next ∧ next' = next + 1) :
    HandedOut ((xs ++ [x]).filterMap f) next' := by
  obtain ⟨n, hxs, hnext⟩ := h
  rw [List.filterMap_append, hxs]
  rcases hx with ⟨hnone, rfl⟩ | ⟨hsome, rfl⟩
  · refine ⟨n, ?_, hnext⟩
    rw [List.filterMap_cons_none hnone, List.filterMap_nil, List.append_nil]
  · refine ⟨n + 1, ?_, ?_⟩
    · rw [List.filterMap_cons_some hsome, List.filterMap_nil, numbered_succ, hnext]
    · rw [hnext, UInt64.ofNat_add (n + 1)]
      rfl

variable {config : SynthConfig} {g : Generator}

/-- The generator `g'` has written the entry `x`, and nothing else. -/
structure Stamps (g g' : Generator) (x : Entry) : Prop where
  out : g'.out = writeFramed g.out (x.1.bytes x.2 g.tracking (g.ts + 1000))
  tracking : g'.tracking = g.tracking + 1
  ts : g'.ts = g.ts + 1000

/-- The messages of a session so far, in its stage. -/
structure Session (config : SynthConfig) (g : Generator) (flow log : List Entry) : Prop where
  stage : Stage config g.phase flow log
  flowOf : FlowOf config g flow
  written : Written g.out (stamped log)
  tracking : g.tracking = UInt16.ofNat (log.length + 1)
  ts : g.ts = UInt64.ofNat (1000 * log.length)
  complete : g.phase = .ending ∨ g.phase = .done → g.ordersAdded = config.numOrders

/-- The order flow so far is known by the three counters. -/
theorem FlowOf.of_same {g' : Generator} {flow : List Entry} (h : FlowOf config g flow)
    (hadds : g'.ordersAdded = g.ordersAdded) (hrefs : g'.nextOrderRef = g.nextOrderRef)
    (hmatch : g'.nextMatchNumber = g.nextMatchNumber) : FlowOf config g' flow where
  isFlow := h.isFlow
  drawn := h.drawn
  adds := by rw [hadds]; exact h.adds
  adds_le := by rw [hadds]; exact h.adds_le
  refs := by rw [hrefs]; exact h.refs
  matchNumbers := by rw [hmatch]; exact h.matchNumbers

theorem FlowOf.concat {g' : Generator} {flow : List Entry} {x : Entry} (h : FlowOf config g flow)
    (hflow : x.1.isFlow = true) (d : Draws config)
    (hlocate : x.2 = UInt16.ofNat (d.symbolIndex + 1))
    (hadds : x.1.isAdd = false ∧ g'.ordersAdded = g.ordersAdded ∨
      x.1.isAdd = true ∧ g.ordersAdded < config.numOrders ∧ g'.ordersAdded = g.ordersAdded + 1)
    (hrefs : x.1.newRef = none ∧ g'.nextOrderRef = g.nextOrderRef ∨
      x.1.newRef = some g.nextOrderRef ∧ g'.nextOrderRef = g.nextOrderRef + 1)
    (hmatch : x.1.matchNumber = none ∧ g'.nextMatchNumber = g.nextMatchNumber ∨
      x.1.matchNumber = some g.nextMatchNumber ∧ g'.nextMatchNumber = g.nextMatchNumber + 1) :
    FlowOf config g' (flow ++ [x]) where
  isFlow := by
    intro y hy
    rcases List.mem_append.mp hy with hy | hy
    · exact h.isFlow y hy
    · rw [List.mem_singleton.mp hy]
      exact hflow
  drawn := by
    intro y hy
    rcases List.mem_append.mp hy with hy | hy
    · exact h.drawn y hy
    · rw [List.mem_singleton.mp hy]
      exact ⟨d, hlocate⟩
  adds := by
    rw [List.filter_append, List.length_append, h.adds, List.filter_cons, List.filter_nil]
    rcases hadds with ⟨hno, heq⟩ | ⟨hyes, hlt, heq⟩
    · rw [hno, heq]
      rfl
    · have hroom := config.numOrders.toNat_lt
      rw [UInt64.lt_iff_toNat_lt] at hlt
      have hone : (1 : UInt64).toNat = 1 := rfl
      rw [hyes, heq, UInt64.toNat_add, Nat.mod_eq_of_lt (by omega)]
      rfl
  adds_le := by
    rcases hadds with ⟨-, heq⟩ | ⟨-, hlt, heq⟩
    · rw [heq]
      exact h.adds_le
    · have hroom := config.numOrders.toNat_lt
      rw [UInt64.lt_iff_toNat_lt] at hlt
      have hone : (1 : UInt64).toNat = 1 := rfl
      rw [heq, UInt64.le_iff_toNat_le, UInt64.toNat_add, Nat.mod_eq_of_lt (by omega)]
      omega
  refs := h.refs.concat hrefs
  matchNumbers := h.matchNumbers.concat hmatch

/-- An order that is added. -/
theorem FlowOf.addOrder {flow : List Entry} (h : FlowOf config g flow)
    (hlt : g.ordersAdded < config.numOrders) (d : Draws config) :
    ∃ x, Stamps g (g.addOrder d) x ∧ FlowOf config (g.addOrder d) (flow ++ [x]) := by
  by_cases hmpid : d.mpid = 0
  · refine ⟨(.addOrderMPID g.nextOrderRef (sideOf d) d.shares (symbolOf d)
      (jitteredPrice config.basePrice d.jitter) [69, 68, 71, 88], UInt16.ofNat (d.symbolIndex + 1)),
      ⟨?_, rfl, rfl⟩, ?_⟩
    · simp only [Generator.addOrder, if_pos hmpid]
      rfl
    · exact h.concat rfl d rfl (Or.inr ⟨rfl, hlt, rfl⟩) (Or.inr ⟨rfl, rfl⟩) (Or.inl ⟨rfl, rfl⟩)
  · refine ⟨(.addOrder g.nextOrderRef (sideOf d) d.shares (symbolOf d)
      (jitteredPrice config.basePrice d.jitter), UInt16.ofNat (d.symbolIndex + 1)),
      ⟨?_, rfl, rfl⟩, ?_⟩
    · simp only [Generator.addOrder, if_neg hmpid]
      rfl
    · exact h.concat rfl d rfl (Or.inr ⟨rfl, hlt, rfl⟩) (Or.inr ⟨rfl, rfl⟩) (Or.inl ⟨rfl, rfl⟩)

/-- A message about a live order, or a trade. -/
theorem FlowOf.useOrder {flow : List Entry} (h : FlowOf config g flow) (d : Draws config)
    (action : ℕ) (ref : OrderRef) (order : LiveOrder) :
    ∃ x, Stamps g (g.useOrder d action ref order) x ∧
      FlowOf config (g.useOrder d action ref order) (flow ++ [x]) := by
  unfold Generator.useOrder
  dsimp only
  split
  · exact ⟨(_, _), ⟨rfl, rfl, rfl⟩,
      h.concat rfl d rfl (Or.inl ⟨rfl, rfl⟩) (Or.inl ⟨rfl, rfl⟩) (Or.inr ⟨rfl, rfl⟩)⟩
  split
  · exact ⟨(_, _), ⟨rfl, rfl, rfl⟩,
      h.concat rfl d rfl (Or.inl ⟨rfl, rfl⟩) (Or.inl ⟨rfl, rfl⟩) (Or.inl ⟨rfl, rfl⟩)⟩
  split
  · exact ⟨(_, _), ⟨rfl, rfl, rfl⟩,
      h.concat rfl d rfl (Or.inl ⟨rfl, rfl⟩) (Or.inl ⟨rfl, rfl⟩) (Or.inl ⟨rfl, rfl⟩)⟩
  split
  · exact ⟨(_, _), ⟨rfl, rfl, rfl⟩,
      h.concat rfl d rfl (Or.inl ⟨rfl, rfl⟩) (Or.inr ⟨rfl, rfl⟩) (Or.inl ⟨rfl, rfl⟩)⟩
  · exact ⟨(_, _), ⟨rfl, rfl, rfl⟩,
      h.concat rfl d rfl (Or.inl ⟨rfl, rfl⟩) (Or.inr ⟨rfl, rfl⟩) (Or.inr ⟨rfl, rfl⟩)⟩

/-- **An iteration adds one message to the order flow.** -/
theorem FlowOf.iterate {flow : List Entry} (h : FlowOf config g flow)
    (hlt : g.ordersAdded < config.numOrders) (d : Draws config) :
    ∃ x, Stamps g (g.iterate d) x ∧ FlowOf config (g.iterate d) (flow ++ [x]) := by
  unfold Generator.iterate
  dsimp only
  generalize (if g.liveOrders.isEmpty then 0 else d.action) = action
  by_cases hadd : action < 55
  · rw [if_pos hadd]
    exact h.addOrder hlt d
  · rw [if_neg hadd]
    exact h.useOrder d action _ _

/-! ### Whole sessions -/

namespace Session

variable {flow log : List Entry}

theorem ts_eq (h : Session config g flow log) :
    g.ts + 1000 = UInt64.ofNat (1000 * (log.length + 1)) := by
  rw [h.ts, Nat.mul_add, UInt64.ofNat_add]
  rfl

/-- A message that is written is one more, with the number and the time of its place. -/
theorem write {g' : Generator} {x : Entry} {flow' : List Entry} (h : Session config g flow log)
    (hx : Stamps g g' x) (hstage : Stage config g'.phase flow' (log ++ [x]))
    (hflow : FlowOf config g' flow')
    (hcomplete : g'.phase = .ending ∨ g'.phase = .done → g'.ordersAdded = config.numOrders) :
    Session config g' flow' (log ++ [x]) where
  stage := hstage
  flowOf := hflow
  written := by
    rw [stamped_concat, hx.out, h.ts_eq, h.tracking]
    exact h.written.concat x.1 x.2 _ _
  tracking := by
    rw [hx.tracking, h.tracking, List.length_append, List.length_singleton,
      UInt16.ofNat_add (log.length + 1)]
    rfl
  ts := by
    rw [hx.ts, h.ts_eq, List.length_append, List.length_singleton]
  complete := hcomplete

/-- A message outside of the order flow, and the next part. -/
theorem announce (h : Session config g flow log) (x : Entry) {phase : Phase}
    (hstage : Stage config phase flow (log ++ [x]))
    (hcomplete : phase = .ending ∨ phase = .done → g.ordersAdded = config.numOrders) :
    Session config { g.write x.2 x.1 with phase } flow (log ++ [x]) :=
  h.write ⟨rfl, rfl, rfl⟩ hstage
    (h.flowOf.of_same rfl rfl rfl) hcomplete

/-- A step that writes nothing goes on to the next part. -/
theorem pass {phase : Phase} (h : Session config g flow log) (hstage : Stage config phase flow log)
    (hcomplete : phase = .ending ∨ phase = .done → g.ordersAdded = config.numOrders) :
    Session config { g with phase } flow log where
  stage := hstage
  flowOf := h.flowOf.of_same rfl rfl rfl
  written := h.written
  tracking := h.tracking
  ts := h.ts
  complete := hcomplete

theorem new (config : SynthConfig) : Session config {} [] [] where
  stage := Stage.start
  flowOf := ⟨fun x hx => absurd hx List.not_mem_nil, fun x hx => absurd hx List.not_mem_nil, rfl,
    UInt64.zero_le, ⟨0, rfl, rfl⟩,
    ⟨0, rfl, rfl⟩⟩
  written := ⟨rfl, fun m hm => absurd hm List.not_mem_nil⟩
  tracking := rfl
  ts := rfl
  complete := by simp

end Session

theorem iterate_phase (g : Generator) (d : Draws config) : (g.iterate d).phase = g.phase := by
  have huse : ∀ action ref order, (g.useOrder d action ref order).phase = g.phase := by
    intro action ref order
    unfold useOrder
    dsimp only
    split
    · rfl
    split
    · rfl
    split
    · rfl
    split
    · rfl
    · rfl
  unfold iterate
  dsimp only
  generalize (if g.liveOrders.isEmpty then 0 else d.action) = action
  split
  · rfl
  · exact huse action _ _

theorem length_opening (config : SynthConfig) :
    (opening config).length = config.symbols.length + 1 := by
  rw [opening, List.length_cons, List.length_mapIdx]

/-- The directory message of the next symbol. -/
theorem opening_take (i : ℕ) (h : i < config.symbols.length) :
    (opening config).take (i + 1) ++
        [(directoryMessage (config.symbols.getD i []), UInt16.ofNat (i + 1))] =
      (opening config).take (i + 2) := by
  have hlt : i + 1 < (opening config).length := by
    rw [length_opening]
    omega
  rw [List.take_succ_eq_append_getElem hlt, List.getD_eq_getElem _ _ h]
  simp [opening]

/-- **A step keeps the shape.** -/
theorem Session.step {flow log : List Entry} (h : Session config g flow log) (d : Draws config) :
    ∃ flow' log', Session config (g.step d) flow' log' := by
  have hstage := h.stage
  unfold Generator.step
  cases hphase : g.phase with
  | start =>
    rw [hphase] at hstage
    cases hstage
    exact ⟨[], _, h.announce (.systemEvent 79, 0) (Stage.directory 0 (Nat.zero_le _)) (by simp)⟩
  | directory i =>
    rw [hphase] at hstage
    cases hstage with
    | directory i hle =>
    dsimp only
    by_cases hlt : i < config.symbols.length
    · rw [if_pos hlt]
      have hnext : Stage config (.directory (i + 1)) [] ((opening config).take (i + 2)) :=
        Stage.directory (i + 1) hlt
      rw [← opening_take i hlt] at hnext
      exact ⟨[], _, h.announce (directoryMessage (config.symbols.getD i []), UInt16.ofNat (i + 1))
        hnext (by simp)⟩
    · rw [if_neg hlt]
      refine ⟨[], _, h.pass ?_ (by simp)⟩
      have hall : (opening config).take (i + 1) = opening config ++ [] := by
        rw [List.take_of_length_le (by rw [length_opening]; omega), List.append_nil]
      rw [hall]
      exact Stage.orderFlow []
  | orderFlow =>
    rw [hphase] at hstage
    cases hstage
    dsimp only
    by_cases hmore : g.ordersAdded < config.numOrders
    · rw [if_pos hmore]
      obtain ⟨x, hx, hflow⟩ := h.flowOf.iterate hmore d
      refine ⟨flow ++ [x], _, h.write hx ?_ hflow ?_⟩
      · rw [iterate_phase, hphase, List.append_assoc]
        exact Stage.orderFlow _
      · rw [iterate_phase, hphase]
        simp
    · rw [if_neg hmore]
      refine ⟨flow, _, h.pass (Stage.ending flow) fun _ => ?_⟩
      exact UInt64.le_antisymm h.flowOf.adds_le (UInt64.not_lt.mp hmore)
  | ending =>
    rw [hphase] at hstage
    cases hstage
    exact ⟨flow, _, h.announce (.systemEvent 67, 0) (Stage.done flow) fun _ =>
      h.complete (Or.inl hphase)⟩
  | done => exact ⟨flow, log, h⟩

/-- Every run of the generator is a session. -/
theorem run_session (config : SynthConfig) (draws : List (Draws config)) :
    ∃ flow log, Session config (run config draws) flow log := by
  induction draws using List.reverseRecOn with
  | nil => exact ⟨[], [], Session.new config⟩
  | append_singleton ds d ih =>
    obtain ⟨flow, log, hsession⟩ := ih
    rw [run_concat]
    exact hsession.step d

/-- Without symbols the index that is drawn is `0`. -/
theorem symbolIndex_eq_zero (d : Draws config) (h : config.symbols = []) : d.symbolIndex = 0 := by
  have hle := d.symbolIndex_le
  rw [h] at hle
  exact Nat.le_zero.mp hle

theorem symbolIndex_lt (d : Draws config) (h : config.symbols ≠ []) :
    d.symbolIndex < config.symbols.length := by
  have hle := d.symbolIndex_le
  rw [if_neg (by simpa using h)] at hle
  have hpos := List.length_pos_of_ne_nil h
  omega

/-- The directory has a message under the locate of every symbol. -/
theorem directory_mem_opening {i : ℕ} (h : i < config.symbols.length) :
    (directoryMessage config.symbols[i], UInt16.ofNat (i + 1)) ∈ opening config := by
  rw [opening, List.mem_cons, List.mem_mapIdx]
  exact Or.inr ⟨i, h, rfl⟩

end Generator

theorem timestamp_stamped (log : List Entry) (h : 1000 * log.length < 2 ^ 48) {k : ℕ}
    (hk : k < (stamped log).length) :
    (stamped log)[k].header.timestamp.toNat = 1000 * (k + 1) := by
  have hlen : (stamped log).length = log.length := List.length_mapIdx
  simp only [stamped, List.getElem_mapIdx]
  rw [SynthMessage.message, toNat_timestamp, UInt64.toNat_ofNat_of_lt' (show _ < 2 ^ 64 by omega),
    Nat.mod_eq_of_lt (by omega)]

/-- Time goes on from message to message, as long as the field can hold it. -/
theorem pairwise_timestamp (log : List Entry) (h : 1000 * log.length < 2 ^ 48) :
    (stamped log).Pairwise fun m m' => m.header.timestamp < m'.header.timestamp := by
  rw [List.pairwise_iff_getElem]
  intro i j hi hj hij
  rw [UInt64.lt_iff_toNat_lt, timestamp_stamped log h hi, timestamp_stamped log h hj]
  omega

open Generator in
/-- **Every session has this shape**, after any draws.  What has been written is the opening,
as far as the run has come, the order flow and the end event, numbered and timed by place.
The order flow has neither system events nor directory messages, goes out under locates that
the directory announces, or under locate 1 when there are no symbols, adds no more orders than
are asked for, and all of them when it ends.  New references and match numbers are handed out
one after the other, and time goes on from message to message. -/
theorem session_shape (config : SynthConfig) (draws : List (Draws config)) :
    ∃ flow log, (run config draws).messages = stamped log ∧
      Stage config (run config draws).phase flow log ∧
      (∀ x ∈ flow, x.1.isFlow = true ∧ (config.symbols = [] → x.2 = 1) ∧
        (config.symbols ≠ [] →
          ∃ symbol ∈ config.symbols, (directoryMessage symbol, x.2) ∈ opening config)) ∧
      (flow.filter fun x => x.1.isAdd).length = (run config draws).ordersAdded.toNat ∧
      (run config draws).ordersAdded ≤ config.numOrders ∧
      ((run config draws).phase = .ending ∨ (run config draws).phase = .done →
        (run config draws).ordersAdded = config.numOrders) ∧
      (∃ n, flow.filterMap (fun x => x.1.newRef) = numbered n) ∧
      (∃ n, flow.filterMap (fun x => x.1.matchNumber) = numbered n) ∧
      (1000 * log.length < 2 ^ 48 → (run config draws).messages.Pairwise fun m m' =>
        m.header.timestamp < m'.header.timestamp) := by
  obtain ⟨flow, log, hsession⟩ := run_session config draws
  have hmessages : (run config draws).messages = stamped log :=
    hsession.written.decodedMessages_eq
  obtain ⟨n, hrefs, -⟩ := hsession.flowOf.refs
  obtain ⟨k, hmatch, -⟩ := hsession.flowOf.matchNumbers
  refine ⟨flow, log, hmessages, hsession.stage, ?_, hsession.flowOf.adds, hsession.flowOf.adds_le,
    hsession.complete, ⟨n, hrefs⟩, ⟨k, hmatch⟩, ?_⟩
  · intro x hx
    obtain ⟨d, hlocate⟩ := hsession.flowOf.drawn x hx
    refine ⟨hsession.flowOf.isFlow x hx, fun hnone => ?_, fun hne => ?_⟩
    · rw [hlocate, symbolIndex_eq_zero d hnone]
      rfl
    · have hi := symbolIndex_lt d hne
      rw [hlocate]
      exact ⟨config.symbols[d.symbolIndex], List.getElem_mem hi, directory_mem_opening hi⟩
  · intro hlong
    rw [hmessages]
    exact pairwise_timestamp log hlong

end Liquibook
