import Liquibook.Book.View
import Liquibook.Itch.Apply
import Liquibook.Itch.SelfConsistent
import Mathlib.Tactic.IntervalCases

/-!
# A book accepts the synthetic stream

The messages of the generator are fed to an empty book.  The call for every message is
accepted, and the orders in the book are those that the generator has in its account.  So
three accounts of one stream stay in step: that of the generator, that of a reader, and
that of a book.

When the 64-bit counter of the references has come around, the next reference is the
first one again.  That takes more than `2 ^ 64` messages, but trade reports can be drawn
forever.

## Main definitions

* `AcceptedBy` — a book that has been fed what comes before accepts a message.
* `Replay` — a book is in step with the generator.
* `Written` — the messages are in the bytes.

## Main results

* `Replay.flow` — **a message keeps a book in step.**
* `generated_stream_accepted` — **the stream is self-consistent, and a book accepts it.**
* `freshRefs_iff`, `references_repeat` — the references are fresh exactly as long as there
  are any left.
-/

namespace Liquibook

open OrderBook

/-- The call that a book makes for the message returns true. -/
def AcceptedBy (b₀ : OrderBook) (pre : List DecodedMessage) (m : DecodedMessage) : Prop :=
  ∃ b, b₀.applyAll pre = some b ∧ ∀ op, m.operation = some (some op) → (b.step op).1 = true

/-- A live order of the generator, as it rests in a book. -/
def restingOf (e : OrderRef × LiveOrder) : Resting where
  orderRef := e.1
  price := e.2.price
  shares := e.2.remainingShares
  isBuy := e.2.side == 66
  traderId := 0

/-! ### The account of a book -/

/-- The call that a book makes for a message of the generator. -/
def SynthMessage.op : SynthMessage → Option Op
  | systemEvent .. => none
  | stockDirectory .. => none
  | addOrder ref side shares _ price => some (.add ref price shares (side == 66) 0)
  | addOrderMPID ref side shares _ price _ => some (.add ref price shares (side == 66) 0)
  | orderExecuted ref shares _ => some (.execute ref shares)
  | orderCancel ref shares => some (.cancel ref shares)
  | orderDelete ref => some (.delete ref)
  | orderReplace ref newRef shares price => some (.replace ref newRef shares price)
  | trade .. => none

theorem SynthMessage.operation_message (m : SynthMessage) (locate : StockLocate)
    (tracking : TrackingNumber) (ts : Timestamp) :
    (m.message locate tracking ts).operation = some m.op := by
  cases m <;> rfl

section Ledger

variable {l : Ledger} {live live' : LiveOrders} {ref next next' : OrderRef} {order : LiveOrder}
  {shares : Shares} {m : SynthMessage}

theorem find_of_live (hwf : l.WF) (horders : l.orders = live.map restingOf)
    (hmem : (ref, order) ∈ live) : l.find ref = some (restingOf (ref, order)) := by
  refine hwf.find_iff.mpr ⟨?_, rfl⟩
  rw [horders]
  exact List.mem_map_of_mem hmem

theorem find_of_not_live (horders : l.orders = live.map restingOf)
    (h : ref ∉ live.map Prod.fst) : l.find ref = none := by
  refine Ledger.find_eq_none_iff.mpr fun r hr href => ?_
  rw [horders] at hr
  obtain ⟨e, he, rfl⟩ := List.mem_map.mp hr
  exact h (List.mem_map.mpr ⟨e, he, href⟩)

theorem map_erase_restingOf : (live.erase ref).map restingOf =
    (live.map restingOf).filter fun x => decide (x.orderRef ≠ ref) := by
  rw [List.filter_map]
  rfl

theorem add_of_not_live (horders : l.orders = live.map restingOf)
    (hpos : order.remainingShares ≠ 0) (hnew : ref ∉ live.map Prod.fst)
    (hcap : (live.put ref order).length ≤ l.capacity) :
    (l.add (restingOf (ref, order))).1 = true ∧
      (l.add (restingOf (ref, order))).2.orders = (live.put ref order).map restingOf := by
  rw [LiveOrders.put_of_not_mem hnew] at hcap ⊢
  have hlen : l.orders.length = live.length := by rw [horders, List.length_map]
  have hroom : ¬ ((restingOf (ref, order)).shares = 0 ∨
      (l.find (restingOf (ref, order)).orderRef).isSome = true ∨ l.orders.length = l.capacity) := by
    rintro (h | h | h)
    · exact hpos h
    · rw [show (restingOf (ref, order)).orderRef = ref from rfl, find_of_not_live horders hnew] at h
      cases h
    · rw [List.length_append, List.length_singleton] at hcap
      omega
  rw [Ledger.add, if_neg hroom]
  refine ⟨rfl, ?_⟩
  rw [List.map_append, ← horders]
  rfl

theorem reduce_of_live (hwf : l.WF) (horders : l.orders = live.map restingOf)
    (hnd : (live.map Prod.fst).Nodup) (hmem : (ref, order) ∈ live) (hpos : shares ≠ 0)
    (hle : shares ≤ order.remainingShares) :
    (l.reduce ref shares).1 = true ∧
      (l.reduce ref shares).2.orders = (live.reduce ref order shares).map restingOf := by
  have hall : shares = order.remainingShares ↔ order.remainingShares - shares = 0 := by
    have hsub := UInt32.toNat_sub_of_le _ _ hle
    have hnat := UInt32.le_iff_toNat_le.mp hle
    rw [← UInt32.toNat_inj, ← UInt32.toNat_inj, hsub, UInt32.toNat_zero]
    omega
  have hok : ¬ (shares = 0 ∨ shares > (restingOf (ref, order)).shares) := by
    rintro (h | h)
    · exact hpos h
    · exact UInt32.not_lt.mpr hle h
  rw [Ledger.reduce, find_of_live hwf horders hmem]
  dsimp only
  rw [if_neg hok]
  unfold LiveOrders.reduce
  by_cases h : shares = order.remainingShares
  · rw [if_pos (show shares = (restingOf (ref, order)).shares from h), if_pos (hall.mp h)]
    refine ⟨rfl, ?_⟩
    rw [Ledger.remove_orders, map_erase_restingOf, ← horders]
    rfl
  · rw [if_neg (show ¬ shares = (restingOf (ref, order)).shares from h),
      if_neg fun e => h (hall.mpr e)]
    refine ⟨rfl, ?_⟩
    rw [Ledger.setShares, horders, List.map_map, List.map_map]
    refine List.map_congr_left fun e he => ?_
    simp only [Function.comp_apply]
    by_cases href : e.1 = ref
    · obtain rfl := LiveOrders.eq_of_ref hnd he hmem href
      simp [restingOf]
    · simp [restingOf, href]

theorem delete_of_live (hwf : l.WF) (horders : l.orders = live.map restingOf)
    (hmem : (ref, order) ∈ live) :
    (l.delete ref).1 = true ∧ (l.delete ref).2.orders = (live.erase ref).map restingOf := by
  rw [Ledger.delete, find_of_live hwf horders hmem]
  refine ⟨rfl, ?_⟩
  rw [Ledger.remove_orders, map_erase_restingOf, ← horders]
  rfl

theorem replace_of_live {price : Price4} (hwf : l.WF) (horders : l.orders = live.map restingOf)
    (hmem : (ref, order) ∈ live) (hpos : shares ≠ 0) (hnew : next ∉ live.map Prod.fst) :
    (l.replace ref next shares price).1 = true ∧
      (l.replace ref next shares price).2.orders =
        ((live.erase ref).put next
          { order with remainingShares := shares, price := price }).map restingOf := by
  have hok : ¬ (shares = 0 ∨ ref ≠ next ∧ (l.find next).isSome = true) := by
    rw [find_of_not_live horders hnew]
    rintro (h | ⟨-, h⟩)
    · exact hpos h
    · cases h
  rw [Ledger.replace, find_of_live hwf horders hmem]
  dsimp only
  rw [if_neg hok, LiveOrders.put_of_not_mem (LiveOrders.not_mem_erase hnew _), List.map_append]
  refine ⟨rfl, ?_⟩
  change (l.remove _).orders ++ _ = _
  rw [Ledger.remove_orders, map_erase_restingOf, ← horders]
  rfl

/-- **A ledger accepts the call** for a message, and is left with the orders that the
generator is left with. -/
theorem Flow.ledger_step (h : Flow next live m next' live') (hwf : l.WF)
    (horders : l.orders = live.map restingOf) (hnd : (live.map Prod.fst).Nodup)
    (hfresh : m.payload.creates = some next → next ∉ live.map Prod.fst)
    (hcap : live'.length ≤ l.capacity) :
    m.op = none ∧ live' = live ∨
      ∃ op, m.op = some op ∧ (l.step op).1 = true ∧
        (l.step op).2.orders = live'.map restingOf := by
  cases h with
  | systemEvent => exact Or.inl ⟨rfl, rfl⟩
  | stockDirectory => exact Or.inl ⟨rfl, rfl⟩
  | addOrder order stock hpos =>
    exact Or.inr ⟨_, rfl, add_of_not_live horders hpos (hfresh rfl) hcap⟩
  | addOrderMPID order stock attribution hpos =>
    exact Or.inr ⟨_, rfl, add_of_not_live horders hpos (hfresh rfl) hcap⟩
  | orderExecuted matchNumber hmem hpos hle =>
    exact Or.inr ⟨_, rfl, reduce_of_live hwf horders hnd hmem hpos hle⟩
  | orderCancel hmem hpos hle =>
    exact Or.inr ⟨_, rfl, reduce_of_live hwf horders hnd hmem hpos hle⟩
  | orderDelete hmem => exact Or.inr ⟨_, rfl, delete_of_live hwf horders hmem⟩
  | orderReplace price hmem hpos =>
    exact Or.inr ⟨_, rfl, replace_of_live hwf horders hmem hpos (hfresh rfl)⟩
  | trade => exact Or.inl ⟨rfl, rfl⟩

end Ledger

/-- **The account of a book is that of the generator**, and it has accepted everything. -/
structure Replay (b₀ : OrderBook) (capacity : ℕ) (live : LiveOrders) (msgs : List DecodedMessage) :
    Prop where
  accepted : Throughout (AcceptedBy b₀) msgs
  book : ∃ b l, b₀.applyAll msgs = some b ∧ Refines b l ∧ l.capacity = capacity ∧
    l.orders = live.map restingOf

theorem replay_nil (referencePrice : Price4) (halfWidth capacity : ℕ) :
    Replay (OrderBook.new referencePrice halfWidth capacity) capacity [] [] where
  accepted := Throughout.nil
  book := ⟨_, Ledger.new capacity, rfl, refines_new referencePrice halfWidth capacity, rfl, rfl⟩

section Replay

variable {b₀ : OrderBook} {capacity : ℕ} {next next' : OrderRef} {live live' : LiveOrders}
  {m : SynthMessage} {locate : StockLocate} {tracking : TrackingNumber} {ts : Timestamp}
  {msgs : List DecodedMessage}

/-- **A message keeps the accounts of the generator and of a book in step.** -/
theorem Replay.flow (h : Replay b₀ capacity live msgs) (hnd : (live.map Prod.fst).Nodup)
    (hflow : Flow next live m next' live')
    (hfresh : m.payload.creates = some next → next ∉ live.map Prod.fst)
    (hcap : live'.length ≤ capacity) :
    Replay b₀ capacity live' (msgs ++ [m.message locate tracking ts]) := by
  obtain ⟨b, l, hb, href, hcapacity, horders⟩ := h.book
  have hop := m.operation_message locate tracking ts
  obtain ⟨hnone, rfl⟩ | ⟨op, hsome, haccept, horders'⟩ :=
    hflow.ledger_step href.wf horders hnd hfresh (hcapacity ▸ hcap)
  · rw [hnone] at hop
    have happly : b.apply (m.message locate tracking ts) = some b := by
      rw [OrderBook.apply, hop]
      rfl
    refine ⟨h.accepted.concat ⟨b, hb, fun op e => ?_⟩,
      b, l, applyAll_concat hb happly, href, hcapacity, horders⟩
    rw [hop] at e
    cases e
  · rw [hsome] at hop
    have hstep := href.step op
    have happly : b.apply (m.message locate tracking ts) = some (b.step op).2 := by
      rw [OrderBook.apply, hop]
      rfl
    refine ⟨h.accepted.concat ⟨b, hb, fun op' e => ?_⟩,
      (b.step op).2, (l.step op).2, applyAll_concat hb happly, hstep.refines, ?_, horders'⟩
    · rw [hop] at e
      cases e
      rw [hstep.result]
      exact haccept
    · rw [(Ledger.change_step href.wf op).capacity, hcapacity]

end Replay

/-! ### The bytes -/

/-- The messages have been written, each in its frame. -/
structure Written (out : List Byte) (msgs : List DecodedMessage) : Prop where
  out_eq : out = (msgs.map wireBytes).foldl writeFramed []
  wellFormed : ∀ m ∈ msgs, m.WellFormed

namespace Written

variable {out : List Byte} {msgs : List DecodedMessage}

theorem concat (h : Written out msgs) (m : SynthMessage) (locate : StockLocate)
    (tracking : TrackingNumber) (ts : Timestamp) :
    Written (writeFramed out (m.bytes locate tracking ts))
      (msgs ++ [m.message locate tracking ts]) where
  out_eq := by
    rw [List.map_append, List.foldl_append, ← h.out_eq, SynthMessage.bytes_eq]
    rfl
  wellFormed := by
    intro x hx
    rcases List.mem_append.mp hx with hx | hx
    · exact h.wellFormed x hx
    · rw [List.mem_singleton.mp hx]
      exact m.message_wellFormed locate tracking ts

/-- The frames are those of the messages, and nothing is left over. -/
theorem frames_eq (h : Written out msgs) : frames out = msgs.map wireBytes := by
  have hlen : ∀ x ∈ msgs.map wireBytes, x.length < 65536 := by
    intro x hx
    obtain ⟨m, hm, rfl⟩ := List.mem_map.mp hx
    rw [(h.wellFormed m hm).length_wireBytes]
    cases m.header.type <;> decide
  have hframes := frames_framed (Or.inl (by decide : ([] : List Byte).length < 2)) hlen
  rw [h.out_eq, foldl_writeFramed, List.nil_append]
  rwa [List.append_nil] at hframes

theorem decodeMessage_eq (h : Written out msgs) {m : DecodedMessage} (hm : m ∈ msgs) :
    decodeMessage (wireBytes m) = some m := by
  have := decodeMessage_wireBytes (h.wellFormed m hm) []
  rwa [List.append_nil] at this

theorem decodedMessages_eq (h : Written out msgs) : decodedMessages out = msgs := by
  rw [decodedMessages, h.frames_eq, List.filterMap_map]
  have hsome : msgs.filterMap (decodeMessage ∘ wireBytes) = msgs.filterMap some :=
    List.filterMap_congr fun m hm => h.decodeMessage_eq hm
  rw [hsome, List.filterMap_some]

end Written

/-! ### Whole streams -/

namespace Generator

variable {config : SynthConfig}

/-- The messages that have been written. -/
def messages (g : Generator) : List DecodedMessage := decodedMessages g.out

/-- The capacity is enough for the orders that are live at one time. -/
def Suffices (capacity : ℕ) (draws : List (Draws config)) : Prop :=
  ∀ ds, ds <+: draws → (run config ds).liveOrders.length ≤ capacity

theorem run_concat (ds : List (Draws config)) (d : Draws config) :
    run config (ds ++ [d]) = (run config ds).step d := List.foldl_append

/-- What holds of every stream, however long. -/
structure Progress (g : Generator) (msgs : List DecodedMessage) : Prop where
  written : Written g.out msgs
  counted : Counted g.nextOrderRef msgs
  positive : g.liveOrders.Positive

theorem progress_nil : Progress {} [] where
  written := ⟨rfl, by simp⟩
  counted := counted_nil
  positive := by simp [LiveOrders.Positive]

/-- A message that is written is one more of them. -/
theorem Progress.message {g g' : Generator} {msgs : List DecodedMessage} {m : SynthMessage}
    {locate : StockLocate} {tracking : TrackingNumber} {ts : Timestamp} (h : Progress g msgs)
    (hout : g'.out = writeFramed g.out (m.bytes locate tracking ts))
    (hflow : Flow g.nextOrderRef g.liveOrders m g'.nextOrderRef g'.liveOrders) :
    Progress g' (msgs ++ [m.message locate tracking ts]) := by
  refine ⟨?_, h.counted.flow hflow, hflow.positive h.positive⟩
  rw [hout]
  exact h.written.concat m locate tracking ts

theorem Progress.unchanged {g g' : Generator} {msgs : List DecodedMessage} (h : Progress g msgs)
    (hout : g'.out = g.out) (hnext : g'.nextOrderRef = g.nextOrderRef)
    (hlive : g'.liveOrders = g.liveOrders) : Progress g' msgs := by
  refine ⟨?_, ?_, ?_⟩
  · rw [hout]
    exact h.written
  · rw [hnext]
    exact h.counted
  · rw [hlive]
    exact h.positive

theorem Progress.step {g : Generator} {msgs : List DecodedMessage} (h : Progress g msgs)
    (d : Draws config) :
    Progress (g.step d) msgs ∧ (g.step d).liveOrders = g.liveOrders ∨
      ∃ m locate tracking ts,
        Progress (g.step d) (msgs ++ [SynthMessage.message m locate tracking ts]) ∧
        Flow g.nextOrderRef g.liveOrders m (g.step d).nextOrderRef (g.step d).liveOrders := by
  obtain ⟨hout, hnext, hlive⟩ | ⟨m, locate, tracking, ts, hout, hflow⟩ := g.step_cases d h.positive
  · exact Or.inl ⟨h.unchanged hout hnext hlive, hlive⟩
  · exact Or.inr ⟨m, locate, tracking, ts, h.message hout hflow, hflow⟩

/-- **The accounts stay in step along every run**, until the references run out. -/
theorem run_inStep (config : SynthConfig) (draws : List (Draws config)) :
    ∃ msgs, Progress (run config draws) msgs ∧ msgs.length ≤ draws.length ∧
      ((createdRefs msgs).length ≤ 2 ^ 64 → Account (run config draws).liveOrders msgs ∧
        ∀ referencePrice halfWidth capacity, Suffices capacity draws →
          Replay (OrderBook.new referencePrice halfWidth capacity) capacity
            (run config draws).liveOrders msgs) := by
  induction draws using List.reverseRecOn with
  | nil =>
    exact ⟨[], progress_nil, le_rfl, fun _ => ⟨account_nil, fun p w c _ => replay_nil p w c⟩⟩
  | append_singleton ds d ih =>
    obtain ⟨msgs, hprogress, hlen, hinv⟩ := ih
    have hbefore : ∀ capacity, Suffices capacity (ds ++ [d]) → Suffices capacity ds :=
      fun capacity h ds' hds' => h ds' (hds'.trans (List.prefix_append _ _))
    rw [run_concat, List.length_append, List.length_singleton]
    obtain ⟨hprogress', hlive⟩ | ⟨m, locate, tracking, ts, hprogress', hflow⟩ := hprogress.step d
    · refine ⟨msgs, hprogress', by omega, fun hrefs => ?_⟩
      obtain ⟨haccount, hreplay⟩ := hinv hrefs
      rw [hlive]
      exact ⟨haccount, fun p w c hc => hreplay p w c (hbefore c hc)⟩
    · refine ⟨_, hprogress', by simpa using hlen, fun hrefs => ?_⟩
      rw [createdRefs_concat, List.length_append] at hrefs
      obtain ⟨haccount, hreplay⟩ := hinv (by omega)
      have hfresh : m.payload.creates = some (run config ds).nextOrderRef →
          (run config ds).nextOrderRef ∉ createdRefs msgs := by
        intro hcreates
        apply hprogress.counted.not_mem
        have hpayload : (m.message locate tracking ts).payload = m.payload := rfl
        rw [hpayload, hcreates] at hrefs
        exact hrefs
      refine ⟨haccount.flow hprogress.positive hflow hfresh, fun p w c hc => ?_⟩
      refine (hreplay p w c (hbefore c hc)).flow haccount.nodup hflow
        (fun e hmem => hfresh e (haccount.live_created _ hmem)) ?_
      rw [← run_concat]
      exact hc _ List.prefix_rfl

/-- A step hands out at most one reference. -/
theorem length_createdRefs_le (config : SynthConfig) (draws : List (Draws config)) :
    (createdRefs (run config draws).messages).length ≤ draws.length := by
  obtain ⟨msgs, hprogress, hlen, -⟩ := run_inStep config draws
  rw [messages, hprogress.written.decodedMessages_eq]
  exact (List.length_filterMap_le _ _).trans hlen

end Generator

open Generator in
/-- **The synthetic stream is self-consistent, and a book accepts it.**  After any draws, as
long as no more than `2 ^ 64` references have been handed out: every frame decodes, every
reference that is handed out is fresh, every message about an order names one that is
outstanding, with the shares it takes, and an empty book that is large enough accepts every
call and is left with the live orders of the generator. -/
theorem generated_stream_accepted (config : SynthConfig) (draws : List (Draws config))
    (hrefs : (createdRefs (run config draws).messages).length ≤ 2 ^ 64) :
    (∀ frame ∈ frames (run config draws).out, (decodeMessage frame).isSome = true) ∧
    Throughout FreshRefs (run config draws).messages ∧
    Throughout NamesOutstanding (run config draws).messages ∧
    ∀ referencePrice halfWidth capacity, Suffices capacity draws →
      Throughout (AcceptedBy (OrderBook.new referencePrice halfWidth capacity))
        (run config draws).messages ∧
      ∃ b, (OrderBook.new referencePrice halfWidth capacity).applyAll
          (run config draws).messages = some b ∧
        b.liveOrders.Perm ((run config draws).liveOrders.map restingOf) := by
  obtain ⟨msgs, hprogress, -, hinv⟩ := run_inStep config draws
  have hmsgs : (run config draws).messages = msgs := hprogress.written.decodedMessages_eq
  rw [hmsgs] at hrefs ⊢
  obtain ⟨haccount, hreplay⟩ := hinv hrefs
  refine ⟨fun frame hframe => ?_, haccount.fresh, haccount.names, fun p w c hc => ?_⟩
  · rw [hprogress.written.frames_eq] at hframe
    obtain ⟨m, hm, rfl⟩ := List.mem_map.mp hframe
    rw [hprogress.written.decodeMessage_eq hm]
    rfl
  · obtain ⟨haccepted, b, l, hb, href, -, horders⟩ := hreplay p w c hc
    exact ⟨haccepted, b, hb, horders ▸ href.liveOrders_perm⟩

namespace Generator

/-- Two orders, without symbols. -/
def twoOrders : SynthConfig := { numOrders := 2, symbols := [] }

/-- Draws that are all the same but for the action. -/
def drawing (action : ℕ) (h : action ≤ 99) : Draws twoOrders where
  symbolIndex := 0
  symbolIndex_le := Nat.zero_le _
  action := action
  action_le := h
  side := 0
  side_le := Nat.zero_le _
  shares := 100
  shares_ge := by decide
  shares_le := by decide
  jitter := 0
  jitter_ge := by decide
  jitter_le := by decide
  mpid := 1
  mpid_le := by decide
  rng := 0

/-- A start event, an order, and then trade reports. -/
def trading (n : ℕ) : List (Draws twoOrders) :=
  List.replicate 3 (drawing 0 (by decide)) ++ List.replicate n (drawing 99 (by decide))

end Generator

namespace Generator

/-- The same draws, with fewer shares. -/
def drawingTen (action : ℕ) (h : action ≤ 99) : Draws twoOrders :=
  { drawing action h with shares := 10, shares_ge := by decide, shares_le := by decide }

/-- A whole session: an order is added, executed and cancelled in part, and replaced, a trade is
reported, the new order is deleted, and a second one is added. -/
def wholeSession : List (Draws twoOrders) :=
  List.replicate 3 (drawing 0 (by decide)) ++
    [drawingTen 55 (by decide), drawingTen 70 (by decide), drawing 90 (by decide),
      drawing 97 (by decide), drawing 80 (by decide), drawing 0 (by decide)] ++
    List.replicate 2 (drawing 0 (by decide))

/-- One order is live at a time. -/
theorem suffices_wholeSession : Suffices 1 wholeSession := by
  intro ds hds
  have htake := List.prefix_iff_eq_take.mp hds
  have hle : ds.length ≤ 11 := hds.length_le
  rw [htake]
  interval_cases ds.length <;> decide +kernel

end Generator

open Generator in
/-- A book for one order accepts the whole session, with its execution, cancel, replacement and
deletion, and is left with the second order. -/
theorem whole_session_accepted :
    Throughout FreshRefs (run twoOrders wholeSession).messages ∧
      Throughout NamesOutstanding (run twoOrders wholeSession).messages ∧
      Throughout (AcceptedBy (OrderBook.new 1500000 2 1)) (run twoOrders wholeSession).messages ∧
      ∃ b, (OrderBook.new 1500000 2 1).applyAll (run twoOrders wholeSession).messages = some b ∧
        b.liveOrders.Perm [⟨4, 1500000, 100, true, 0⟩] := by
  have hrefs := length_createdRefs_le twoOrders wholeSession
  have hlen : wholeSession.length ≤ 2 ^ 64 := by decide
  obtain ⟨-, hfresh, hnames, hbook⟩ :=
    generated_stream_accepted twoOrders wholeSession (hrefs.trans hlen)
  exact ⟨hfresh, hnames, hbook 1500000 2 1 suffices_wholeSession⟩

/-! ### When the references run out -/

/-- Fresh references are distinct. -/
theorem nodup_of_fresh {msgs : List DecodedMessage} (h : Throughout FreshRefs msgs) :
    (createdRefs msgs).Nodup := by
  have hmentions : ∀ (p : Payload) ref, p.creates = some ref → ref ∈ p.mentions := by
    intro p ref e
    cases p with
    | addOrder p => cases e; exact List.mem_cons_self
    | orderReplace p => cases e; exact List.mem_cons_of_mem _ List.mem_cons_self
    | trade p => cases e; exact List.mem_cons_self
    | _ => cases e
  induction msgs using List.reverseRecOn with
  | nil => exact List.nodup_nil
  | append_singleton msgs m ih =>
    have hbefore : Throughout FreshRefs msgs := fun pre x post e =>
      h pre x (post ++ [m]) (by rw [e, List.append_assoc, List.cons_append])
    rw [createdRefs_concat, List.nodup_append]
    refine ⟨ih hbefore, ?_, ?_⟩
    · cases m.payload.creates <;> simp
    · intro x hx y hy
      rw [Option.mem_toList] at hy
      rintro rfl
      obtain ⟨m', hm', hcreates⟩ := List.mem_filterMap.mp hx
      exact h msgs m [] rfl x hy (List.mem_flatMap.mpr ⟨m', hm', hmentions _ _ hcreates⟩)

namespace Generator

/-- A trade report takes a reference and leaves the orders alone. -/
theorem step_trade {g : Generator} {d : Draws twoOrders} (hphase : g.phase = .orderFlow)
    (hadded : g.ordersAdded = 1) (hlive : g.liveOrders.length = 1) (haction : d.action = 99) :
    (g.step d).phase = .orderFlow ∧ (g.step d).ordersAdded = 1 ∧
      (g.step d).liveOrders = g.liveOrders ∧ (g.step d).nextOrderRef = g.nextOrderRef + 1 := by
  have hmore : g.ordersAdded < twoOrders.numOrders := by
    rw [hadded]
    decide
  have hne : g.liveOrders.isEmpty = false := by
    cases hl : g.liveOrders with
    | nil => rw [hl] at hlive; cases hlive
    | cons e es => rfl
  have hstep : g.step d = g.useOrder d 99
      (g.liveOrders.getD (d.rng.toNat % g.liveOrders.length) default).1
      (g.liveOrders.getD (d.rng.toNat % g.liveOrders.length) default).2 := by
    simp [step, iterate, hphase, hmore, hne, haction]
  rw [hstep]
  exact ⟨hphase, hadded, rfl, rfl⟩

/-- Each trade report hands out one more reference. -/
theorem trading_createdRefs (n : ℕ) :
    ∃ msgs, Progress (run twoOrders (trading n)) msgs ∧ (createdRefs msgs).length = n + 1 ∧
      (run twoOrders (trading n)).phase = .orderFlow ∧
      (run twoOrders (trading n)).ordersAdded = 1 ∧
      (run twoOrders (trading n)).liveOrders.length = 1 := by
  have hsucc : ∀ x : UInt64, x + 1 ≠ x := by
    intro x h
    have hnat := congrArg UInt64.toNat h
    have hlt := x.toNat_lt
    rw [UInt64.toNat_add, UInt64.toNat_one] at hnat
    omega
  induction n with
  | zero =>
    obtain ⟨msgs, hprogress, hlen, -⟩ := run_inStep twoOrders (trading 0)
    refine ⟨msgs, hprogress, ?_, rfl, rfl, rfl⟩
    have htwo : (run twoOrders (trading 0)).nextOrderRef = 2 := rfl
    have hle : (createdRefs msgs).length ≤ 3 := (List.length_filterMap_le _ _).trans hlen
    have hnat := congrArg UInt64.toNat (htwo.symm.trans hprogress.counted.next_eq)
    rw [UInt64.toNat_ofNat_of_lt' (show _ < 2 ^ 64 by omega)] at hnat
    change 2 = (createdRefs msgs).length + 1 at hnat
    omega
  | succ n ih =>
    obtain ⟨msgs, hprogress, hlen, hphase, hadded, hlive⟩ := ih
    have hrun : run twoOrders (trading (n + 1)) =
        (run twoOrders (trading n)).step (drawing 99 (by decide)) := by
      rw [← run_concat]
      change _ = run twoOrders (_ ++ _ ++ _)
      rw [List.append_assoc, ← List.replicate_succ']
      rfl
    obtain ⟨hphase', hadded', hlive', hnext⟩ :=
      step_trade (d := drawing 99 (by decide)) hphase hadded hlive rfl
    rw [hrun]
    obtain ⟨hprogress', -⟩ | ⟨m, locate, tracking, ts, hprogress', hflow⟩ :=
      hprogress.step (drawing 99 (by decide))
    · have hsame := hprogress'.counted.next_eq
      rw [← hprogress.counted.next_eq, hnext] at hsame
      exact absurd hsame (hsucc _)
    · obtain ⟨-, hsame⟩ | ⟨hcreates, -⟩ := hflow.creates_cases
      · rw [hnext] at hsame
        exact absurd hsame (hsucc _)
      · have hpayload : (m.message locate tracking ts).payload = m.payload := rfl
        refine ⟨_, hprogress', ?_, hphase', hadded', by rw [hlive', hlive]⟩
        rw [createdRefs_concat, List.length_append, hlen, hpayload, hcreates]
        rfl

end Generator

/-- The counter has not come around if the references are distinct. -/
theorem Counted.length_le {next : OrderRef} {msgs : List DecodedMessage} (h : Counted next msgs)
    (hnd : (createdRefs msgs).Nodup) : (createdRefs msgs).length ≤ 2 ^ 64 := by
  by_contra hgt
  rw [h.created_eq] at hnd
  have hinj := List.inj_on_of_nodup_map hnd
    (List.mem_range.mpr (show 0 < (createdRefs msgs).length by omega))
    (List.mem_range.mpr (show 2 ^ 64 < (createdRefs msgs).length by omega))
  have hsame : UInt64.ofNat (0 + 1) = UInt64.ofNat (2 ^ 64 + 1) := by
    rw [← UInt64.toNat_inj, UInt64.toNat_ofNat', UInt64.toNat_ofNat']
    norm_num
  exact absurd (hinj hsame) (by norm_num)

open Generator in
/-- **The references are fresh exactly as long as there are any left.** -/
theorem freshRefs_iff (config : SynthConfig) (draws : List (Draws config)) :
    Throughout FreshRefs (run config draws).messages ↔
      (createdRefs (run config draws).messages).length ≤ 2 ^ 64 := by
  obtain ⟨msgs, hprogress, -, hinv⟩ := run_inStep config draws
  rw [messages, hprogress.written.decodedMessages_eq]
  constructor
  · intro h
    exact hprogress.counted.length_le (nodup_of_fresh h)
  · intro hrefs
    exact (hinv hrefs).1.fresh

open Generator in
/-- **The references repeat** in a stream with one order and `2 ^ 64` trade reports. -/
theorem references_repeat :
    ¬ Throughout FreshRefs (run twoOrders (trading (2 ^ 64))).messages := by
  obtain ⟨msgs, hprogress, hlen, -⟩ := trading_createdRefs (2 ^ 64)
  rw [freshRefs_iff, messages, hprogress.written.decodedMessages_eq, hlen]
  omega

end Liquibook
