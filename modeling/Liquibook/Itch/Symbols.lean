import Liquibook.Itch.StreamReplay

/-!
# The symbols of the synthetic stream

A router has one book for each symbol and sends a message to the book of its
`stock_locate`.  So a message about an order has to go out under the locate of the Add
Order message that created it, or that created the order it has replaced.

The generator draws the symbol of an iteration before it picks the order.  It keeps the
symbol of every live order in its account, also when the order is replaced, but the header
of the message takes the symbol that was drawn.  The two agree when the drawn symbol
happens to be the one of the order, and only then.

## Main definitions

* `locates` — the account of a reader who notes the locate of every order.
* `KeepsSymbol` — a message about an order has the locate of the order.
* `routed`, `ReachesItsBook` — what a book is sent, and that it has the order there.
* `Generator.DrawsItsSymbol` — the iteration draws the symbol of the order it picks.

## Main results

* `Flow.origin` — **where a live order comes from**: it was there, or comes from the order
  that the message is about, or is added.
* `Labelled.sends`, `Routed.sends` — a step keeps what is known of the locates, and what
  the books hold.
* `symbols_kept_iff` — **messages reach the book of their order exactly as long as the
  drawn symbols are right.**
-/

namespace Liquibook

/-! ### The locates -/

/-- The note a reader makes of the locates: an order that is added has the locate of the
message, and one that takes the place of another has the locate of that one. -/
def noteLocate (known : OrderRef → Option StockLocate) (m : DecodedMessage) :
    OrderRef → Option StockLocate :=
  match m.payload with
  | .addOrder p => Function.update known p.orderReferenceNumber (some m.header.stockLocate)
  | .orderReplace p =>
      Function.update known p.newOrderReferenceNumber (known p.originalOrderReferenceNumber)
  | _ => known

/-- The locate under which an order was added. -/
def locates (msgs : List DecodedMessage) : OrderRef → Option StockLocate :=
  msgs.foldl noteLocate fun _ => none

/-- A message about an order has the locate under which the order was added. -/
def KeepsSymbol (pre : List DecodedMessage) (m : DecodedMessage) : Prop :=
  ∀ ref, m.payload.uses = some ref → locates pre ref = some m.header.stockLocate

/-- The messages that are sent to the book of a symbol. -/
def routed (locate : StockLocate) (msgs : List DecodedMessage) : List DecodedMessage :=
  msgs.filter fun m => m.header.stockLocate = locate

/-- A message about an order has the locate of the order, and the book it is sent to has
the order, with the shares that the message takes. -/
def ReachesItsBook (pre : List DecodedMessage) (m : DecodedMessage) : Prop :=
  KeepsSymbol pre m ∧ NamesOutstanding (routed m.header.stockLocate pre) m

theorem locates_concat (msgs : List DecodedMessage) (m : DecodedMessage) :
    locates (msgs ++ [m]) = noteLocate (locates msgs) m := by
  rw [locates, List.foldl_append]
  rfl

theorem routed_concat_self (msgs : List DecodedMessage) (m : DecodedMessage) :
    routed m.header.stockLocate (msgs ++ [m]) = routed m.header.stockLocate msgs ++ [m] := by
  rw [routed, List.filter_append, List.filter_cons, if_pos (by simp), List.filter_nil]
  rfl

theorem routed_concat_of_ne {locate : StockLocate} {m : DecodedMessage}
    (h : m.header.stockLocate ≠ locate) (msgs : List DecodedMessage) :
    routed locate (msgs ++ [m]) = routed locate msgs := by
  rw [routed, List.filter_append, List.filter_cons, if_neg (by simpa using h), List.filter_nil,
    List.append_nil]
  rfl

/-! ### Where a live order comes from -/

namespace LiveOrders

variable {live : LiveOrders} {ref : OrderRef} {order : LiveOrder} {shares : Shares}
  {e : OrderRef × LiveOrder}

theorem mem_erase : e ∈ live.erase ref ↔ e ∈ live ∧ e.1 ≠ ref := by
  rw [erase, List.mem_filter, decide_eq_true_eq]

theorem mem_put (h : e ∈ live.put ref order) : e ∈ live ∧ e.1 ≠ ref ∨ e = (ref, order) := by
  rcases List.mem_append.mp h with h | h
  · exact Or.inl (mem_erase.mp h)
  · exact Or.inr (List.mem_singleton.mp h)

theorem mem_reduce (h : e ∈ live.reduce ref order shares) :
    e ∈ live ∧ e.1 ≠ ref ∨ order.remainingShares - shares ≠ 0 ∧
      e = (ref, { order with remainingShares := order.remainingShares - shares }) := by
  unfold reduce at h
  split at h
  · exact Or.inl (mem_erase.mp h)
  · next hne =>
    obtain ⟨x, hx, rfl⟩ := List.mem_map.mp h
    by_cases href : x.1 = ref
    · rw [if_pos href]
      exact Or.inr ⟨hne, rfl⟩
    · rw [if_neg href]
      exact Or.inl ⟨hx, href⟩

end LiveOrders

/-- Where an order that is live after a message comes from, and what the two accounts of a
reader say of it. -/
inductive Origin (live : LiveOrders) (m : DecodedMessage) (e : OrderRef × LiveOrder) : Prop
  /-- It was there before. -/
  | kept (hmem : e ∈ live)
      (hfollow : ∀ rs, sharesLeft e ∈ rs → sharesLeft e ∈ m.payload.follow rs)
      (hlocate : ∀ known, noteLocate known m e.1 = known e.1)
  /-- It is what the message has made of the order it is about. -/
  | derived (x : OrderRef × LiveOrder) (hmem : x ∈ live) (huses : m.payload.uses = some x.1)
      (hsymbol : e.2.symbolIndex = x.2.symbolIndex)
      (hfollow : ∀ rs, sharesLeft x ∈ rs → sharesLeft e ∈ m.payload.follow rs)
      (hlocate : ∀ known, noteLocate known m e.1 = known x.1)
  /-- The message has added it. -/
  | added (hadds : m.payload.adds = some e.1)
      (hfollow : ∀ rs, sharesLeft e ∈ m.payload.follow rs)
      (hlocate : ∀ known, noteLocate known m e.1 = some m.header.stockLocate)

section Account

variable {rs : List (OrderRef × ℕ)} {ref : OrderRef} {n : ℕ} {x : OrderRef × ℕ}

theorem mem_takeShares_of_ne (hx : x ∈ rs) (hne : x.1 ≠ ref) (hpos : x.2 ≠ 0) :
    x ∈ takeShares rs ref n := by
  rw [takeShares, List.mem_filter, List.mem_map]
  exact ⟨⟨x, hx, if_neg hne⟩, by simpa using hpos⟩

theorem mem_takeShares_self (hx : x ∈ rs) (href : x.1 = ref) (hpos : x.2 - n ≠ 0) :
    (ref, x.2 - n) ∈ takeShares rs ref n := by
  rw [takeShares, List.mem_filter, List.mem_map]
  exact ⟨⟨x, hx, by rw [if_pos href, href]⟩, by simpa using hpos⟩

theorem mem_withoutRef (hx : x ∈ rs) (hne : x.1 ≠ ref) : x ∈ withoutRef rs ref :=
  List.mem_filter.mpr ⟨hx, by simpa using hne⟩

end Account

section Origin

variable {next next' : OrderRef} {live live' : LiveOrders} {m : SynthMessage}
  {e : OrderRef × LiveOrder}

theorem sharesLeft_ne_zero (hpos : live.Positive) (he : e ∈ live) : (sharesLeft e).2 ≠ 0 :=
  fun h => hpos e he (UInt32.toNat_inj.mp h)

/-- What an execution or a cancel leaves of the orders. -/
theorem Origin.reduce {M : DecodedMessage} {ref : OrderRef} {order : LiveOrder} {shares : Shares}
    (hpos : live.Positive) (hmem : (ref, order) ∈ live) (hle : shares ≤ order.remainingShares)
    (huses : M.payload.uses = some ref)
    (hfollow : ∀ rs, M.payload.follow rs = takeShares rs ref shares.toNat)
    (hlocate : ∀ known, noteLocate known M = known) (he : e ∈ live.reduce ref order shares) :
    Origin live M e := by
  rcases LiveOrders.mem_reduce he with ⟨he, hne⟩ | ⟨hleft, rfl⟩
  · refine .kept he (fun rs hrs => ?_) fun known => by rw [hlocate]
    rw [hfollow]
    exact mem_takeShares_of_ne hrs hne (sharesLeft_ne_zero hpos he)
  · refine .derived (ref, order) hmem huses rfl (fun rs hrs => ?_) fun known => by rw [hlocate]
    have hsub : (order.remainingShares - shares).toNat =
        order.remainingShares.toNat - shares.toNat := UInt32.toNat_sub_of_le _ _ hle
    rw [hfollow]
    change (ref, (order.remainingShares - shares).toNat) ∈ _
    rw [hsub]
    refine mem_takeShares_self hrs rfl fun h => hleft (UInt32.toNat_inj.mp ?_)
    rw [hsub]
    exact h

/-- What an added order leaves of the others. -/
theorem Origin.put {M : DecodedMessage} {p : AddOrderPayload} {order : LiveOrder}
    (hM : M.payload = .addOrder p) (hshares : p.shares = order.remainingShares)
    (he : e ∈ live.put p.orderReferenceNumber order) : Origin live M e := by
  rcases LiveOrders.mem_put he with ⟨he, hne⟩ | rfl
  · refine .kept he (fun rs hrs => ?_) fun known => ?_
    · rw [hM]
      exact List.mem_append_left _ hrs
    · simp only [noteLocate, hM]
      exact Function.update_of_ne hne _ _
  · refine .added (by rw [hM]; rfl) (fun rs => ?_) fun known => ?_
    · rw [hM, sharesLeft, ← hshares]
      exact List.mem_append_right _ List.mem_cons_self
    · simp only [noteLocate, hM]
      exact Function.update_self _ _ _

/-- **Where a live order comes from.** -/
theorem Flow.origin (h : Flow next live m next' live') (hpos : live.Positive) (he : e ∈ live')
    (locate : StockLocate) (tracking : TrackingNumber) (ts : Timestamp) :
    Origin live (m.message locate tracking ts) e := by
  cases h with
  | systemEvent => exact .kept he (fun _ hrs => hrs) fun _ => rfl
  | stockDirectory => exact .kept he (fun _ hrs => hrs) fun _ => rfl
  | addOrder => exact Origin.put rfl rfl he
  | addOrderMPID => exact Origin.put rfl rfl he
  | orderExecuted matchNumber hmem hne hle =>
    exact Origin.reduce hpos hmem hle rfl (fun _ => rfl) (fun _ => rfl) he
  | orderCancel hmem hne hle =>
    exact Origin.reduce hpos hmem hle rfl (fun _ => rfl) (fun _ => rfl) he
  | orderDelete hmem =>
    obtain ⟨he, hne⟩ := LiveOrders.mem_erase.mp he
    exact .kept he (fun rs hrs => mem_withoutRef hrs hne) fun _ => rfl
  | orderReplace price hmem =>
    rcases LiveOrders.mem_put he with ⟨he, hnext⟩ | rfl
    · obtain ⟨he, hne⟩ := LiveOrders.mem_erase.mp he
      refine .kept he (fun rs hrs => ?_) fun known => ?_
      · exact List.mem_append_left _ (mem_withoutRef hrs hne)
      · exact Function.update_of_ne hnext _ _
    · refine .derived _ hmem rfl rfl (fun rs _ => ?_) fun known => ?_
      · exact List.mem_append_right _ List.mem_cons_self
      · exact Function.update_self _ _ _
  | trade => exact .kept he (fun _ hrs => hrs) fun _ => rfl

end Origin

/-! ### What a reader knows of the live orders -/

/-- The reader has noted the symbol of every live order. -/
def Labelled (live : LiveOrders) (msgs : List DecodedMessage) : Prop :=
  ∀ e ∈ live, locates msgs e.1 = some e.2.locate

/-- Every live order is in the book of its symbol. -/
def Routed (live : LiveOrders) (msgs : List DecodedMessage) : Prop :=
  ∀ e ∈ live, sharesLeft e ∈ outstanding (routed e.2.locate msgs)

section Known

variable {config : SynthConfig} {d : Draws config} {g g' : Generator} {m : SynthMessage}
  {locate : StockLocate} {tracking : TrackingNumber} {ts : Timestamp} {msgs : List DecodedMessage}

theorem locate_of_symbolIndex {x y : LiveOrder} (h : x.symbolIndex = y.symbolIndex) :
    x.locate = y.locate := by
  rw [LiveOrder.locate, h, LiveOrder.locate]

theorem Generator.Sends.locate_of_adds (h : g.Sends d g' m locate) {e : OrderRef × LiveOrder}
    (he : e ∈ g'.liveOrders) (hadds : m.payload.adds = some e.1) : e.2.locate = locate := by
  obtain ⟨hsymbol, hlocate⟩ := h.adds_symbol e he hadds
  rw [LiveOrder.locate, hsymbol, hlocate]

/-- **A step keeps the notes right**, whatever it draws. -/
theorem Labelled.sends (h : Labelled g.liveOrders msgs) (hpos : g.liveOrders.Positive)
    (hsends : g.Sends d g' m locate) :
    Labelled g'.liveOrders (msgs ++ [m.message locate tracking ts]) := by
  intro e he
  rw [locates_concat]
  rcases hsends.flow.origin hpos he locate tracking ts with
    ⟨hmem, -, hlocate⟩ | ⟨x, hmem, -, hsymbol, -, hlocate⟩ | ⟨hadds, -, hlocate⟩
  · rw [hlocate, h e hmem]
  · rw [hlocate, h x hmem, locate_of_symbolIndex hsymbol]
  · rw [hlocate, hsends.locate_of_adds he hadds]
    rfl

/-- **A message that keeps its symbol leaves every live order in its book.** -/
theorem Routed.sends (h : Routed g.liveOrders msgs) (hlabel : Labelled g.liveOrders msgs)
    (hpos : g.liveOrders.Positive) (hsends : g.Sends d g' m locate)
    (hkeeps : KeepsSymbol msgs (m.message locate tracking ts)) :
    Routed g'.liveOrders (msgs ++ [m.message locate tracking ts]) := by
  obtain ⟨M, hM⟩ : ∃ M, M = m.message locate tracking ts := ⟨_, rfl⟩
  have hheader : M.header.stockLocate = locate := by rw [hM]; rfl
  rw [← hM] at hkeeps ⊢
  intro e he
  -- in the book of the message the account follows it, and the other books are not told
  have hown : e.2.locate = M.header.stockLocate →
      outstanding (routed e.2.locate (msgs ++ [M])) =
        M.payload.follow (outstanding (routed e.2.locate msgs)) := by
    intro hsame
    rw [hsame, routed_concat_self, outstanding_concat]
  have horigin := hsends.flow.origin hpos he locate tracking ts
  rw [← hM] at horigin
  rcases horigin with ⟨hmem, hfollow, -⟩ | ⟨x, hmem, huses, hsymbol, hfollow, -⟩ |
    ⟨hadds, hfollow, -⟩
  · by_cases hsame : e.2.locate = M.header.stockLocate
    · rw [hown hsame]
      exact hfollow _ (h e hmem)
    · rw [routed_concat_of_ne (Ne.symm hsame)]
      exact h e hmem
  · have hx : x.2.locate = M.header.stockLocate := by
      have := hkeeps x.1 huses
      rw [hlabel x hmem] at this
      exact Option.some.inj this
    have hloc := locate_of_symbolIndex hsymbol
    rw [hown (hloc.trans hx), hloc]
    exact hfollow _ (h x hmem)
  · have hadd : m.payload.adds = some e.1 := by
      rw [hM] at hadds
      exact hadds
    rw [hown ((hsends.locate_of_adds he hadd).trans hheader.symm)]
    exact hfollow _

end Known

/-! ### Runs -/

namespace Generator

variable {config : SynthConfig}

/-- An iteration that writes a message about an order has drawn the symbol of the order. -/
def DrawsItsSymbol (g : Generator) (d : Draws config) : Prop :=
  g.UsesOrder d → d.symbolIndex = (g.picked d).2.symbolIndex

/-- Every iteration of the run does. -/
def DrawSymbols (config : SynthConfig) (draws : List (Draws config)) : Prop :=
  ∀ ds d, ds ++ [d] <+: draws → (run config ds).DrawsItsSymbol d

theorem drawSymbols_nil : DrawSymbols config [] := by
  intro ds d hpre
  exact absurd (List.prefix_nil.mp hpre) (by simp)

theorem drawSymbols_concat (ds : List (Draws config)) (d : Draws config) :
    DrawSymbols config (ds ++ [d]) ↔ DrawSymbols config ds ∧ (run config ds).DrawsItsSymbol d := by
  constructor
  · intro h
    exact ⟨fun ds' d' hpre => h ds' d' (hpre.trans (List.prefix_append _ _)),
      h ds d List.prefix_rfl⟩
  · rintro ⟨h, hd⟩ ds' d' hpre
    rw [List.prefix_concat_iff] at hpre
    rcases hpre with hpre | hpre
    · obtain ⟨rfl, hlast⟩ := List.append_inj' hpre rfl
      cases hlast
      exact hd
    · exact h ds' d' hpre

/-- Every live order has one of the symbols that a locate can tell apart. -/
def SymbolsBounded (live : LiveOrders) : Prop := ∀ e ∈ live, e.2.symbolIndex < 65535

theorem draws_symbolIndex_lt (hsymbols : config.symbols.length ≤ 65535) (d : Draws config) :
    d.symbolIndex < 65535 := by
  have h := d.symbolIndex_le
  split at h <;> omega

theorem SymbolsBounded.sends {g g' : Generator} {d : Draws config} {m : SynthMessage}
    {locate : StockLocate} (hsymbols : config.symbols.length ≤ 65535)
    (h : SymbolsBounded g.liveOrders) (hpos : g.liveOrders.Positive)
    (hsends : g.Sends d g' m locate) : SymbolsBounded g'.liveOrders := by
  intro e he
  rcases hsends.flow.origin hpos he locate 0 0 with
    ⟨hmem, -, -⟩ | ⟨x, hmem, -, hsymbol, -, -⟩ | ⟨hadds, -, -⟩
  · exact h e hmem
  · rw [hsymbol]
    exact h x hmem
  · rw [(hsends.adds_symbol e he hadds).1]
    exact draws_symbolIndex_lt hsymbols d

/-- Two symbols have the same locate only if they are the same. -/
theorem locate_inj {i j : ℕ} (hi : i < 65535) (hj : j < 65535)
    (h : UInt16.ofNat (i + 1) = UInt16.ofNat (j + 1)) : i = j := by
  have hnat := congrArg UInt16.toNat h
  rw [UInt16.toNat_ofNat_of_lt' (show i + 1 < 2 ^ 16 by omega),
    UInt16.toNat_ofNat_of_lt' (show j + 1 < 2 ^ 16 by omega)] at hnat
  omega

/-- A message about an order keeps the symbol exactly when the symbol drawn is that of the
order. -/
theorem keepsSymbol_iff {g : Generator} {d : Draws config} {m : SynthMessage}
    {locate : StockLocate} {msgs : List DecodedMessage} (tracking : TrackingNumber)
    (ts : Timestamp) (hsymbols : config.symbols.length ≤ 65535)
    (hbound : SymbolsBounded g.liveOrders) (hlabel : Labelled g.liveOrders msgs)
    (huse : g.UsesOrder d → m.payload.uses = some (g.picked d).1 ∧
      locate = UInt16.ofNat (d.symbolIndex + 1))
    (hnot : ¬ g.UsesOrder d → m.payload.uses = none) :
    KeepsSymbol msgs (m.message locate tracking ts) ↔ g.DrawsItsSymbol d := by
  have hpayload : (m.message locate tracking ts).payload = m.payload := rfl
  have hheader : (m.message locate tracking ts).header.stockLocate = locate := rfl
  unfold KeepsSymbol DrawsItsSymbol
  rw [hpayload, hheader]
  by_cases hu : g.UsesOrder d
  · obtain ⟨huses, rfl⟩ := huse hu
    have hmem := g.picked_mem d hu.2.2.1
    have hlt := draws_symbolIndex_lt hsymbols d
    simp only [huses, Option.some.injEq, forall_eq', hu, forall_const, hlabel _ hmem]
    constructor
    · intro h
      exact (locate_inj (hbound _ hmem) hlt h).symm
    · intro h
      rw [LiveOrder.locate, h]
  · simp [hu, hnot hu]

/-- **Along every run** the notes of a reader are right, the messages keep their symbols
exactly as long as the drawn symbols are right, and then they reach their books. -/
theorem run_symbols (hsymbols : config.symbols.length ≤ 65535) (draws : List (Draws config)) :
    ∃ msgs, Progress (run config draws) msgs ∧ SymbolsBounded (run config draws).liveOrders ∧
      Labelled (run config draws).liveOrders msgs ∧
      (Throughout KeepsSymbol msgs ↔ DrawSymbols config draws) ∧
      (DrawSymbols config draws →
        Throughout ReachesItsBook msgs ∧ Routed (run config draws).liveOrders msgs) := by
  induction draws using List.reverseRecOn with
  | nil =>
    have hempty : (run config []).liveOrders = [] := rfl
    refine ⟨[], progress_nil, by simp [SymbolsBounded, hempty], by simp [Labelled, hempty],
      ⟨fun _ => drawSymbols_nil, fun _ => Throughout.nil⟩,
      fun _ => ⟨Throughout.nil, by simp [Routed, hempty]⟩⟩
  | append_singleton ds d ih =>
    obtain ⟨msgs, hprogress, hbound, hlabel, hiff, hbooks⟩ := ih
    rw [run_concat, drawSymbols_concat]
    have hpos := hprogress.positive
    obtain ⟨hout, hnext, hlive, hnot⟩ | ⟨m, locate, hsends, huse, hnot⟩ :=
      (run config ds).step_sends d hpos
    · have hdraws : (run config ds).DrawsItsSymbol d := fun hu => absurd hu hnot
      rw [hlive]
      refine ⟨msgs, hprogress.unchanged hout hnext hlive, hbound, hlabel, ?_, fun h => hbooks h.1⟩
      rw [hiff, and_iff_left hdraws]
    · obtain ⟨tracking, ts, hout⟩ := hsends.out_eq
      have hkeeps := keepsSymbol_iff tracking ts hsymbols hbound hlabel huse hnot
      refine ⟨_, hprogress.message hout hsends.flow, hbound.sends hsymbols hpos hsends,
        hlabel.sends hpos hsends, by rw [Throughout.concat_iff, hiff, hkeeps], ?_⟩
      rintro ⟨hbefore, hd⟩
      obtain ⟨hreach, hrouted⟩ := hbooks hbefore
      refine ⟨hreach.concat ⟨hkeeps.mpr hd, ?_⟩,
        hrouted.sends hlabel hpos hsends (hkeeps.mpr hd)⟩
      -- the live orders are in the books of their symbols, so the message finds its order
      refine hsends.flow.namesOutstanding fun e he huses => ?_
      have hloc := hkeeps.mpr hd e.1 huses
      rw [hlabel e he, Option.some.injEq] at hloc
      rw [← hloc]
      exact hrouted e he

end Generator

open Generator in
/-- **Messages reach the book of their order exactly as long as the drawn symbols are
right.**  For every configuration with symbols that a locate can tell apart and for all
draws: every execution, cancel, deletion and replacement that is written has the locate of
the Add Order message that created its order, through any replacements, and is sent to a
book that has the order, if and only if every iteration that writes such a message has
drawn the symbol of the order that it picks. -/
theorem symbols_kept_iff (config : SynthConfig) (hsymbols : config.symbols.length ≤ 65535)
    (draws : List (Draws config)) :
    Throughout ReachesItsBook (run config draws).messages ↔ DrawSymbols config draws := by
  obtain ⟨msgs, hprogress, -, -, hiff, hbooks⟩ := run_symbols hsymbols draws
  rw [messages, hprogress.written.decodedMessages_eq, ← hiff]
  constructor
  · exact fun h pre m post e => (h pre m post e).1
  · exact fun h => (hbooks (hiff.mp h)).1

/-! ### Two symbols -/

namespace Generator

/-- Two symbols. -/
def twoSymbols : SynthConfig := { twoOrders with symbols := [[65], [66]] }

/-- Draws that are all the same but for the symbol and the action. -/
def symbolDraw (symbolIndex action : ℕ) (hs : symbolIndex ≤ 1) (ha : action ≤ 99) :
    Draws twoSymbols :=
  { drawing action ha with symbolIndex := symbolIndex, symbolIndex_le := hs }

theorem firstSymbol_le : 0 ≤ 1 := Nat.zero_le 1

theorem addAction_le : 0 ≤ 99 := Nat.zero_le 99

/-- The start event, the directory, and an order of the first symbol. -/
def oneAdded : List (Draws twoSymbols) :=
  List.replicate 5 (symbolDraw 0 0 firstSymbol_le addAction_le)

end Generator

open Generator in
/-- An order of the first symbol is deleted under the second. -/
theorem deleted_under_other_symbol :
    ¬ Throughout KeepsSymbol
      (run twoSymbols (oneAdded ++ [symbolDraw 1 80 (by decide) (by decide)])).messages := by
  obtain ⟨msgs, hprogress, -, -, hiff, -⟩ :=
    run_symbols (show twoSymbols.symbols.length ≤ 65535 by decide)
      (oneAdded ++ [symbolDraw 1 80 (by decide) (by decide)])
  rw [messages, hprogress.written.decodedMessages_eq, hiff, drawSymbols_concat]
  rintro ⟨-, hdraws⟩
  have huse : (run twoSymbols oneAdded).UsesOrder (symbolDraw 1 80 (by decide) (by decide)) :=
    ⟨rfl, by decide, by decide, by decide, by decide⟩
  exact absurd (hdraws huse) (by decide)

open Generator in
/-- An order of the first symbol is deleted under the first. -/
theorem symbols_kept_deletion :
    Throughout ReachesItsBook
      (run twoSymbols (oneAdded ++ [symbolDraw 0 80 (by decide) (by decide)])).messages := by
  refine (symbols_kept_iff twoSymbols (by decide) _).mpr ?_
  rw [show oneAdded = [] ++ [symbolDraw 0 0 (by decide) (by decide)] ++
    [symbolDraw 0 0 (by decide) (by decide)] ++ [symbolDraw 0 0 (by decide) (by decide)] ++
    [symbolDraw 0 0 (by decide) (by decide)] ++ [symbolDraw 0 0 (by decide) (by decide)] from rfl]
  simp only [drawSymbols_concat]
  exact ⟨⟨⟨⟨⟨⟨drawSymbols_nil, fun _ => rfl⟩, fun _ => rfl⟩, fun _ => rfl⟩, fun _ => rfl⟩,
    fun _ => rfl⟩, fun _ => rfl⟩

end Liquibook
