import Liquibook.Engine.Origins
import Liquibook.Engine.Remainder

/-!
# Books that are not crossed

If orders come in through the engine only, and self-trade prevention is off, then the
bids stay below the asks.  Executions, cancellations and deletions put nothing on the
book.  A remainder rests only behind everything that it crosses, and without
self-trade prevention matching has used up all of that before.

## Main definitions

* `Uncrossed` — the bids are below the asks.
* `Call.matched` — a call that brings in orders through the engine only.

## Main results

* `uncrossed_perform` — a call keeps a book uncrossed.
* `never_crossed` — **the book is never crossed.**
-/

namespace Liquibook

open Lib OrderBook MatchingEngine

/-- Every bid is strictly below every ask. -/
def Uncrossed (rs : List Resting) : Prop :=
  ∀ bid ∈ rs, ∀ ask ∈ rs, bid.isBuy = true → ask.isBuy = false → bid.price < ask.price

/-- An order submitted without self-trade prevention, an execution, a cancellation or
a deletion. -/
def Call.matched : Call → Prop
  | .submit preventSelfTrade _ => preventSelfTrade = false
  | .book (.execute ..) => True
  | .book (.cancel ..) => True
  | .book (.delete _) => True
  | .book _ => False

/-- Orders that were there before leave the book uncrossed. -/
theorem Uncrossed.of_same {rs rs' : List Resting} (h : Uncrossed rs)
    (hsame : ∀ r' ∈ rs', ∃ r ∈ rs, r.SameOrder r') : Uncrossed rs' := by
  intro bid hbid ask hask hbuy hsell
  obtain ⟨bid₀, hbid₀, hb⟩ := hsame bid hbid
  obtain ⟨ask₀, hask₀, ha⟩ := hsame ask hask
  rw [hb.price, ha.price]
  exact h bid₀ hbid₀ ask₀ hask₀ (hb.isBuy ▸ hbuy) (ha.isBuy ▸ hsell)

/-- A limit order can be added to orders of the opposite side that it does not cross. -/
theorem Uncrossed.append {rs : List Resting} (h : Uncrossed rs) {r : Resting}
    {order : IncomingOrder} (htype : order.type = .limit) (hprice : r.price = order.price)
    (hside : r.isBuy = order.isBuy)
    (hnot : ∀ x ∈ rs, x.isBuy = (!order.isBuy) → crosses order x.price = false) :
    Uncrossed (rs ++ [r]) := by
  have hcross : ∀ p, crosses order p = false →
      if order.isBuy then order.price < p else p < order.price := by
    intro p hp
    rw [crosses, if_neg (by rw [htype]; simp)] at hp
    cases hb : order.isBuy with
    | true =>
      rw [hb, if_pos rfl, decide_eq_false_iff_not, UInt32.not_le] at hp
      exact hp
    | false =>
      rw [hb, if_neg (by simp), decide_eq_false_iff_not, ge_iff_le, UInt32.not_le] at hp
      exact hp
  intro bid hbid ask hask hbuy hsell
  rcases List.mem_append.mp hbid with hbid | hbid
  · rcases List.mem_append.mp hask with hask | hask
    · exact h bid hbid ask hask hbuy hsell
    · rw [List.mem_singleton.mp hask] at hsell ⊢
      rw [hside] at hsell
      have := hcross _ (hnot bid hbid (by rw [hbuy, hsell]; rfl))
      rwa [hsell, if_neg (by simp), ← hprice] at this
  · rw [List.mem_singleton.mp hbid] at hbuy ⊢
    rcases List.mem_append.mp hask with hask | hask
    · rw [hside] at hbuy
      have := hcross _ (hnot ask hask (by rw [hbuy, hsell]; rfl))
      rwa [hbuy, if_pos rfl, ← hprice] at this
    · rw [List.mem_singleton.mp hask, hbuy] at hsell
      cases hsell

variable {b b' : OrderBook} {l : Ledger} {events : List Event}

theorem Uncrossed.perm {rs rs' : List Resting} (h : Uncrossed rs) (hp : rs'.Perm rs) :
    Uncrossed rs' :=
  h.of_same fun r hr => ⟨r, hp.mem_iff.mp hr, .refl r⟩

/-- An order submitted without self-trade prevention keeps the book uncrossed. -/
theorem uncrossed_submit (h : Refines b l) (hbound : l.Bounded) (hexact : l.Exact)
    (hu : Uncrossed b.liveOrders) {order : IncomingOrder}
    (hsub : submit false b order = some (events, b')) : Uncrossed b'.liveOrders := by
  by_cases hrest : order.type = .limit ∧
      sharesOf (l.reach false order) < order.quantity.toNat
  · obtain ⟨htype, hshort⟩ := hrest
    have hfok := IncomingOrder.ne_fok_of_limit htype
    obtain ⟨b₂, hsub₂, -, hperm⟩ := h.submit_short hfok hshort
    rw [hsub₂, Option.some.injEq, Prod.mk.injEq] at hsub
    rw [hsub.2] at hperm
    have ht := h.wf.takes_taking false order
    rw [h.wf.taking_short hfok hshort] at ht
    have hkept : Uncrossed (b.liveOrders.filter fun r => decide (r ∉ l.reach false order)) :=
      hu.of_same fun r hr => ⟨r, (List.mem_filter.mp hr).1, .refl r⟩
    refine Uncrossed.perm ?_ hperm
    rcases h.restedOf_whole ht htype hshort with ⟨hnil, -⟩ | ⟨hone, -⟩
    · rw [hnil, List.append_nil]
      exact hkept
    · rw [hone]
      refine hkept.append htype rfl rfl fun x hx hside => Bool.eq_false_iff.mpr fun hc => ?_
      -- everything the order crosses is reached, and gone
      obtain ⟨hx, hnot⟩ := List.mem_filter.mp hx
      refine of_decide_eq_true hnot ?_
      rw [hexact.reach_eq_crossing h.wf hbound (Or.inl rfl)]
      exact Ledger.mem_crossing.mpr ⟨h.mem_liveOrders.mp hx, hside, hc⟩
  · refine hu.of_same fun r hr => ?_
    have href := h.perform (c := .submit false order) hsub
    rcases h.wf.mem_submit (href.mem_liveOrders.mp hr) with ⟨r₀, hr₀, hsame, -⟩ | ⟨hne, -⟩
    · exact ⟨r₀, h.mem_liveOrders.mpr hr₀, hsame⟩
    · rw [h.wf.rested_eq, ite_ne_right_iff] at hne
      obtain ⟨htype, hlt, -⟩ := hne.1
      rw [l.taking_of_ne_fok false (IncomingOrder.ne_fok_of_limit htype), amount_fills] at hlt
      exact absurd ⟨htype, by omega⟩ hrest

/-- **A call keeps the book uncrossed**, if no total has wrapped before. -/
theorem uncrossed_perform (h : Refines b l) (hbound : l.Bounded) (hexact : l.Exact)
    (hu : Uncrossed b.liveOrders) {c : Call} (hc : c.matched)
    (hcall : b.perform c = some (events, b')) : Uncrossed b'.liveOrders := by
  have hnone : ∀ op : Op, op.creates = none → b.perform (.book op) = some (events, b') →
      Uncrossed b'.liveOrders := by
    intro op hop hcall
    refine hu.of_same fun r hr => ?_
    have href := h.perform hcall
    rcases h.wf.mem_step (href.mem_liveOrders.mp hr) with ⟨r₀, hr₀, hsame, -⟩ | ⟨-, hnew, -⟩
    · exact ⟨r₀, h.mem_liveOrders.mpr hr₀, hsame⟩
    · rw [hop] at hnew
      cases hnew
  cases c with
  | submit preventSelfTrade order =>
    obtain rfl : preventSelfTrade = false := hc
    exact uncrossed_submit h hbound hexact hu hcall
  | book op =>
    cases op with
    | add ref price shares isBuy traderId => exact hc.elim
    | replace oldRef newRef newShares newPrice => exact hc.elim
    | execute ref shares => exact hnone _ rfl hcall
    | cancel ref shares => exact hnone _ rfl hcall
    | delete ref => exact hnone _ rfl hcall

/-- **The book is never crossed**, as long as orders come in through the engine and
no total wraps. -/
theorem never_crossed (hb : Reached Call.matched LevelSumsBounded b) :
    Uncrossed b.liveOrders ∧ ∀ p q, b.bestBid = some p → b.bestAsk = some q → p < q := by
  have huncrossed : Uncrossed b.liveOrders := by
    induction hb with
    | new referencePrice halfWidth capacity _ =>
      intro bid hbid
      rw [liveOrders_new] at hbid
      cases hbid
    | call c h hc hcall _ ih =>
      obtain ⟨l, href, hbound, hexact⟩ := h.exact fun _ => id
      exact uncrossed_perform href hbound hexact ih hc hcall
  refine ⟨huncrossed, fun p q hp hq => ?_⟩
  obtain ⟨l, h⟩ := hb.refines
  have hlive : ∀ side p, b.best side = some p →
      ∃ r ∈ b.liveOrders, r.price = p ∧ r.isBuy = side := by
    intro side p hp
    rw [h.best_eq] at hp
    obtain ⟨r, hr⟩ := List.exists_mem_of_ne_nil _ (h.wf.best_live side p hp)
    obtain ⟨hmem, hprice, hside⟩ := Ledger.mem_queue.mp hr
    exact ⟨r, h.mem_liveOrders.mpr hmem, hprice, hside⟩
  obtain ⟨bid, hbid, rfl, hbuy⟩ := hlive true p hp
  obtain ⟨ask, hask, rfl, hsell⟩ := hlive false q hq
  exact huncrossed bid hbid ask hask hbuy hsell

/-- An ask is filled by a bid above it, whose remainder rests below the next ask. -/
theorem never_crossed_after_fill :
    ∃ b, Reached Call.matched LevelSumsBounded b ∧ b.bestBid = some 1002 ∧
      b.bestAsk = some 1005 ∧ Uncrossed b.liveOrders := by
  have hnew : Reached Call.matched LevelSumsBounded (OrderBook.new 1000 3 8) :=
    .new 1000 3 8 (levelSumsBounded_of_sharesOf (by decide +kernel))
  have hask := Reached.call (.submit false ⟨1, 1001, 50, false, .limit, 0⟩) hnew rfl rfl
    (levelSumsBounded_of_sharesOf (by decide +kernel))
  have hbid := Reached.call (.submit false ⟨2, 1002, 80, true, .limit, 0⟩) hask rfl rfl
    (levelSumsBounded_of_sharesOf (by decide +kernel))
  have hnext := Reached.call (.submit false ⟨3, 1005, 10, false, .limit, 0⟩) hbid rfl rfl
    (levelSumsBounded_of_sharesOf (by decide +kernel))
  exact ⟨_, hnext, by decide +kernel, by decide +kernel, (never_crossed hnext).1⟩

end Liquibook
