import Liquibook.Engine.Indistinguishable
import Liquibook.Engine.Slicing
import Liquibook.Lib.Commuting

/-!
# Calls that may change places

Cancels, executions and deletions of different orders do not notice each other: made in any
order that keeps the order of the calls on each order, they are answered the same, and leave
books that cannot be told apart.  Reductions of one order add up.  Immediate orders of the
two sides match against different queues, so it does not matter which of them comes first.

## Main definitions

* `Op.removes` — the order that a call takes shares from.
* `Op.leaves` — what the call leaves of an order.

## Main results

* `independent_removals` — **calls that take shares from different orders are independent.**
* `removals_commute` — only the order of the calls on each order matters.
* `reductions_coalesce` — **reductions of one order add up.**
* `opposite_immediate_commute` — **immediate orders of the two sides may change places.**
-/

namespace Liquibook

open Lib OrderBook MatchingEngine

/-- The order that a call takes shares from. -/
def Op.removes : Op → Option OrderRef
  | .execute ref _ => some ref
  | .cancel ref _ => some ref
  | .delete ref => some ref
  | _ => none

/-- What is left of an order when `n` shares of the order `ref` are taken, if they can be. -/
def Resting.less (ref : OrderRef) (n : Shares) (r : Resting) : Option Resting :=
  if r.orderRef = ref ∧ n ≠ 0 ∧ n ≤ r.shares then
    if n = r.shares then none else some { r with shares := r.shares - n }
  else some r

/-- What a call that takes shares leaves of an order. -/
def Op.leaves : Op → Resting → Option Resting
  | .execute ref n, r => r.less ref n
  | .cancel ref n, r => r.less ref n
  | .delete ref, r => if r.orderRef = ref then none else some r
  | _, r => some r

namespace Op

variable {op : Op} {r r' : Resting} {ref : OrderRef}

/-- What is left of an order keeps its reference. -/
theorem orderRef_of_leaves (h : op.leaves r = some r') : r'.orderRef = r.orderRef := by
  have hless : ∀ ref n, r.less ref n = some r' → r'.orderRef = r.orderRef := by
    intro ref n h
    unfold Resting.less at h
    split at h
    · split at h
      · cases h
      · rw [← Option.some.inj h]
    · rw [← Option.some.inj h]
  cases op with
  | execute ref n => exact hless ref n h
  | cancel ref n => exact hless ref n h
  | delete ref =>
    simp only [leaves] at h
    split at h
    · cases h
    · rw [← Option.some.inj h]
  | add => rw [← Option.some.inj h]
  | replace => rw [← Option.some.inj h]

/-- Another order is left alone. -/
theorem leaves_of_ne (h : op.removes ≠ some r.orderRef) : op.leaves r = some r := by
  cases op with
  | execute ref n => exact if_neg fun e => h (congrArg some e.1.symm)
  | cancel ref n => exact if_neg fun e => h (congrArg some e.1.symm)
  | delete ref => exact if_neg fun e => h (congrArg some e.symm)
  | add => rfl
  | replace => rfl

/-- Calls that take shares from different orders leave the same of every order. -/
theorem leaves_comm {op' : Op} (h : op.removes ≠ op'.removes) (r : Resting) :
    (op.leaves r).bind op'.leaves = (op'.leaves r).bind op.leaves := by
  have hone : ∀ {op op' : Op}, op.removes ≠ some r.orderRef →
      (op.leaves r).bind op'.leaves = (op'.leaves r).bind op.leaves := by
    intro op op' hne
    rw [leaves_of_ne hne, Option.bind_some]
    cases hl : op'.leaves r with
    | none => rfl
    | some x =>
      rw [Option.bind_some, leaves_of_ne]
      rwa [orderRef_of_leaves hl]
  by_cases hr : op.removes = some r.orderRef
  · exact (hone fun e => h (hr.trans e.symm)).symm
  · exact hone hr

end Op

namespace Ledger

variable {l : Ledger} {op : Op} {ref : OrderRef}

/-- Nothing is taken when the order is not there. -/
theorem filterMap_leaves_of_find_none (hop : op.removes = some ref) (h : l.find ref = none) :
    l.orders.filterMap op.leaves = l.orders := by
  have hall : ∀ x ∈ l.orders, op.leaves x = some x := by
    intro x hx
    refine Op.leaves_of_ne fun e => ?_
    rw [hop, Option.some.injEq] at e
    exact find_eq_none_iff.mp h x hx e.symm
  rw [List.filterMap_congr hall]
  exact List.filterMap_some

/-- **A reduction**, as a change to every order: it succeeds when it changes its order. -/
theorem WF.reduce_leaves (h : WF l) (ref : OrderRef) (n : Shares) :
    ((l.reduce ref n).1 = true ↔ ∃ r ∈ l.orders, r.orderRef = ref ∧ r.less ref n ≠ some r) ∧
      (l.reduce ref n).2.orders = l.orders.filterMap (Resting.less ref n) := by
  cases hf : l.find ref with
  | none =>
    have hsame := @filterMap_leaves_of_find_none l (.execute ref n) ref rfl hf
    unfold Ledger.reduce
    rw [hf]
    refine ⟨⟨fun e => (by cases e), ?_⟩, hsame.symm⟩
    rintro ⟨r, hr, href, -⟩
    exact absurd href (find_eq_none_iff.mp hf r hr)
  | some r =>
    obtain ⟨hr, rfl⟩ := mem_of_find hf
    by_cases hok : n ≠ 0 ∧ n ≤ r.shares
    · have hless : r.less r.orderRef n =
          if n = r.shares then none else some { r with shares := r.shares - n } :=
        if_pos ⟨rfl, hok⟩
      refine ⟨⟨fun _ => ⟨r, hr, rfl, ?_⟩, fun _ => ?_⟩, ?_⟩
      · rw [hless]
        split
        · simp
        · intro e
          have hshares := congrArg Resting.shares (Option.some.inj e)
          exact hok.1 (by simpa [sub_eq_self] using hshares)
      · rw [h.reduce_eq hr hok.1 hok.2]
      · rw [h.reduce_orders hr hok.1 hok.2]
        refine List.filterMap_congr fun x hx => ?_
        by_cases hx' : x.orderRef = r.orderRef
        · obtain rfl := h.eq_of_ref hx hr hx'
          rw [if_pos rfl, hless]
        · rw [if_neg hx', Resting.less, if_neg fun e => hx' e.1]
    · have hbad : n = 0 ∨ n > r.shares := by
        by_cases hn : n = 0
        · exact Or.inl hn
        · exact Or.inr (UInt32.not_le.mp fun hle => hok ⟨hn, hle⟩)
      have hall : ∀ x ∈ l.orders, x.less r.orderRef n = some x := by
        intro x hx
        refine if_neg fun e => hok ?_
        obtain rfl := h.eq_of_ref hx hr e.1
        exact e.2
      unfold Ledger.reduce
      rw [hf]
      dsimp only
      rw [if_pos hbad, List.filterMap_congr hall]
      refine ⟨⟨fun e => (by cases e), ?_⟩, List.filterMap_some.symm⟩
      rintro ⟨x, hx, -, hne⟩
      exact absurd (hall x hx) hne

/-- A deletion, as a change to every order. -/
theorem delete_leaves (ref : OrderRef) :
    ((l.delete ref).1 = true ↔
      ∃ r ∈ l.orders, r.orderRef = ref ∧ (Op.delete ref).leaves r ≠ some r) ∧
      (l.delete ref).2.orders = l.orders.filterMap (Op.delete ref).leaves := by
  unfold Ledger.delete
  cases hf : l.find ref with
  | none =>
    have hsame := @filterMap_leaves_of_find_none l (.delete ref) ref rfl hf
    refine ⟨⟨fun e => (by cases e), ?_⟩, hsame.symm⟩
    rintro ⟨r, hr, href, -⟩
    exact absurd href (find_eq_none_iff.mp hf r hr)
  | some r =>
    obtain ⟨hr, rfl⟩ := mem_of_find hf
    refine ⟨⟨fun _ => ⟨r, hr, rfl, by simp [Op.leaves]⟩, fun _ => rfl⟩, ?_⟩
    dsimp only
    rw [remove_orders, drop, ← List.filterMap_eq_filter]
    refine List.filterMap_congr fun x _ => ?_
    by_cases hx : x.orderRef = r.orderRef <;> simp [Op.leaves, Option.guard, hx]

/-- **A call that takes shares**, as a change to every order. -/
theorem WF.step_leaves (h : WF l) (hop : op.removes = some ref) :
    ((l.step op).1 = true ↔ ∃ r ∈ l.orders, r.orderRef = ref ∧ op.leaves r ≠ some r) ∧
      (l.step op).2.orders = l.orders.filterMap op.leaves := by
  cases op with
  | execute ref' n =>
    obtain rfl : ref' = ref := Option.some.inj hop
    exact h.reduce_leaves ref' n
  | cancel ref' n =>
    obtain rfl : ref' = ref := Option.some.inj hop
    exact h.reduce_leaves ref' n
  | delete ref' =>
    obtain rfl : ref' = ref := Option.some.inj hop
    exact delete_leaves ref'
  | add => cases hop
  | replace => cases hop

theorem Bounded.delete (hb : Bounded l) (ref : OrderRef) : Bounded (l.delete ref).2 := by
  unfold Ledger.delete
  cases l.find ref with
  | none => exact hb
  | some r => exact hb.remove r

/-- What is known when no total has wrapped. -/
def Unwrapped (l : Ledger) : Prop := WF l ∧ Exact l ∧ Bounded l

theorem Unwrapped.step (h : Unwrapped l) (hop : op.removes.isSome = true) :
    Unwrapped (l.step op).2 := by
  obtain ⟨hw, he, hb⟩ := h
  refine ⟨hw.step op, he.change hw hb (change_step hw op), ?_⟩
  cases op with
  | execute ref n => exact hb.reduce hw ref n
  | cancel ref n => exact hb.reduce hw ref n
  | delete ref => exact hb.delete ref
  | add => cases hop
  | replace => cases hop

/-- **Calls that take shares from different orders are independent.** -/
theorem independent_removals : Independent Ledger.step Unwrapped
    (fun op => op.removes.isSome = true) fun op op' => op.removes ≠ op'.removes where
  symm _ _ h := h.symm
  inv _ _ h hop := h.step hop
  reply l op op' h hop hop' hne := by
    obtain ⟨ref, hop⟩ := Option.isSome_iff_exists.mp hop
    obtain ⟨ref', hop'⟩ := Option.isSome_iff_exists.mp hop'
    obtain ⟨-, horders⟩ := h.1.step_leaves hop
    rw [Bool.eq_iff_iff, ((h.1.step op).step_leaves hop').1, (h.1.step_leaves hop').1, horders]
    -- the first call leaves the order of the second alone
    have hsame : ∀ r : Resting, r.orderRef = ref' → op.leaves r = some r := by
      intro r hr
      refine Op.leaves_of_ne fun e => hne ?_
      rw [e, hop', hr]
    constructor
    · rintro ⟨r, hr, href, hleaves⟩
      obtain ⟨x, hx, hxr⟩ := List.mem_filterMap.mp hr
      rw [hsame x ((Op.orderRef_of_leaves hxr).symm.trans href), Option.some.injEq] at hxr
      subst hxr
      exact ⟨x, hx, href, hleaves⟩
    · rintro ⟨r, hr, href, hleaves⟩
      exact ⟨r, List.mem_filterMap.mpr ⟨r, hr, hsame r href⟩, href, hleaves⟩
  state l op op' h hop hop' hne := by
    obtain ⟨ref, href⟩ := Option.isSome_iff_exists.mp hop
    obtain ⟨ref', href'⟩ := Option.isSome_iff_exists.mp hop'
    have h₁ := h.step hop
    have h₂ := h.step hop'
    have horders : ((l.step op).2.step op').2.orders = ((l.step op').2.step op).2.orders := by
      rw [(h₁.1.step_leaves href').2, (h.1.step_leaves href).2, (h₂.1.step_leaves href).2,
        (h.1.step_leaves href').2, List.filterMap_filterMap, List.filterMap_filterMap]
      exact List.filterMap_congr fun r _ => Op.leaves_comm hne r
    have hcapacity : ((l.step op).2.step op').2.capacity = ((l.step op').2.step op).2.capacity := by
      rw [(change_step h₁.1 op').capacity, (change_step h.1 op).capacity,
        (change_step h₂.1 op).capacity, (change_step h.1 op').capacity]
    refine Ledger.ext hcapacity horders ?_
    funext side
    have halike : Alike ((l.step op).2.step op').2 ((l.step op').2.step op).2 :=
      (h₁.step hop').2.1.alike (h₂.step hop).2.1 fun p side => by
        rw [queue, horders, queue]
    exact (halike side).best_eq

end Ledger

namespace OrderBook.Refines

variable {b : OrderBook} {l : Ledger}

/-- A run of the book is a run of its ledger, reply by reply. -/
theorem replies (h : Refines b l) (ops : List Op) :
    Lib.replies OrderBook.step b ops = Lib.replies Ledger.step l ops ∧
      Refines (b.run ops) (final Ledger.step l ops) := by
  induction ops generalizing b l with
  | nil => exact ⟨rfl, h⟩
  | cons op ops ih =>
    obtain ⟨hreplies, href⟩ := ih (h.step op).refines
    refine ⟨?_, href⟩
    rw [Lib.replies, Lib.replies, (h.step op).result, hreplies]

end OrderBook.Refines

variable {allowed : Call → Prop} {b : OrderBook}

/-- **Calls that take shares may be made in any order that keeps the order of the calls on each
order**: each of them is answered the same, and the books they leave cannot be told apart. -/
theorem removals_commute (hb : Reached allowed LevelSumsBounded b) {ops ops' : List Op}
    (hremoves : ∀ op ∈ ops, op.removes.isSome = true)
    (hsame : ∀ ref, callsOn Op.removes ref ops = callsOn Op.removes ref ops') :
    (∀ ref, callsOn (fun x => x.1.removes) ref (replies OrderBook.step b ops) =
      callsOn (fun x => x.1.removes) ref (replies OrderBook.step b ops')) ∧
      (b.run ops).Indistinguishable (b.run ops') := by
  obtain ⟨l, h, hbounded, hexact⟩ := hb.exact fun _ hP => hP
  obtain ⟨hreplies, href⟩ := h.replies ops
  obtain ⟨hreplies', href'⟩ := h.replies ops'
  obtain ⟨hanswers, hfinal⟩ :=
    Ledger.independent_removals.reorder hsame ⟨h.wf, hexact, hbounded⟩ hremoves
  rw [← hfinal] at href'
  rw [hreplies, hreplies']
  exact ⟨hanswers, href.indistinguishable href' (fun _ => ⟨fun _ => rfl, rfl⟩) rfl⟩

/-- Two orders in one queue: an execution of the first that goes before or after a deletion of
the second, and then a cancel that takes the rest of the first. -/
theorem removals_commute_two :
    (((OrderBook.new 1000 2 4).run [.add 1 1000 10 true 0, .add 2 1000 20 true 0]).run
        [.execute 1 3, .delete 2, .cancel 1 7, .execute 2 5]).Indistinguishable
      (((OrderBook.new 1000 2 4).run [.add 1 1000 10 true 0, .add 2 1000 20 true 0]).run
        [.delete 2, .execute 2 5, .execute 1 3, .cancel 1 7]) := by
  have hb : Reached (fun _ => True) LevelSumsBounded
      ((OrderBook.new 1000 2 4).run [.add 1 1000 10 true 0, .add 2 1000 20 true 0]) :=
    reached_run_bounded (by decide +kernel)
  refine (removals_commute hb (by decide) fun ref => ?_).2
  by_cases h₁ : some 1 = ref
  · subst h₁
    decide
  · by_cases h₂ : some 2 = ref <;> simp [callsOn, Op.removes, h₁, h₂]

/-! ### Reductions of one order -/

/-- Some shares of an order are executed or cancelled. -/
def Op.takes (executed : Bool) (ref : OrderRef) (n : Shares) : Op :=
  if executed then .execute ref n else .cancel ref n

namespace Ledger

variable {l : Ledger} {r : Resting}

theorem step_takes (l : Ledger) (executed : Bool) (ref : OrderRef) (n : Shares) :
    l.step (.takes executed ref n) = l.reduce ref n := by
  cases executed <;> rfl

/-- **Two reductions of one order** are one. -/
theorem WF.reduce_reduce (h : WF l) (hr : r ∈ l.orders) {n m : Shares} (hn : n ≠ 0) (hm : m ≠ 0)
    (hsum : n.toNat + m.toNat ≤ r.shares.toNat) :
    (l.reduce r.orderRef n).1 = true ∧
      { r with shares := r.shares - n } ∈ (l.reduce r.orderRef n).2.orders ∧
      (l.reduce r.orderRef n).2.reduce r.orderRef m = l.reduce r.orderRef (n + m) := by
  have hlt := r.shares.toNat_lt
  have hm' := toNat_pos hm
  have hn' := toNat_pos hn
  have hadd : (n + m).toNat = n.toNat + m.toNat := by
    rw [UInt32.toNat_add]
    exact Nat.mod_eq_of_lt (by omega)
  have hle : n ≤ r.shares := UInt32.le_iff_toNat_le.mpr (by omega)
  have hsub : (r.shares - n).toNat = r.shares.toNat - n.toNat := UInt32.toNat_sub_of_le _ _ hle
  have hne : n ≠ r.shares := fun e => by
    rw [e] at hsum
    omega
  have hleft : r.shares - n ≠ 0 := fun e => by
    rw [e, UInt32.toNat_zero] at hsub
    omega
  have hadd0 : n + m ≠ 0 := fun e => by
    rw [e, UInt32.toNat_zero] at hadd
    omega
  rw [h.reduce_eq hr hn hle, if_neg hne]
  -- what the first reduction leaves of the order
  have hr' : { r with shares := r.shares - n } ∈ (l.setShares r.orderRef (r.shares - n)).orders :=
    List.mem_map.mpr ⟨r, hr, if_pos rfl⟩
  have hw' : WF (l.setShares r.orderRef (r.shares - n)) := h.setShares hleft
  have hsecond := hw'.reduce_eq hr' hm (by
    rw [UInt32.le_iff_toNat_le, hsub]
    omega)
  refine ⟨rfl, hr', ?_⟩
  rw [hsecond, h.reduce_eq hr hadd0 (by rw [UInt32.le_iff_toNat_le, hadd]; exact hsum)]
  dsimp only
  have hall : m = r.shares - n ↔ n + m = r.shares := by
    rw [eq_sub_iff_add_eq, add_comm]
  simp only [hall, remove_setShares, setShares_setShares, sub_sub]

/-- **Reductions of one order add up.** -/
theorem WF.reductions (ns : List (Bool × Shares)) : ∀ {l : Ledger} {r : Resting}, WF l →
    r ∈ l.orders → (∀ n ∈ ns, n.2 ≠ 0) → (ns.map fun n => n.2.toNat).sum ≤ r.shares.toNat →
      (∀ x ∈ replies Ledger.step l (ns.map fun n => .takes n.1 r.orderRef n.2), x.2 = true) ∧
        final Ledger.step l (ns.map fun n => .takes n.1 r.orderRef n.2) =
          (l.reduce r.orderRef (UInt32.ofNat (ns.map fun n => n.2.toNat).sum)).2 := by
  induction ns with
  | nil =>
    intro l r h hr _ _
    refine ⟨fun x hx => (by cases hx), ?_⟩
    unfold Ledger.reduce
    rw [find_of_mem h.nodup hr]
    rfl
  | cons n ns ih =>
    intro l r h hr hpos hsum
    have hn : n.2 ≠ 0 := hpos n List.mem_cons_self
    rw [List.map_cons, List.sum_cons] at hsum
    have hlt := r.shares.toNat_lt
    set rest := (ns.map fun n => n.2.toNat).sum with hrest
    have hofNat : (UInt32.ofNat rest).toNat = rest :=
      UInt32.toNat_ofNat_of_lt' (show _ < 2 ^ 32 by omega)
    rw [List.map_cons, List.map_cons, List.sum_cons, UInt32.ofNat_add, UInt32.ofNat_toNat, ← hrest]
    have hfinal : final Ledger.step l (.takes n.1 r.orderRef n.2 ::
        ns.map fun n => .takes n.1 r.orderRef n.2) =
          final Ledger.step (l.reduce r.orderRef n.2).2
            (ns.map fun n => .takes n.1 r.orderRef n.2) := by
      rw [final, List.foldl_cons, step_takes]
      rfl
    rw [hfinal, Lib.replies, step_takes]
    by_cases hnil : ns = []
    · subst hnil
      have hzero : rest = 0 := hrest
      have hle : n.2 ≤ r.shares := UInt32.le_iff_toNat_le.mpr (by omega)
      rw [h.reduce_eq hr hn hle, hzero, List.map_nil]
      refine ⟨fun x hx => ?_, ?_⟩
      · rw [Lib.replies, List.mem_singleton] at hx
        rw [hx]
      · change _ = (l.reduce r.orderRef (n.2 + 0)).2
        rw [add_zero, h.reduce_eq hr hn hle]
        rfl
    · -- the other reductions, of what this one leaves
      have hpos' : ∀ m ∈ ns, m.2 ≠ 0 := fun m hm => hpos m (List.mem_cons_of_mem _ hm)
      have hrest0 : rest ≠ 0 := by
        obtain ⟨m, hm⟩ := List.exists_mem_of_ne_nil ns hnil
        have hmem : m.2.toNat ∈ ns.map fun n => n.2.toNat := List.mem_map_of_mem hm
        have hle := List.single_le_sum (fun _ _ => Nat.zero_le _) _ hmem
        have := toNat_pos (hpos' m hm)
        omega
      have hofNat0 : UInt32.ofNat rest ≠ 0 := fun e => hrest0 (by rw [← hofNat, e]; rfl)
      obtain ⟨haccepted, hr', hboth⟩ := h.reduce_reduce hr hn hofNat0 (by omega)
      have hsub : (r.shares - n.2).toNat = r.shares.toNat - n.2.toNat :=
        UInt32.toNat_sub_of_le _ _ (UInt32.le_iff_toNat_le.mpr (by omega))
      obtain ⟨hreplies, hlast⟩ := ih (h.change (change_reduce l r.orderRef n.2)) hr' hpos'
        (by dsimp only; omega)
      refine ⟨fun x hx => ?_, hlast.trans (congrArg Prod.snd hboth)⟩
      rcases List.mem_cons.mp hx with rfl | hx
      · exact haccepted
      · exact hreplies x hx

end Ledger

/-- **Reductions of one order add up**: executions and cancels that together take no more shares
than the order has are all accepted, and the book they leave cannot be told from the one
that a single execution of all the shares leaves. -/
theorem reductions_coalesce (hb : Reachable b) {r : Resting} (hr : r ∈ b.liveOrders)
    {ns : List (Bool × Shares)} (hpos : ∀ n ∈ ns, n.2 ≠ 0)
    (hsum : (ns.map fun n => n.2.toNat).sum ≤ r.shares.toNat) :
    (∀ x ∈ replies OrderBook.step b (ns.map fun n => .takes n.1 r.orderRef n.2), x.2 = true) ∧
      (b.run (ns.map fun n => .takes n.1 r.orderRef n.2)).Indistinguishable
        (b.executeOrder r.orderRef (UInt32.ofNat (ns.map fun n => n.2.toNat).sum)).2 := by
  obtain ⟨l, h⟩ := hb.refines
  obtain ⟨hreplies, href⟩ := h.replies (ns.map fun n => .takes n.1 r.orderRef n.2)
  obtain ⟨hall, hfinal⟩ := Ledger.WF.reductions ns h.wf (h.mem_liveOrders.mp hr) hpos hsum
  rw [hfinal] at href
  rw [hreplies]
  refine ⟨hall, href.indistinguishable (h.reduceShares _ _).refines (fun _ => ?_) rfl⟩
  exact ⟨fun _ => rfl, rfl⟩

/-- An order of 10 shares, executed and cancelled in three parts. -/
theorem reductions_coalesce_three :
    (((OrderBook.new 1000 2 4).run [.add 1 1000 10 true 0]).run
        [.execute 1 2, .cancel 1 3, .execute 1 5]).Indistinguishable
      (((OrderBook.new 1000 2 4).run [.add 1 1000 10 true 0]).executeOrder 1 10).2 :=
  (@reductions_coalesce _ (reachable_run 1000 2 4 _) ⟨1, 1000, 10, true, 0⟩ (by decide +kernel)
    [(true, 2), (false, 3), (true, 5)] (by simp) (by decide)).2

/-! ### The two sides -/

namespace Ledger

variable {l l' l'' : Ledger} {side : Bool} {ref : OrderRef} {n : Shares}

theorem AlikeOn.symm (h : AlikeOn side l l') : AlikeOn side l' l :=
  ⟨fun p => (h.queue_eq p).symm, h.best_eq.symm⟩

theorem AlikeOn.trans (h : AlikeOn side l l') (h' : AlikeOn side l' l'') : AlikeOn side l l'' :=
  ⟨fun p => (h.queue_eq p).trans (h'.queue_eq p), h.best_eq.trans h'.best_eq⟩

/-- The order with the reference, if there is one, is not on the side. -/
def NotOn (l : Ledger) (side : Bool) (ref : OrderRef) : Prop :=
  ∀ r ∈ l.orders, r.orderRef = ref → r.isBuy ≠ side

/-- Reductions leave every order on its side. -/
theorem NotOn.reduce (h : NotOn l side ref) (hw : WF l) (ref' : OrderRef) (n : Shares) :
    NotOn (l.reduce ref' n).2 side ref := by
  intro r' hr' href
  rw [(hw.reduce_leaves ref' n).2] at hr'
  obtain ⟨r, hr, hless⟩ := List.mem_filterMap.mp hr'
  have hsame : r'.orderRef = r.orderRef ∧ r'.isBuy = r.isBuy := by
    unfold Resting.less at hless
    split at hless
    · split at hless
      · cases hless
      · rw [← Option.some.inj hless]
        exact ⟨rfl, rfl⟩
    · rw [← Option.some.inj hless]
      exact ⟨rfl, rfl⟩
  rw [hsame.2]
  exact h r hr (hsame.1.symm.trans href)

/-- **A reduction on one side does not show on the other.** -/
theorem NotOn.alikeOn_reduce (h : NotOn l side ref) (hw : WF l) (n : Shares) :
    AlikeOn side (l.reduce ref n).2 l := by
  unfold Ledger.reduce
  cases hf : l.find ref with
  | none => exact ⟨fun _ => rfl, rfl⟩
  | some r =>
    obtain ⟨hr, rfl⟩ := mem_of_find hf
    have hside : r.isBuy ≠ side := h r hr rfl
    have hne : ∀ p, ∀ x ∈ l.queue p side, x.orderRef ≠ r.orderRef := by
      intro p x hx e
      obtain ⟨hxl, -, hxs⟩ := mem_queue.mp hx
      exact hside (by rw [← hw.eq_of_ref hxl hr e]; exact hxs)
    dsimp only
    split
    · exact ⟨fun _ => rfl, rfl⟩
    · split
      · refine ⟨fun p => ?_, ?_⟩
        · rw [queue_remove, List.filter_eq_self]
          exact fun x hx => decide_eq_true (hne p x hx)
        · rw [remove_best, if_neg fun e => hside e.1.symm]
      · refine ⟨fun p => ?_, rfl⟩
        rw [queue_setShares, List.map_congr_left fun x hx => if_neg (hne p x hx)]
        exact List.map_id _

/-- A reduction keeps ledgers alike on a side. -/
theorem AlikeOn.reduce (h : AlikeOn side l l') (hw : WF l) (hw' : WF l') (ref : OrderRef)
    (n : Shares) : AlikeOn side (l.reduce ref n).2 (l'.reduce ref n).2 := by
  have hmem : ∀ r : Resting, r.isBuy = side → (r ∈ l.orders ↔ r ∈ l'.orders) := by
    intro r hs
    have hqueue : ∀ l : Ledger, r ∈ l.queue r.price side ↔ r ∈ l.orders := by
      intro l
      rw [mem_queue]
      exact ⟨fun hr => hr.1, fun hr => ⟨hr, rfl, hs⟩⟩
    rw [← hqueue l, h.queue_eq, hqueue]
  by_cases hon : ∃ r ∈ l.orders, r.orderRef = ref ∧ r.isBuy = side
  · obtain ⟨r, hr, rfl, hs⟩ := hon
    unfold Ledger.reduce
    rw [find_of_mem hw.nodup hr, find_of_mem hw'.nodup ((hmem r hs).mp hr)]
    dsimp only
    split
    · exact h
    · split
      · exact h.remove r
      · exact h.setShares _ _
  · -- the order is on the other side in both, or in none
    have hnot : NotOn l side ref := fun r hr href hs => hon ⟨r, hr, href, hs⟩
    have hnot' : NotOn l' side ref := fun r hr href hs => hon ⟨r, (hmem r hs).mpr hr, href, hs⟩
    exact ((hnot.alikeOn_reduce hw n).trans h).trans (hnot'.alikeOn_reduce hw' n).symm

theorem AlikeOn.consume (h : AlikeOn side l l') (hw : WF l) (hw' : WF l')
    (fs : List (Resting × ℕ)) : AlikeOn side (l.consume fs) (l'.consume fs) := by
  induction fs generalizing l l' with
  | nil => exact h
  | cons f fs ih =>
    exact ih (h.reduce hw hw' _ _) (hw.change (change_reduce l _ _))
      (hw'.change (change_reduce l' _ _))

/-- **Fills on one side do not show on the other.** -/
theorem WF.alikeOn_consume {fs : List (Resting × ℕ)} : ∀ {l : Ledger}, WF l →
    (∀ f ∈ fs, NotOn l side f.1.orderRef) → AlikeOn side (l.consume fs) l := by
  induction fs with
  | nil => exact fun _ _ => ⟨fun _ => rfl, rfl⟩
  | cons f fs ih =>
    intro l hw hnot
    have hrest := ih (hw.change (change_reduce l f.1.orderRef (UInt32.ofNat f.2))) fun g hg =>
      (hnot g (List.mem_cons_of_mem _ hg)).reduce hw _ _
    exact hrest.trans ((hnot f List.mem_cons_self).alikeOn_reduce hw _)

/-- What an order takes is on the other side. -/
theorem WF.notOn_taking (hw : WF l) (preventSelfTrade : Bool) (order : IncomingOrder) :
    ∀ f ∈ l.taking preventSelfTrade order, NotOn l order.isBuy f.1.orderRef := by
  intro f hf r hr href
  have hmem : f.1 ∈ l.reach preventSelfTrade order := by
    unfold taking at hf
    split at hf
    · cases hf
    · exact (mem_greedy hf).1
  obtain ⟨hfl, hs, -⟩ := mem_reach hmem
  rw [hw.eq_of_ref hr hfl href, hs]
  simp

/-- An order that does not rest leaves the ledger with its fills executed. -/
theorem submit_immediate (l : Ledger) (preventSelfTrade : Bool) {order : IncomingOrder}
    (htype : order.type ≠ .limit) : (l.submit preventSelfTrade order).2 =
      l.consume (l.taking preventSelfTrade order) := by
  unfold submit settleRemainder
  simp only [if_neg htype]
  split
  · rfl
  · rfl

/-- Its events depend on what it takes alone. -/
theorem submit_events_immediate {l l' : Ledger} {preventSelfTrade : Bool} {order : IncomingOrder}
    (htype : order.type ≠ .limit)
    (h : l.taking preventSelfTrade order = l'.taking preventSelfTrade order) :
    (l.submit preventSelfTrade order).1 = (l'.submit preventSelfTrade order).1 := by
  unfold submit settleRemainder
  simp only [if_neg htype, h]
  split
  · rfl
  · rfl

end Ledger

/-- **Immediate orders of the two sides may change places**: the events of either are the same
whether it comes first or second, and the books left in the end cannot be told apart. -/
theorem opposite_immediate_commute (hb : Reachable b) (preventSelfTrade preventSelfTrade' : Bool)
    {order order' : IncomingOrder} (hside : order'.isBuy = !order.isBuy)
    (htype : order.type ≠ .limit) (htype' : order'.type ≠ .limit) :
    ∃ events events' b₁ b₁₂ b₂ b₂₁,
      submit preventSelfTrade b order = some (events, b₁) ∧
      submit preventSelfTrade' b₁ order' = some (events', b₁₂) ∧
      submit preventSelfTrade' b order' = some (events', b₂) ∧
      submit preventSelfTrade b₂ order = some (events, b₂₁) ∧ b₁₂.Indistinguishable b₂₁ := by
  obtain ⟨l, h⟩ := hb.refines
  obtain ⟨-, b₁, hsubmit₁, -, -, h₁⟩ := h.submit preventSelfTrade order
  obtain ⟨-, b₂, hsubmit₂, -, -, h₂⟩ := h.submit preventSelfTrade' order'
  obtain ⟨-, b₁₂, hsubmit₁₂, -, -, h₁₂⟩ := h₁.submit preventSelfTrade' order'
  obtain ⟨-, b₂₁, hsubmit₂₁, -, -, h₂₁⟩ := h₂.submit preventSelfTrade order
  rw [l.submit_immediate preventSelfTrade htype] at h₁ hsubmit₁₂ h₁₂
  rw [l.submit_immediate preventSelfTrade' htype'] at h₂ hsubmit₂₁ h₂₁
  set fs := l.taking preventSelfTrade order with hfs
  set gs := l.taking preventSelfTrade' order' with hgs
  -- the fills of either order leave the other side alone, where the other order matches
  have halike₁ : Ledger.AlikeOn order.isBuy (l.consume fs) l :=
    h.wf.alikeOn_consume (h.wf.notOn_taking preventSelfTrade order)
  have halike₂ : Ledger.AlikeOn order'.isBuy (l.consume gs) l :=
    h.wf.alikeOn_consume (h.wf.notOn_taking preventSelfTrade' order')
  have hback : (!order'.isBuy) = order.isBuy := by rw [hside, Bool.not_not]
  have htaking₁ : (l.consume fs).taking preventSelfTrade' order' = gs := by
    refine Ledger.AlikeOn.taking_eq ?_ preventSelfTrade'
    rwa [hback]
  have htaking₂ : (l.consume gs).taking preventSelfTrade order = fs := by
    refine Ledger.AlikeOn.taking_eq ?_ preventSelfTrade
    rwa [← hside]
  rw [Ledger.submit_immediate _ preventSelfTrade' htype', htaking₁] at h₁₂
  rw [Ledger.submit_immediate _ preventSelfTrade htype, htaking₂] at h₂₁
  rw [Ledger.submit_events_immediate htype' htaking₁] at hsubmit₁₂
  rw [Ledger.submit_events_immediate htype htaking₂] at hsubmit₂₁
  refine ⟨_, _, b₁, b₁₂, b₂, b₂₁, hsubmit₁, hsubmit₁₂, hsubmit₂, hsubmit₂₁,
    h₁₂.indistinguishable h₂₁ (fun side => ?_) ?_⟩
  · have hnot₁ : ∀ f ∈ fs, Ledger.NotOn (l.consume gs) order.isBuy f.1.orderRef := by
      have := h₂.wf.notOn_taking preventSelfTrade order
      rwa [htaking₂] at this
    have hnot₂ : ∀ f ∈ gs, Ledger.NotOn (l.consume fs) order'.isBuy f.1.orderRef := by
      have := h₁.wf.notOn_taking preventSelfTrade' order'
      rwa [htaking₁] at this
    by_cases hs : side = order.isBuy
    · subst hs
      -- on the side of the first order only the second one has fills
      exact (halike₁.consume h₁.wf h.wf gs).trans (h₂.wf.alikeOn_consume hnot₁).symm
    · obtain rfl : side = order'.isBuy := by
        rw [hside]
        exact Bool.eq_not_of_ne hs
      exact (h₁.wf.alikeOn_consume hnot₂).trans (halike₂.consume h₂.wf h.wf fs).symm
  · have hcap₁ := (@Ledger.WF.consume_orders gs _ h₁.wf (by
      have := h₁.wf.takes_taking preventSelfTrade' order'
      rwa [htaking₁] at this)).2.1
    have hcap₂ := (@Ledger.WF.consume_orders fs _ h₂.wf (by
      have := h₂.wf.takes_taking preventSelfTrade order
      rwa [htaking₂] at this)).2.1
    rw [hcap₁, hcap₂, (h.wf.consume_orders (h.wf.takes_taking preventSelfTrade order)).2.1,
      (h.wf.consume_orders (h.wf.takes_taking preventSelfTrade' order')).2.1]

/-- An immediate-or-cancel buy and a market sell, in a book with an order on each side. -/
theorem opposite_immediate_commute_two :
    ∃ events events' b₁ b₁₂ b₂ b₂₁,
      submit true ((OrderBook.new 1000 2 4).run [.add 1 1000 10 true 1, .add 2 1002 10 false 2])
        ⟨3, 1002, 4, true, .ioc, 3⟩ = some (events, b₁) ∧
      submit false b₁ ⟨4, 0, 15, false, .market, 4⟩ = some (events', b₁₂) ∧
      submit false ((OrderBook.new 1000 2 4).run [.add 1 1000 10 true 1, .add 2 1002 10 false 2])
        ⟨4, 0, 15, false, .market, 4⟩ = some (events', b₂) ∧
      submit true b₂ ⟨3, 1002, 4, true, .ioc, 3⟩ = some (events, b₂₁) ∧
      b₁₂.Indistinguishable b₂₁ :=
  @opposite_immediate_commute _ (reachable_run 1000 2 4 _) true false ⟨3, 1002, 4, true, .ioc, 3⟩
    ⟨4, 0, 15, false, .market, 4⟩ (by decide) (by decide) (by decide)

end Liquibook
