import Liquibook.Itch.Generate

/-!
# The synthetic stream is self-consistent

A reader of the stream who looks at the messages only can keep an account of the orders
that are outstanding.  It agrees with the account of the generator after every message,
whatever is drawn, and the reader finds nothing wrong: references are fresh when they are
handed out, and messages about orders name orders that are outstanding.

The references are the numbers of a 64-bit counter, and so is the field of the format
that holds them.  So they are fresh as long as no more than `2 ^ 64` have been handed out.

## Main definitions

* `Throughout` — every entry of a list fits what comes before it.
* `Payload.creates`, `Payload.mentions`, `outstanding` — the account of a reader.
* `FreshRefs`, `NamesOutstanding` — what it means for a message to fit.
* `Counted`, `Account` — what is known of the counter and of the live orders.

## Main results

* `Counted.not_mem` — **the next reference is fresh** until the counter comes around.
* `Account.flow` — **a message keeps the accounts in step.**
-/

namespace Liquibook

/-- Every entry of the list is in the relation to the entries before it. -/
def Throughout {α : Type*} (P : List α → α → Prop) (xs : List α) : Prop :=
  ∀ pre x post, xs = pre ++ x :: post → P pre x

theorem Throughout.nil {α : Type*} {P : List α → α → Prop} : Throughout P [] := by
  intro pre x post h
  simp at h

theorem Throughout.concat {α : Type*} {P : List α → α → Prop} {xs : List α} {x : α}
    (h : Throughout P xs) (hx : P xs x) : Throughout P (xs ++ [x]) := by
  intro pre y post e
  obtain rfl | ⟨post, z, rfl⟩ := post.eq_nil_or_concat
  · obtain ⟨rfl, hy⟩ := List.append_inj' e rfl
    cases hy
    exact hx
  · rw [List.concat_eq_append, ← List.cons_append, ← List.append_assoc] at e
    obtain ⟨e, -⟩ := List.append_inj' e rfl
    exact h pre y post e

theorem Throughout.concat_iff {α : Type*} {P : List α → α → Prop} {xs : List α} {x : α} :
    Throughout P (xs ++ [x]) ↔ Throughout P xs ∧ P xs x := by
  constructor
  · intro h
    refine ⟨fun pre y post e => h pre y (post ++ [x]) ?_, h xs x [] rfl⟩
    rw [e, List.append_assoc, List.cons_append]
  · rintro ⟨h, hx⟩
    exact h.concat hx

/-! ### The account of a reader -/

namespace Payload

/-- The reference that a message hands out: to an order, or to a trade report. -/
def creates : Payload → Option OrderRef
  | .addOrder p => some p.orderReferenceNumber
  | .orderReplace p => some p.newOrderReferenceNumber
  | .trade p => some p.orderReferenceNumber
  | _ => none

/-- The references in a message. -/
def mentions : Payload → List OrderRef
  | .systemEvent _ => []
  | .stockDirectory _ => []
  | .addOrder p => [p.orderReferenceNumber]
  | .orderExecuted p => [p.orderReferenceNumber]
  | .orderExecutedWithPrice p => [p.orderReferenceNumber]
  | .orderCancel p => [p.orderReferenceNumber]
  | .orderDelete p => [p.orderReferenceNumber]
  | .orderReplace p => [p.originalOrderReferenceNumber, p.newOrderReferenceNumber]
  | .trade p => [p.orderReferenceNumber]

end Payload

/-- The orders without the one that has the reference. -/
def withoutRef (rs : List (OrderRef × ℕ)) (ref : OrderRef) : List (OrderRef × ℕ) :=
  rs.filter fun e => decide (e.1 ≠ ref)

/-- Shares are taken from an order, which is gone when it has none left. -/
def takeShares (rs : List (OrderRef × ℕ)) (ref : OrderRef) (n : ℕ) : List (OrderRef × ℕ) :=
  (rs.map fun e => if e.1 = ref then (e.1, e.2 - n) else e).filter fun e => decide (e.2 ≠ 0)

/-- The account of the orders and their shares, after one more message. -/
def Payload.follow (rs : List (OrderRef × ℕ)) : Payload → List (OrderRef × ℕ)
  | .addOrder p => rs ++ [(p.orderReferenceNumber, p.shares.toNat)]
  | .orderExecuted p => takeShares rs p.orderReferenceNumber p.executedShares.toNat
  | .orderExecutedWithPrice p => takeShares rs p.orderReferenceNumber p.executedShares.toNat
  | .orderCancel p => takeShares rs p.orderReferenceNumber p.cancelledShares.toNat
  | .orderDelete p => withoutRef rs p.orderReferenceNumber
  | .orderReplace p =>
      withoutRef rs p.originalOrderReferenceNumber ++
        [(p.newOrderReferenceNumber, p.shares.toNat)]
  | .systemEvent _ => rs
  | .stockDirectory _ => rs
  | .trade _ => rs

/-- The orders that have been created and not removed, with the shares they have left. -/
def outstanding (msgs : List DecodedMessage) : List (OrderRef × ℕ) :=
  msgs.foldl (fun rs m => m.payload.follow rs) []

/-- The references that have been handed out, in order. -/
def createdRefs (msgs : List DecodedMessage) : List OrderRef :=
  msgs.filterMap fun m => m.payload.creates

/-- A reference that the message hands out has not occurred before. -/
def FreshRefs (pre : List DecodedMessage) (m : DecodedMessage) : Prop :=
  ∀ ref, m.payload.creates = some ref → ref ∉ pre.flatMap fun x => x.payload.mentions

/-- The order that a message is about is outstanding, and has the shares that the
message takes, of which there is at least one. -/
def NamesOutstanding (pre : List DecodedMessage) (m : DecodedMessage) : Prop :=
  match m.payload with
  | .orderExecuted p => ∃ n, (p.orderReferenceNumber, n) ∈ outstanding pre ∧
      1 ≤ p.executedShares.toNat ∧ p.executedShares.toNat ≤ n
  | .orderExecutedWithPrice p => ∃ n, (p.orderReferenceNumber, n) ∈ outstanding pre ∧
      1 ≤ p.executedShares.toNat ∧ p.executedShares.toNat ≤ n
  | .orderCancel p => ∃ n, (p.orderReferenceNumber, n) ∈ outstanding pre ∧
      1 ≤ p.cancelledShares.toNat ∧ p.cancelledShares.toNat ≤ n
  | .orderDelete p => ∃ n, (p.orderReferenceNumber, n) ∈ outstanding pre
  | .orderReplace p => ∃ n, (p.originalOrderReferenceNumber, n) ∈ outstanding pre
  | _ => True

/-! ### The counter of the references -/

section Counter

variable {next next' : OrderRef} {live live' : LiveOrders} {m : SynthMessage}
  {locate : StockLocate} {tracking : TrackingNumber} {ts : Timestamp} {msgs : List DecodedMessage}

/-- A message hands out the next reference, or none. -/
theorem Flow.creates_cases (h : Flow next live m next' live') :
    m.payload.creates = none ∧ next' = next ∨ m.payload.creates = some next ∧ next' = next + 1 := by
  cases h with
  | systemEvent => exact Or.inl ⟨rfl, rfl⟩
  | stockDirectory => exact Or.inl ⟨rfl, rfl⟩
  | addOrder => exact Or.inr ⟨rfl, rfl⟩
  | addOrderMPID => exact Or.inr ⟨rfl, rfl⟩
  | orderExecuted => exact Or.inl ⟨rfl, rfl⟩
  | orderCancel => exact Or.inl ⟨rfl, rfl⟩
  | orderDelete => exact Or.inl ⟨rfl, rfl⟩
  | orderReplace => exact Or.inr ⟨rfl, rfl⟩
  | trade => exact Or.inr ⟨rfl, rfl⟩

theorem createdRefs_concat (msgs : List DecodedMessage) (m : DecodedMessage) :
    createdRefs (msgs ++ [m]) = createdRefs msgs ++ m.payload.creates.toList := by
  rw [createdRefs, List.filterMap_append, List.filterMap_cons]
  cases m.payload.creates <;> rfl

/-- The references are those of a counter that starts at one. -/
structure Counted (next : OrderRef) (msgs : List DecodedMessage) : Prop where
  next_eq : next = UInt64.ofNat ((createdRefs msgs).length + 1)
  created_eq : createdRefs msgs =
    (List.range (createdRefs msgs).length).map fun i => UInt64.ofNat (i + 1)

theorem counted_nil : Counted 1 [] := ⟨rfl, rfl⟩

/-- A message keeps the counter going, also when it wraps. -/
theorem Counted.flow (h : Counted next msgs) (hflow : Flow next live m next' live') :
    Counted next' (msgs ++ [m.message locate tracking ts]) := by
  have hpayload : (m.message locate tracking ts).payload = m.payload := rfl
  obtain ⟨hnone, rfl⟩ | ⟨hsome, rfl⟩ := hflow.creates_cases
  · have hsame : createdRefs (msgs ++ [m.message locate tracking ts]) = createdRefs msgs := by
      rw [createdRefs_concat, hpayload, hnone, Option.toList_none, List.append_nil]
    exact ⟨by rw [hsame]; exact h.next_eq, by rw [hsame]; exact h.created_eq⟩
  · have hnew : createdRefs (msgs ++ [m.message locate tracking ts]) =
        createdRefs msgs ++ [next] := by
      rw [createdRefs_concat, hpayload, hsome, Option.toList_some]
    have hlen : (createdRefs msgs ++ [next]).length = (createdRefs msgs).length + 1 :=
      List.length_append
    constructor
    · rw [hnew, hlen, UInt64.ofNat_add, ← h.next_eq]
      rfl
    · rw [hnew, hlen, List.range_succ, List.map_append, ← h.created_eq, h.next_eq]
      rfl

/-- **The next reference is fresh** as long as the counter has not come around. -/
theorem Counted.not_mem (h : Counted next msgs) (hle : (createdRefs msgs).length + 1 ≤ 2 ^ 64) :
    next ∉ createdRefs msgs := by
  intro hmem
  rw [h.created_eq] at hmem
  obtain ⟨i, hi, he⟩ := List.mem_map.mp hmem
  rw [List.mem_range] at hi
  have hnat := congrArg UInt64.toNat he
  rw [h.next_eq, UInt64.toNat_ofNat', UInt64.toNat_ofNat'] at hnat
  omega

end Counter

/-! ### The account of the generator -/

/-- A live order of the generator, as a reader knows it. -/
def sharesLeft (e : OrderRef × LiveOrder) : OrderRef × ℕ := (e.1, e.2.remainingShares.toNat)

namespace LiveOrders

variable {live : LiveOrders} {ref : OrderRef} {order : LiveOrder} {shares : Shares}

/-- With unique references an entry is known by its reference. -/
theorem eq_of_ref (hnd : (live.map Prod.fst).Nodup) {e : OrderRef × LiveOrder} (he : e ∈ live)
    (hmem : (ref, order) ∈ live) (href : e.1 = ref) : e = (ref, order) :=
  List.inj_on_of_nodup_map hnd he hmem href

theorem erase_of_not_mem (h : ref ∉ live.map Prod.fst) : live.erase ref = live := by
  refine List.filter_eq_self.mpr fun e he => ?_
  rw [decide_eq_true_eq]
  rintro rfl
  exact h (List.mem_map_of_mem he)

theorem put_of_not_mem (h : ref ∉ live.map Prod.fst) :
    live.put ref order = live ++ [(ref, order)] := by
  rw [put, erase_of_not_mem h]

theorem not_mem_erase (h : ref ∉ live.map Prod.fst) (old : OrderRef) :
    ref ∉ (live.erase old).map Prod.fst := by
  intro hmem
  exact h ((List.filter_sublist.map Prod.fst).subset hmem)

theorem erase_refs_sublist : ((live.erase ref).map Prod.fst).Sublist (live.map Prod.fst) :=
  List.filter_sublist.map Prod.fst

theorem reduce_refs_sublist :
    ((live.reduce ref order shares).map Prod.fst).Sublist (live.map Prod.fst) := by
  unfold reduce
  split
  · exact erase_refs_sublist
  · have hsame : (live.map fun e => if e.1 = ref then
        (ref, { order with remainingShares := order.remainingShares - shares }) else e).map Prod.fst =
        live.map Prod.fst := by
      rw [List.map_map]
      refine List.map_congr_left fun e _ => ?_
      simp only [Function.comp_apply]
      split
      · next h => exact h.symm
      · rfl
    rw [hsame]

theorem put_refs_nodup (hnd : (live.map Prod.fst).Nodup) (h : ref ∉ live.map Prod.fst) :
    ((live.put ref order).map Prod.fst).Nodup := by
  rw [put_of_not_mem h, List.map_append, List.nodup_append]
  refine ⟨hnd, List.nodup_singleton _, ?_⟩
  intro x hx y hy
  rw [List.mem_singleton.mp hy]
  rintro rfl
  exact h hx

theorem map_erase : (live.erase ref).map sharesLeft = withoutRef (live.map sharesLeft) ref := by
  rw [withoutRef, List.filter_map]
  rfl

/-- Taking shares from an order is seen as such. -/
theorem map_reduce (hnd : (live.map Prod.fst).Nodup) (hpos : live.Positive)
    (hmem : (ref, order) ∈ live) (hle : shares ≤ order.remainingShares) :
    (live.reduce ref order shares).map sharesLeft =
      takeShares (live.map sharesLeft) ref shares.toNat := by
  have hleft : (order.remainingShares - shares).toNat =
      order.remainingShares.toNat - shares.toNat := UInt32.toNat_sub_of_le _ _ hle
  have hzero : order.remainingShares - shares = 0 ↔
      order.remainingShares.toNat - shares.toNat = 0 := by
    rw [← hleft, ← UInt32.toNat_inj, UInt32.toNat_zero]
  have hother : ∀ e ∈ live, e.2.remainingShares.toNat ≠ 0 := by
    intro e he h
    exact hpos e he (UInt32.toNat_inj.mp h)
  unfold reduce takeShares
  rw [List.map_map, List.filter_map]
  split
  · next h =>
    -- the order is gone, and the others have shares
    have hkeep : live.erase ref = live.filter ((fun e : OrderRef × ℕ => decide (e.2 ≠ 0)) ∘
        (fun e : OrderRef × ℕ => if e.1 = ref then (e.1, e.2 - shares.toNat) else e) ∘
          sharesLeft) := by
      refine List.filter_congr fun e he => ?_
      simp only [Function.comp_apply, sharesLeft]
      by_cases href : e.1 = ref
      · obtain rfl := eq_of_ref hnd he hmem href
        simp [hzero.mp h]
      · simp [href, hother e he]
    rw [← hkeep]
    refine List.map_congr_left fun e he => ?_
    have href : e.1 ≠ ref := by simpa using (List.mem_filter.mp he).2
    simp [sharesLeft, href]
  · next h =>
    rw [List.filter_eq_self.mpr, List.map_map]
    · refine List.map_congr_left fun e he => ?_
      simp only [Function.comp_apply, sharesLeft]
      by_cases href : e.1 = ref
      · obtain rfl := eq_of_ref hnd he hmem href
        simp [hleft]
      · simp [href]
    · intro e he
      simp only [Function.comp_apply, sharesLeft]
      by_cases href : e.1 = ref
      · obtain rfl := eq_of_ref hnd he hmem href
        simpa using fun e => h (hzero.mpr e)
      · simp [href, hother e he]

end LiveOrders

/-- **The account of the generator is that of a reader**, who finds nothing wrong. -/
structure Account (live : LiveOrders) (msgs : List DecodedMessage) : Prop where
  nodup : (live.map Prod.fst).Nodup
  live_created : ∀ ref ∈ live.map Prod.fst, ref ∈ createdRefs msgs
  mentions_created : ∀ ref ∈ msgs.flatMap fun m => m.payload.mentions, ref ∈ createdRefs msgs
  outstanding_eq : outstanding msgs = live.map sharesLeft
  fresh : Throughout FreshRefs msgs
  names : Throughout NamesOutstanding msgs

theorem account_nil : Account [] [] where
  nodup := List.nodup_nil
  live_created := by simp
  mentions_created := by simp
  outstanding_eq := rfl
  fresh := Throughout.nil
  names := Throughout.nil

section Account

variable {next next' : OrderRef} {live live' : LiveOrders} {m : SynthMessage}
  {locate : StockLocate} {tracking : TrackingNumber} {ts : Timestamp} {msgs : List DecodedMessage}

theorem outstanding_concat (msgs : List DecodedMessage) (m : DecodedMessage) :
    outstanding (msgs ++ [m]) = m.payload.follow (outstanding msgs) := by
  rw [outstanding, List.foldl_append]
  rfl

/-- What a message mentions is an order that is live, or the reference it hands out. -/
theorem Flow.mentions (h : Flow next live m next' live') {ref : OrderRef}
    (href : ref ∈ m.payload.mentions) : ref ∈ live.map Prod.fst ∨ m.payload.creates = some ref := by
  cases h with
  | systemEvent => cases href
  | stockDirectory => cases href
  | addOrder => exact Or.inr (congrArg some (List.mem_singleton.mp href).symm)
  | addOrderMPID => exact Or.inr (congrArg some (List.mem_singleton.mp href).symm)
  | orderExecuted matchNumber hmem =>
    obtain rfl := List.mem_singleton.mp href
    exact Or.inl (List.mem_map_of_mem hmem)
  | orderCancel hmem =>
    obtain rfl := List.mem_singleton.mp href
    exact Or.inl (List.mem_map_of_mem hmem)
  | orderDelete hmem =>
    obtain rfl := List.mem_singleton.mp href
    exact Or.inl (List.mem_map_of_mem hmem)
  | orderReplace price hmem =>
    rcases List.mem_cons.mp href with rfl | href
    · exact Or.inl (List.mem_map_of_mem hmem)
    · exact Or.inr (congrArg some (List.mem_singleton.mp href).symm)
  | trade => exact Or.inr (congrArg some (List.mem_singleton.mp href).symm)

theorem LiveOrders.mem_put_refs {order : LiveOrder} {ref ref' : OrderRef}
    (h : ref' ∈ (live.put ref order).map Prod.fst) : ref' ∈ live.map Prod.fst ∨ ref = ref' := by
  rw [LiveOrders.put, List.map_append] at h
  rcases List.mem_append.mp h with h | h
  · exact Or.inl (LiveOrders.erase_refs_sublist.subset h)
  · exact Or.inr (List.mem_singleton.mp h).symm

/-- The references of the live orders after a message are such references before it, or
the one it hands out. -/
theorem Flow.live_refs (h : Flow next live m next' live') {ref : OrderRef}
    (href : ref ∈ live'.map Prod.fst) : ref ∈ live.map Prod.fst ∨ m.payload.creates = some ref := by
  cases h with
  | systemEvent => exact Or.inl href
  | stockDirectory => exact Or.inl href
  | addOrder => exact (LiveOrders.mem_put_refs href).imp_right (congrArg some)
  | addOrderMPID => exact (LiveOrders.mem_put_refs href).imp_right (congrArg some)
  | orderExecuted => exact Or.inl (LiveOrders.reduce_refs_sublist.subset href)
  | orderCancel => exact Or.inl (LiveOrders.reduce_refs_sublist.subset href)
  | orderDelete => exact Or.inl (LiveOrders.erase_refs_sublist.subset href)
  | orderReplace =>
    exact (LiveOrders.mem_put_refs href).imp (fun hmem => LiveOrders.erase_refs_sublist.subset hmem)
      (congrArg some)
  | trade => exact Or.inl href

theorem Flow.nodup (h : Flow next live m next' live') (hnd : (live.map Prod.fst).Nodup)
    (hfresh : m.payload.creates = some next → next ∉ live.map Prod.fst) :
    (live'.map Prod.fst).Nodup := by
  cases h with
  | systemEvent => exact hnd
  | stockDirectory => exact hnd
  | addOrder => exact LiveOrders.put_refs_nodup hnd (hfresh rfl)
  | addOrderMPID => exact LiveOrders.put_refs_nodup hnd (hfresh rfl)
  | orderExecuted => exact hnd.sublist LiveOrders.reduce_refs_sublist
  | orderCancel => exact hnd.sublist LiveOrders.reduce_refs_sublist
  | orderDelete => exact hnd.sublist LiveOrders.erase_refs_sublist
  | orderReplace =>
    exact LiveOrders.put_refs_nodup (hnd.sublist LiveOrders.erase_refs_sublist)
      (LiveOrders.not_mem_erase (hfresh rfl) _)
  | trade => exact hnd

/-- A reader follows the generator. -/
theorem Flow.map_sharesLeft (h : Flow next live m next' live') (hnd : (live.map Prod.fst).Nodup)
    (hpos : live.Positive) (hfresh : m.payload.creates = some next → next ∉ live.map Prod.fst) :
    live'.map sharesLeft = m.payload.follow (live.map sharesLeft) := by
  cases h with
  | systemEvent => rfl
  | stockDirectory => rfl
  | addOrder =>
    rw [LiveOrders.put_of_not_mem (hfresh rfl), List.map_append]
    rfl
  | addOrderMPID =>
    rw [LiveOrders.put_of_not_mem (hfresh rfl), List.map_append]
    rfl
  | orderExecuted matchNumber hmem hne hle => exact LiveOrders.map_reduce hnd hpos hmem hle
  | orderCancel hmem hne hle => exact LiveOrders.map_reduce hnd hpos hmem hle
  | orderDelete => exact LiveOrders.map_erase
  | orderReplace =>
    rw [LiveOrders.put_of_not_mem (LiveOrders.not_mem_erase (hfresh rfl) _), List.map_append,
      LiveOrders.map_erase]
    rfl
  | trade => rfl

/-- The order that a message is about is outstanding, if the reader knows of it what the
generator does. -/
theorem Flow.namesOutstanding (h : Flow next live m next' live')
    (hout : ∀ e ∈ live, m.payload.uses = some e.1 → sharesLeft e ∈ outstanding msgs) :
    NamesOutstanding msgs (m.message locate tracking ts) := by
  have hshares : ∀ {shares : Shares}, shares ≠ 0 → 1 ≤ shares.toNat := by
    intro shares hne
    exact Nat.one_le_iff_ne_zero.mpr fun e => hne (UInt32.toNat_inj.mp e)
  cases h with
  | orderExecuted matchNumber hmem hne hle =>
    exact ⟨_, hout _ hmem rfl, hshares hne, UInt32.le_iff_toNat_le.mp hle⟩
  | orderCancel hmem hne hle =>
    exact ⟨_, hout _ hmem rfl, hshares hne, UInt32.le_iff_toNat_le.mp hle⟩
  | orderDelete hmem => exact ⟨_, hout _ hmem rfl⟩
  | orderReplace price hmem => exact ⟨_, hout _ hmem rfl⟩
  | _ => trivial

/-- **A message keeps the accounts of the generator and of a reader in step.** -/
theorem Account.flow (h : Account live msgs) (hpos : live.Positive)
    (hflow : Flow next live m next' live')
    (hfresh : m.payload.creates = some next → next ∉ createdRefs msgs) :
    Account live' (msgs ++ [m.message locate tracking ts]) := by
  have hlive : m.payload.creates = some next → next ∉ live.map Prod.fst :=
    fun e hmem => hfresh e (h.live_created next hmem)
  have hpayload : (m.message locate tracking ts).payload = m.payload := rfl
  have hcreated : ∀ ref, ref ∈ live.map Prod.fst ∨ m.payload.creates = some ref →
      ref ∈ createdRefs (msgs ++ [m.message locate tracking ts]) := by
    intro ref href
    rw [createdRefs_concat, List.mem_append, hpayload, Option.mem_toList]
    exact href.imp_left (h.live_created ref)
  exact {
    nodup := hflow.nodup h.nodup hlive
    live_created := fun ref href => hcreated ref (hflow.live_refs href)
    mentions_created := by
      intro ref href
      rw [List.flatMap_append, List.mem_append] at href
      rcases href with href | href
      · rw [createdRefs_concat]
        exact List.mem_append_left _ (h.mentions_created ref href)
      · rw [List.flatMap_singleton] at href
        exact hcreated ref (hflow.mentions href)
    outstanding_eq := by
      rw [outstanding_concat, h.outstanding_eq]
      exact (hflow.map_sharesLeft h.nodup hpos hlive).symm
    fresh := by
      refine h.fresh.concat fun ref href hmem => ?_
      obtain ⟨hnone, -⟩ | ⟨hsome, -⟩ := hflow.creates_cases
      · rw [hpayload, hnone] at href
        cases href
      · rw [hpayload, hsome] at href
        cases href
        exact hfresh hsome (h.mentions_created next hmem)
    names := h.names.concat (hflow.namesOutstanding fun e he _ => by
      rw [h.outstanding_eq]
      exact List.mem_map_of_mem he) }

end Account

end Liquibook
