import Liquibook.Containers.BoundedMap

/-!
# What a call of the hash map costs

A call reads slots from the start of the probe for its key onwards, until it meets the key
or an empty slot or has been around once.  The three loops read the same slots.  So what a
call costs depends on how far the empty slots are, and no call ever makes a slot empty:
`erase` leaves a tombstone, and the tombstones that `insert` takes were not empty either.
The slots in use, the numerator of `load_factor`, never become fewer.

## Main definitions

* `probes`, `insertProbes` — the number of slots that `find` and `erase`, and `insert`, read.
* `used` — the slots in use.

## Main results

* `insertProbes_eq` — all calls with a key read the same slots.
* `Inv.probes_le` — **no more slots are read than are in use, and one.**
* `Inv.used_call` — a call takes at most one more slot into use, and frees none.
* `lookups_degrade` — **what the calls of a run cost, and that they never get cheaper.**
-/

namespace Liquibook

open Lib

namespace OpenAddressingHashMap

variable {K V : Type} [Inhabited K] [Inhabited V] [DecidableEq K] [ToUInt64 K]

/-- The number of slots that the loop of `find` and `erase` reads, with `n` probes left. -/
def probesFrom (m : OpenAddressingHashMap K V) (key : K) : ℕ → ℕ → ℕ
  | 0, _ => 0
  | n + 1, index =>
      if (m.slots index).state = .empty then 1
      else if m.Holds key index then 1
      else probesFrom m key n ((index + 1) &&& m.mask) + 1

/-- The number of slots that `find` and `erase` read. -/
def probes (m : OpenAddressingHashMap K V) (key : K) : ℕ :=
  m.probesFrom key m.capacity (m.probeStart key)

/-- The number of slots that the loop of `insert` reads, with `n` probes left. -/
def insertProbesFrom (m : OpenAddressingHashMap K V) (key : K) : ℕ → ℕ → ℕ
  | 0, _ => 0
  | n + 1, index =>
      match (m.slots index).state with
      | .empty => 1
      | .tombstone => insertProbesFrom m key n ((index + 1) &&& m.mask) + 1
      | .occupied =>
          if (m.slots index).key = key then 1
          else insertProbesFrom m key n ((index + 1) &&& m.mask) + 1

/-- The number of slots that `insert` reads. -/
def insertProbes (m : OpenAddressingHashMap K V) (key : K) : ℕ :=
  m.insertProbesFrom key m.capacity (m.probeStart key)

/-- The slots in use. -/
def used (m : OpenAddressingHashMap K V) : Finset ℕ :=
  (Finset.range m.capacity).filter fun i => (m.slots i).state ≠ .empty

/-! ### What is read -/

variable {m : OpenAddressingHashMap K V} {key : K} {value : V}

omit [DecidableEq K] [ToUInt64 K] in
theorem mem_used {i : ℕ} : i ∈ m.used ↔ i < m.capacity ∧ (m.slots i).state ≠ .empty := by
  rw [used, Finset.mem_filter, Finset.mem_range]

omit [ToUInt64 K] in
theorem insertProbesFrom_eq (m : OpenAddressingHashMap K V) (key : K) : ∀ n index,
    m.insertProbesFrom key n index = m.probesFrom key n index := by
  intro n
  induction n with
  | zero => exact fun _ => rfl
  | succ n ih =>
    intro index
    rw [insertProbesFrom, probesFrom, ih]
    cases hstate : (m.slots index).state with
    | empty => simp
    | tombstone => simp [Holds, hstate]
    | occupied => simp [Holds, hstate]

/-- All calls with a key read the same slots. -/
theorem insertProbes_eq (m : OpenAddressingHashMap K V) (key : K) :
    m.insertProbes key = m.probes key := insertProbesFrom_eq m key _ _

omit [ToUInt64 K] in
theorem probesFrom_le (m : OpenAddressingHashMap K V) (key : K) : ∀ n index,
    m.probesFrom key n index ≤ n := by
  intro n
  induction n with
  | zero => exact fun _ => le_rfl
  | succ n ih =>
    intro index
    rw [probesFrom]
    split
    · omega
    · split
      · omega
      · exact Nat.succ_le_succ (ih _)

omit [ToUInt64 K] in
/-- All slots that are read, but the last, let the probe pass. -/
theorem Shaped.passes_of_lt_probesFrom (h : Shaped m) (key : K) (start : ℕ) : ∀ n j k,
    j ≤ k → k + 1 < j + m.probesFrom key n (probe m.capacity start j) →
      m.Passes key (probe m.capacity start k) := by
  intro n
  induction n with
  | zero =>
    intro j k hj hk
    rw [probesFrom] at hk
    omega
  | succ n ih =>
    intro j k hj hk
    rw [probesFrom] at hk
    split at hk
    · omega
    · next hempty =>
      split at hk
      · omega
      · next hholds =>
        rw [h.next_probe] at hk
        rcases Nat.eq_or_lt_of_le hj with rfl | hlt
        · exact ⟨hempty, hholds⟩
        · exact ih (j + 1) k hlt (by omega)

omit [ToUInt64 K] in
/-- A probe that nothing stops reads all slots. -/
theorem probesFrom_of_passes (h : Shaped m) (hpass : ∀ i, i < m.capacity → m.Passes key i) :
    ∀ n index, index < m.capacity → m.probesFrom key n index = n := by
  intro n
  induction n with
  | zero => exact fun _ _ => rfl
  | succ n ih =>
    intro index hindex
    obtain ⟨hempty, hholds⟩ := hpass index hindex
    rw [probesFrom, if_neg hempty, if_neg hholds, ih]
    rw [h.and_mask]
    exact Nat.mod_lt _ h.capacity_pos

namespace Inv

/-- The slots in use are those of the keys and the tombstones. -/
theorem card_used (h : Inv m) : m.used.card = m.size + m.tombstones := by
  rw [h.size_eq, h.tombstones_eq, countState, countState, ← Finset.card_union_of_disjoint,
    ← Finset.filter_or, used]
  · congr 1
    refine Finset.filter_congr fun i _ => ?_
    cases (m.slots i).state <;> simp
  · refine Finset.disjoint_filter.mpr fun i _ hocc htomb => ?_
    rw [hocc] at htomb
    cases htomb

/-- **No more slots are read than are in use, and one.** -/
theorem probes_le (h : Inv m) (key : K) :
    m.probes key ≤ m.capacity ∧ m.probes key ≤ m.size + m.tombstones + 1 := by
  refine ⟨m.probesFrom_le key _ _, ?_⟩
  have hle : m.probes key ≤ m.capacity := m.probesFrom_le key _ _
  have hpass : ∀ k, k + 1 < m.probes key →
      m.Passes key (probe m.capacity (m.probeStart key) k) := by
    intro k hk
    refine h.toShaped.passes_of_lt_probesFrom key (m.probeStart key) m.capacity 0 k
      (Nat.zero_le k) ?_
    rw [probe_zero (h.probeStart_lt key), Nat.zero_add]
    exact hk
  -- they are different slots
  have hcard : (Finset.range (m.probes key - 1)).card ≤ m.used.card := by
    refine Finset.card_le_card_of_injOn (probe m.capacity (m.probeStart key)) ?_ ?_
    · intro k hk
      rw [Finset.mem_coe, Finset.mem_range] at hk
      rw [Finset.mem_coe, mem_used]
      exact ⟨probe_lt h.capacity_pos _ _, (hpass k (by omega)).1⟩
    · intro k hk k' hk' heq
      rw [Finset.mem_coe, Finset.mem_range] at hk hk'
      exact probe_injOn (by omega) (by omega) heq
  rw [Finset.card_range, h.card_used] at hcard
  omega

/-- When all slots are in use, an absent key is looked for in each of them. -/
theorem probes_eq_capacity (h : Inv m) (hfull : m.size + m.tombstones = m.capacity)
    (hf : m.find key = none) : m.probes key = m.capacity := by
  have hall : m.used = Finset.range m.capacity := by
    refine Finset.eq_of_subset_of_card_le (Finset.filter_subset _ _) ?_
    rw [Finset.card_range, h.card_used, hfull]
  refine probesFrom_of_passes h.toShaped (fun i hi => ⟨?_, ?_⟩) _ _ (h.probeStart_lt key)
  · have hused : i ∈ m.used := hall ▸ Finset.mem_range.mpr hi
    exact (mem_used.mp hused).2
  · exact h.not_holds_of_locate_none (find_eq_none_iff.mp hf) hi

end Inv

/-! ### What a call does to the slots in use -/

/-- Whether a call has put a key into the map. -/
def hasInserted : MapCall K V × MapReply V → Bool
  | (_, .inserted ok) => ok
  | _ => false

omit [DecidableEq K] [ToUInt64 K] in
theorem used_place (m : OpenAddressingHashMap K V) {index : ℕ} (hindex : index < m.capacity)
    (key : K) (value : V) (wasTombstone : Bool) :
    (m.place index key value wasTombstone).used = m.used ∪ {index} := by
  ext i
  rw [Finset.mem_union, Finset.mem_singleton, mem_used, mem_used]
  change i < m.capacity ∧ (Function.update m.slots index _ i).state ≠ .empty ↔ _
  by_cases hi : i = index
  · rw [hi, Function.update_self]
    simp [hindex]
  · rw [Function.update_of_ne hi, or_iff_left hi]

theorem used_erase (m : OpenAddressingHashMap K V) (h : Shaped m) (key : K) :
    (m.erase key).2.used = m.used := by
  unfold erase
  cases hloc : m.locate key with
  | none => rfl
  | some t =>
    obtain ⟨-, hocc, -⟩ := h.locate_eq_some_iff.mp hloc
    ext i
    rw [mem_used, mem_used]
    change i < m.capacity ∧ (Function.update m.slots t _ i).state ≠ .empty ↔ _
    by_cases hi : i = t
    · rw [hi, hocc, Function.update_self]
      simp
    · rw [Function.update_of_ne hi]

namespace Inv

/-- **A call takes at most one more slot into use**, and frees none. -/
theorem used_call (h : Inv m) (c : MapCall K V) : m.used ⊆ (m.call c).2.used ∧
    (m.call c).2.used.card ≤ m.used.card + (hasInserted (c, (m.call c).1)).toNat := by
  cases c with
  | find key => exact ⟨Finset.Subset.refl _, Nat.le_add_right _ _⟩
  | erase key =>
    rw [OpenAddressingHashMap.call, m.used_erase h.toShaped key]
    exact ⟨Finset.Subset.refl _, Nat.le_add_right _ _⟩
  | insert key value =>
    rw [OpenAddressingHashMap.call]
    by_cases hf : m.find key = none
    · rcases h.insertFrom_absent hf with ⟨t, w, hout, hpath, -⟩ | ⟨hout, -⟩
      · have hinsert : m.insert key value = (true, m.place t key value w) := by
          rw [OpenAddressingHashMap.insert, hout]
        rw [hinsert, m.used_place hpath.lt_cap]
        exact ⟨Finset.subset_union_left, Finset.card_union_le _ _⟩
      · have hinsert : m.insert key value = (false, m) := by
          rw [OpenAddressingHashMap.insert, hout]
        rw [hinsert]
        exact ⟨Finset.Subset.refl _, Nat.le_add_right _ _⟩
    · rw [h.insert_present hf]
      exact ⟨Finset.Subset.refl _, Nat.le_add_right _ _⟩

/-- Along a run no slot is freed, and each key put in takes at most one into use. -/
theorem used_run (h : Inv m) (calls : List (MapCall K V)) : m.used ⊆ (m.run calls).2.used ∧
    (m.run calls).2.used.card ≤
      m.used.card + ((m.run calls).1.filter hasInserted).length := by
  induction calls generalizing m with
  | nil => exact ⟨Finset.Subset.refl _, Nat.le_add_right _ _⟩
  | cons c calls ih =>
    obtain ⟨hsub, hcard⟩ := h.used_call c
    obtain ⟨hsub', hcard'⟩ := ih (h.call (fun _ => rfl) c).1
    refine ⟨hsub.trans hsub', hcard'.trans ?_⟩
    rw [OpenAddressingHashMap.run, List.filter_cons]
    cases hin : hasInserted (c, (m.call c).1) with
    | true =>
      rw [hin, Bool.toNat_true] at hcard
      rw [if_pos rfl, List.length_cons]
      omega
    | false =>
      rw [hin, Bool.toNat_false] at hcard
      rw [if_neg (by decide)]
      omega

end Inv

/-- **What the calls of a run cost.**  A call reads no more slots than the keys and the
tombstones take, and one; these are no more than keys have been put in, but they never
become fewer, and once they are all slots, every call with an absent key reads the whole
table from then on. -/
theorem lookups_degrade (capacityHint : ℕ) (calls later : List (MapCall K V)) :
    let m := ((new K V capacityHint).run calls).2
    let m' := (m.run later).2
    (∀ key, m.insertProbes key = m.probes key ∧ m.probes key ≤ m.capacity ∧
      m.probes key ≤ m.size + m.tombstones + 1) ∧
    m.size + m.tombstones ≤ (((new K V capacityHint).run calls).1.filter hasInserted).length ∧
    m.size + m.tombstones ≤ m'.size + m'.tombstones ∧
    (m.size + m.tombstones = m.capacity → ∀ key, m'.find key = none →
      m'.probes key = m.capacity) := by
  intro m m'
  have hnew : Inv (new K V capacityHint) := inv_new capacityHint
  have hinv : Inv m := (hnew.run (fun _ => rfl) calls).1
  have hinv' : Inv m' := (hinv.run (fun _ => rfl) later).1
  have hcap' : m'.capacity = m.capacity := (hinv.run (fun _ => rfl) later).2.1
  have hput := (hnew.used_run calls).2
  have hcard : m.used.card ≤ m'.used.card := Finset.card_le_card (hinv.used_run later).1
  rw [hinv.card_used, hinv'.card_used] at hcard
  rw [hinv.card_used, hnew.card_used] at hput
  refine ⟨fun key => ⟨m.insertProbes_eq key, hinv.probes_le key⟩, ?_, hcard, ?_⟩
  · exact hput.trans (Nat.zero_add _).le
  · intro hfull key hf
    have hle : m'.size + m'.tombstones ≤ m'.capacity := by
      rw [← hinv'.card_used, used]
      exact (Finset.card_filter_le _ _).trans (Finset.card_range _).le
    have hfull' : m'.size + m'.tombstones = m'.capacity := by omega
    rw [hinv'.probes_eq_capacity hfull' hf]
    exact hcap'

end OpenAddressingHashMap
end Liquibook
