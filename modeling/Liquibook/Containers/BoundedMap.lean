import Liquibook.Containers.HashMap
import Mathlib.Order.Bounds.Defs

/-!
# The hash map as a bounded map

What the caller of the hash map may rely on.  It makes calls and keeps a record of
them with their replies, and from the record alone it can tell what the map holds:
under every key the value of the last successful `insert` of the key, unless a
successful `erase` of it came later.  The map holds no more keys than it has slots,
and it uses all of them: an `insert` of a new key fails on a full map only, however
many tombstones the calls before have left.

## Main definitions

* `MapCall`, `MapReply`, `OpenAddressingHashMap.call`, `OpenAddressingHashMap.run` —
  calls as data, and runs of them with their record.
* `remembered` — what the record says the map holds.
* `OpenAddressingHashMap.Implements` — the map is a bounded map with given contents.
* `reinsertions` — the calls that erase keys and insert them again, one after another.

## Main results

* `Inv.call` — **a call keeps the invariant and does what its reply says.**
* `hashMap_implements_boundedMap` — **every run of the map is one of a bounded map.**
* `reinsertion_keeps_counts` — **erasing keys and inserting them again leaves no
  tombstones behind.**
-/

namespace Liquibook

open Lib

/-- A call of the map. -/
inductive MapCall (K V : Type) where
  | insert (key : K) (value : V)
  | find (key : K)
  | erase (key : K)
  deriving DecidableEq, Repr

/-- What a call returns. -/
inductive MapReply (V : Type) where
  | inserted (ok : Bool)
  | found (value : Option V)
  | erased (ok : Bool)
  deriving DecidableEq, Repr

section Record

variable {K V : Type} [DecidableEq K]

/-- What a call and its reply say about the contents. -/
def remember (contents : K → Option V) : MapCall K V × MapReply V → K → Option V
  | (.insert key value, .inserted true) => Function.update contents key (some value)
  | (.erase key, .erased true) => Function.update contents key none
  | _ => contents

/-- What a record says the map holds: under every key the value of the last
successful `insert` that no successful `erase` has followed. -/
def remembered (record : List (MapCall K V × MapReply V)) : K → Option V :=
  record.foldl remember fun _ => none

end Record

namespace OpenAddressingHashMap

variable {K V : Type} [Inhabited K] [Inhabited V] [DecidableEq K] [ToUInt64 K]

/-- Make a call. -/
def call (m : OpenAddressingHashMap K V) :
    MapCall K V → MapReply V × OpenAddressingHashMap K V
  | .insert key value => (.inserted (m.insert key value).1, (m.insert key value).2)
  | .find key => (.found (m.find key), m)
  | .erase key => (.erased (m.erase key).1, (m.erase key).2)

/-- Make a sequence of calls, and keep a record of them with their replies. -/
def run (m : OpenAddressingHashMap K V) :
    List (MapCall K V) → List (MapCall K V × MapReply V) × OpenAddressingHashMap K V
  | [] => ([], m)
  | c :: calls =>
      ((c, (m.call c).1) :: ((m.call c).2.run calls).1, ((m.call c).2.run calls).2)

/-- The map is a bounded map with these contents. -/
structure Implements (m : OpenAddressingHashMap K V) (contents : K → Option V) : Prop where
  find_eq : ∀ key, m.find key = contents key
  insert_fails_iff : ∀ key value, (m.insert key value).1 = false ↔
    (contents key).isSome ∨ m.size = m.capacity
  insert_unchanged : ∀ key value, (m.insert key value).1 = false → (m.insert key value).2 = m
  erase_succeeds_iff : ∀ key, (m.erase key).1 = true ↔ (contents key).isSome
  /-- No key occupies two slots. -/
  slot_unique : ∀ i j, i < m.capacity → j < m.capacity → (m.slots i).state = .occupied →
    (m.slots j).state = .occupied → (m.slots i).key = (m.slots j).key → i = j
  /-- The size is the number of keys present. -/
  size_eq : ∃ keys : Finset K, (∀ key, key ∈ keys ↔ (contents key).isSome) ∧ m.size = keys.card
  tombstones_eq : m.tombstones = m.countState .tombstone

/-! ### The capacity -/

/-- **The capacity is the least power of two that is large enough.** -/
theorem isLeast_roundUpToPowerOfTwo (n : ℕ) :
    IsLeast { c | (∃ k, c = 2 ^ k) ∧ max n 1 ≤ c } (roundUpToPowerOfTwo n) := by
  obtain ⟨k, hk⟩ := roundUpToPowerOfTwo_eq_pow n
  refine ⟨⟨⟨k, hk⟩, max_le (le_roundUpToPowerOfTwo n) (hk ▸ Nat.one_le_two_pow)⟩, ?_⟩
  rintro c ⟨⟨j, rfl⟩, hle⟩
  unfold roundUpToPowerOfTwo bitWidth
  split
  · exact Nat.one_le_two_pow
  · next hn =>
    rw [if_neg (by omega), Nat.one_shiftLeft]
    -- the power below the result does not reach `n`
    have hlog : 2 ^ (n - 1).log2 ≤ n - 1 := Nat.log2_self_le (by omega)
    have hlt : 2 ^ (n - 1).log2 < 2 ^ j := by
      have := le_max_left n 1
      omega
    exact Nat.pow_le_pow_right (by omega) ((Nat.pow_lt_pow_iff_right (by omega)).mp hlt)

/-! ### A state -/

namespace Inv

variable {m : OpenAddressingHashMap K V} {key : K} {value : V} {contents : K → Option V}

theorem size_le_capacity (h : Inv m) : m.size ≤ m.capacity := by
  rw [h.size_eq, countState]
  exact (Finset.card_filter_le _ _).trans (Finset.card_range _).le

/-- A full map refuses every key. -/
theorem insert_full (h : Inv m) (hsize : m.size = m.capacity) :
    m.insert key value = (false, m) := by
  by_cases hf : m.find key = none
  · rcases h.insertFrom_absent hf with ⟨t, w, -, hpath, hstate⟩ | ⟨hout, -⟩
    · -- the slot it would go into is not occupied, so the map is not full
      have hnot : (m.slots t).state ≠ .occupied := by
        rw [hstate]
        cases w <;> simp
      have hlt : m.countState .occupied < m.capacity := by
        have hsub : (Finset.range m.capacity).filter (fun i => (m.slots i).state = .occupied) ⊂
            Finset.range m.capacity := by
          refine Finset.filter_ssubset.mpr ⟨t, Finset.mem_range.mpr hpath.lt_cap, hnot⟩
        have := Finset.card_lt_card hsub
        rwa [Finset.card_range] at this
      have := h.size_eq
      omega
    · rw [insert, hout]
  · exact h.insert_present hf

theorem insert_false_iff (h : Inv m) :
    (m.insert key value).1 = false ↔ (m.find key).isSome ∨ m.size = m.capacity := by
  constructor
  · intro hfail
    by_contra hcon
    rw [not_or, Option.not_isSome_iff_eq_none] at hcon
    have hlt := lt_of_le_of_ne h.size_le_capacity hcon.2
    obtain ⟨m', (hm : m.insert key value = (true, m')), -⟩ := h.insert_absent hcon.1 hlt
    rw [hm] at hfail
    cases hfail
  · rintro (hsome | hfull)
    · rw [h.insert_present (Option.isSome_iff_ne_none.mp hsome)]
    · rw [h.insert_full hfull]

theorem erase_true_iff (h : Inv m) : (m.erase key).1 = true ↔ (m.find key).isSome := by
  cases hf : m.find key with
  | none =>
    rw [erase_absent hf]
    simp
  | some v =>
    obtain ⟨m', hm, -⟩ := h.erase_present hf
    rw [hm]
    simp

theorem slot_unique (h : Inv m) {i j : ℕ} (hi : i < m.capacity) (hj : j < m.capacity)
    (hocci : (m.slots i).state = .occupied) (hoccj : (m.slots j).state = .occupied)
    (hkey : (m.slots i).key = (m.slots j).key) : i = j := by
  have hli := h.locate_key i hi hocci
  have hlj := h.locate_key j hj hoccj
  rw [hkey, hlj] at hli
  exact (Option.some.inj hli).symm

/-- The keys of the occupied slots are the keys that are found, and there are as many
as the size says. -/
theorem exists_keys (h : Inv m) :
    ∃ keys : Finset K, (∀ key, key ∈ keys ↔ (m.find key).isSome) ∧ m.size = keys.card := by
  refine ⟨((Finset.range m.capacity).filter fun i => (m.slots i).state = .occupied).image
    fun i => (m.slots i).key, fun key => ?_, ?_⟩
  · simp only [Finset.mem_image, Finset.mem_filter, Finset.mem_range]
    rw [find, Option.isSome_map]
    constructor
    · rintro ⟨i, ⟨hi, hocc⟩, rfl⟩
      rw [h.locate_key i hi hocc]
      rfl
    · intro hsome
      obtain ⟨i, hloc⟩ := Option.isSome_iff_exists.mp hsome
      obtain ⟨hpath, hocc, hkey⟩ := h.toShaped.locate_eq_some_iff.mp hloc
      exact ⟨i, ⟨hpath.lt_cap, hocc⟩, hkey⟩
  · rw [h.size_eq, countState, Finset.card_image_of_injOn]
    intro i hi j hj hkey
    rw [Finset.mem_coe, Finset.mem_filter, Finset.mem_range] at hi hj
    exact h.slot_unique hi.1 hj.1 hi.2 hj.2 hkey

/-- A map in good order is a bounded map. -/
theorem implements (h : Inv m) (hc : ∀ key, m.find key = contents key) :
    Implements m contents where
  find_eq := hc
  insert_fails_iff key value := by rw [← hc]; exact h.insert_false_iff
  insert_unchanged key value hfail := by
    rcases h.insert_false_iff.mp hfail with hsome | hfull
    · rw [h.insert_present (Option.isSome_iff_ne_none.mp hsome)]
    · rw [h.insert_full hfull]
  erase_succeeds_iff key := by rw [← hc]; exact h.erase_true_iff
  slot_unique i j hi hj hocci hoccj hkey := h.slot_unique hi hj hocci hoccj hkey
  size_eq := by
    obtain ⟨keys, hkeys, hsize⟩ := h.exists_keys
    exact ⟨keys, fun key => by rw [hkeys, hc], hsize⟩
  tombstones_eq := h.tombstones_eq

/-! ### A call, and a run -/

/-- **A call keeps the invariant and does what its reply says.** -/
theorem call (h : Inv m) (hc : ∀ key, m.find key = contents key) (c : MapCall K V) :
    Inv (m.call c).2 ∧ (m.call c).2.capacity = m.capacity ∧
      ∀ key, (m.call c).2.find key = remember contents (c, (m.call c).1) key := by
  cases c with
  | insert key value =>
    simp only [OpenAddressingHashMap.call]
    by_cases hfail : (m.insert key value).1 = false
    · rw [(h.implements hc).insert_unchanged key value hfail, hfail]
      exact ⟨h, rfl, hc⟩
    · rw [h.insert_false_iff, not_or, Option.not_isSome_iff_eq_none] at hfail
      have hlt := lt_of_le_of_ne h.size_le_capacity hfail.2
      obtain ⟨m', (hm : m.insert key value = (true, m')), hinv, hcap, -, hfind⟩ :=
        h.insert_absent hfail.1 hlt
      rw [hm]
      refine ⟨hinv, hcap, fun k => ?_⟩
      rw [hfind, hc]
      exact (Function.update_apply _ _ _ _).symm
  | find key => exact ⟨h, rfl, hc⟩
  | erase key =>
    simp only [OpenAddressingHashMap.call]
    cases hf : m.find key with
    | none =>
      rw [erase_absent hf]
      exact ⟨h, rfl, hc⟩
    | some v =>
      obtain ⟨m', hm, hinv, hcap, -, -, hfind⟩ := h.erase_present hf
      rw [hm]
      refine ⟨hinv, hcap, fun k => ?_⟩
      rw [hfind, hc]
      exact (Function.update_apply _ _ _ _).symm

theorem run (h : Inv m) (hc : ∀ key, m.find key = contents key) (calls : List (MapCall K V)) :
    Inv (m.run calls).2 ∧ (m.run calls).2.capacity = m.capacity ∧
      ∀ key, (m.run calls).2.find key = (m.run calls).1.foldl remember contents key := by
  induction calls generalizing m contents with
  | nil => exact ⟨h, rfl, hc⟩
  | cons c calls ih =>
    obtain ⟨hinv, hcap, hfind⟩ := h.call hc c
    obtain ⟨hinv', hcap', hfind'⟩ := ih hinv hfind
    exact ⟨hinv', hcap'.trans hcap, hfind'⟩

end Inv

/-- **Every run of the map is one of a bounded map**, whose contents can be read off
the record of the run. -/
theorem hashMap_implements_boundedMap (capacityHint : ℕ) (calls : List (MapCall K V)) :
    Implements ((new K V capacityHint).run calls).2
        (remembered ((new K V capacityHint).run calls).1) ∧
      IsLeast { c | (∃ k, c = 2 ^ k) ∧ max capacityHint 1 ≤ c }
        ((new K V capacityHint).run calls).2.capacity := by
  obtain ⟨hinv, hcap, hfind⟩ :=
    (inv_new capacityHint).run (find_new (K := K) (V := V) capacityHint) calls
  refine ⟨hinv.implements hfind, ?_⟩
  rw [hcap]
  exact isLeast_roundUpToPowerOfTwo capacityHint

/-! ### Erasing a key and inserting it again -/

/-- Erase each key and insert it again with a new value, one key after another. -/
def reinsertions (cycles : List (K × V)) : List (MapCall K V) :=
  cycles.flatMap fun c => [.erase c.1, .insert c.1 c.2]

namespace Inv

variable {m : OpenAddressingHashMap K V} {key : K} {value old : V}

/-- The probe of `insert` meets a tombstone before any empty slot when the slots up to
the tombstone let the probe for the key pass. -/
theorem insertFrom_of_tombstone (h : Inv m) (hf : m.find key = none) {t : ℕ}
    (hpath : PathTo m.capacity (m.probeStart key) (m.Passes key) t)
    (htomb : (m.slots t).state = .tombstone) :
    ∃ u, m.insertFrom key m.capacity (m.probeStart key) none = .place u true ∧
      PathTo m.capacity (m.probeStart key) (m.HoldsOther key) u ∧
      (m.slots u).state = .tombstone := by
  have hnot : ¬ m.HoldsOther key t := by
    intro ho
    rw [ho.1] at htomb
    cases htomb
  rcases h.insertFrom_absent hf with ⟨u, w, hout, hpathu, hstate⟩ | ⟨-, hfull⟩
  · cases w with
    | true => exact ⟨u, hout, hpathu, hstate⟩
    | false =>
      -- an empty slot before the tombstone stops the probe for the key, and the
      -- tombstone before an empty slot is taken first
      obtain ⟨j, hj, rfl, hpass⟩ := hpath
      obtain ⟨k, hk, rfl, hother⟩ := hpathu
      rcases Nat.lt_trichotomy j k with hlt | rfl | hgt
      · exact absurd (hother j hlt) hnot
      · rw [htomb] at hstate
        cases hstate
      · exact absurd hstate (hpass k hgt).1
  · exact absurd (hfull t hpath.lt_cap) hnot

/-- **A key erased and inserted again** takes one of the tombstones on its way, so both
counters come back to where they were. -/
theorem erase_insert (h : Inv m) (hf : m.find key = some old) (value : V) :
    ∃ m₁ m₂, m.erase key = (true, m₁) ∧ m₁.insert key value = (true, m₂) ∧ Inv m₂ ∧
      m₂.size = m.size ∧ m₂.tombstones = m.tombstones ∧
      ∀ k, m₂.find k = if k = key then some value else m.find k := by
  obtain ⟨m₁, herase, hinv, hcap, hsize, htombs, hfind⟩ := h.erase_present hf
  obtain ⟨t, hloc, -⟩ := Option.map_eq_some_iff.mp hf
  have hpath := (h.toShaped.locate_eq_some_iff.mp hloc).1
  have hm₁ : m₁ = { m with
      slots := Function.update m.slots t { state := .tombstone }
      size := m.size - 1
      tombstones := m.tombstones + 1 } := by
    rw [erase, hloc] at herase
    exact (Prod.mk.inj herase).2.symm
  have hself : (m₁.slots t).state = .tombstone := by
    rw [hm₁]
    exact congrArg Slot.state (Function.update_self t _ m.slots)
  have hslots : ∀ j, j ≠ t → m₁.slots j = m.slots j := by
    intro j hj
    rw [hm₁]
    exact Function.update_of_ne hj _ _
  have hstart : m₁.probeStart key = m.probeStart key := by rw [hm₁]; rfl
  have hpath₁ : PathTo m₁.capacity (m₁.probeStart key) (m₁.Passes key) t := by
    rw [hcap, hstart]
    refine hpath.mono fun k _ hkt hk => ?_
    rw [Passes, Holds, hslots k hkt]
    exact hk
  have hnone : m₁.find key = none := by rw [hfind, if_pos rfl]
  obtain ⟨u, hout, hpathu, hstate⟩ := hinv.insertFrom_of_tombstone hnone hpath₁ hself
  obtain ⟨hinv₂, hfind₂⟩ := hinv.place hnone value (w := true) hpathu hstate
  refine ⟨m₁, m₁.place u key value true, herase, by rw [insert, hout], hinv₂, hsize, ?_, ?_⟩
  · show m₁.tombstones - 1 = m.tombstones
    rw [htombs]
    rfl
  · intro k
    rw [hfind₂, hfind]
    by_cases hk : k = key
    · rw [if_pos hk, if_pos hk]
    · rw [if_neg hk, if_neg hk, if_neg hk]

/-- Keys that are present stay present and the counters stay where they are, however
many keys are erased and inserted again. -/
theorem run_reinsertions (h : Inv m) (cycles : List (K × V))
    (hpresent : ∀ c ∈ cycles, (m.find c.1).isSome) :
    (m.run (reinsertions cycles)).2.size = m.size ∧
      (m.run (reinsertions cycles)).2.tombstones = m.tombstones := by
  induction cycles generalizing m with
  | nil => exact ⟨rfl, rfl⟩
  | cons c cycles ih =>
    obtain ⟨old, hold⟩ := Option.isSome_iff_exists.mp (hpresent c List.mem_cons_self)
    obtain ⟨m₁, m₂, herase, hinsert, hinv, hsize, htombs, hfind⟩ := h.erase_insert hold c.2
    have hrun : (m.run (reinsertions (c :: cycles))).2 = (m₂.run (reinsertions cycles)).2 := by
      simp only [reinsertions, List.flatMap_cons, List.cons_append, List.nil_append,
        OpenAddressingHashMap.run, OpenAddressingHashMap.call, herase, hinsert]
    have hstill : ∀ d ∈ cycles, (m₂.find d.1).isSome := by
      intro d hd
      rw [hfind]
      split
      · rfl
      · exact hpresent d (List.mem_cons_of_mem _ hd)
    rw [hrun, ← hsize, ← htombs]
    exact ih hinv hstill

end Inv

/-- **Erasing a key and inserting it again leaves no tombstone behind**, in every state
that calls can reach: both calls succeed, the counters come back to where they were, and
only the value under the key has changed.  So any number of such cycles, on any keys that
are present, leaves both counters alone. -/
theorem reinsertion_keeps_counts (capacityHint : ℕ) (calls : List (MapCall K V)) :
    let m := ((new K V capacityHint).run calls).2
    (∀ key value, (m.find key).isSome →
      (m.erase key).1 = true ∧ ((m.erase key).2.insert key value).1 = true ∧
      ((m.erase key).2.insert key value).2.size = m.size ∧
      ((m.erase key).2.insert key value).2.tombstones = m.tombstones ∧
      ((m.erase key).2.insert key value).2.find key = some value ∧
      ∀ k, k ≠ key → ((m.erase key).2.insert key value).2.find k = m.find k) ∧
    ∀ cycles : List (K × V), (∀ c ∈ cycles, (m.find c.1).isSome) →
      (m.run (reinsertions cycles)).2.size = m.size ∧
      (m.run (reinsertions cycles)).2.tombstones = m.tombstones := by
  intro m
  have hinv : Inv m :=
    ((inv_new capacityHint).run (find_new (K := K) (V := V) capacityHint) calls).1
  refine ⟨?_, fun cycles => hinv.run_reinsertions cycles⟩
  intro key value hsome
  obtain ⟨old, hold⟩ := Option.isSome_iff_exists.mp hsome
  obtain ⟨m₁, m₂, herase, hinsert, -, hsize, htombs, hfind⟩ := hinv.erase_insert hold value
  rw [herase]
  dsimp only
  rw [hinsert]
  refine ⟨rfl, rfl, hsize, htombs, by rw [hfind, if_pos rfl], fun k hk => ?_⟩
  rw [hfind, if_neg hk]

/-- A 32-bit key is widened. -/
instance : ToUInt64 UInt32 := ⟨UInt32.toUInt64⟩

/-- In a table of two slots with one key and one tombstone left by another. -/
theorem reinsertion_keeps_counts_full_table :
    let m := ((new UInt32 ℕ 2).run [.insert 1 10, .insert 2 20, .erase 1]).2
    ((m.erase 2).2.insert 2 30).2.size = m.size ∧
      ((m.erase 2).2.insert 2 30).2.tombstones = m.tombstones ∧
      (m.run (reinsertions [(2, 30), (2, 40)])).2.tombstones = 1 := by
  have h := reinsertion_keeps_counts (K := UInt32) (V := ℕ) 2
    [.insert 1 10, .insert 2 20, .erase 1]
  have hone := h.1 2 30 (by decide)
  have hmany := h.2 [(2, 30), (2, 40)] (by decide)
  exact ⟨hone.2.2.1, hone.2.2.2.1, hmany.2.trans (by decide)⟩

end OpenAddressingHashMap
end Liquibook
