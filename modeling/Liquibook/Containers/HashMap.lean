import Liquibook.Lib.Probing
import Mathlib.Logic.Function.Basic

/-!
# The open-addressing hash map

`containers/hash_map.hpp`: a fixed table of slots, each empty, occupied or a
tombstone, probed linearly from the mixed key.  The table is a function on
indices, of which only those below the capacity exist.  Sizes and indices stay
below the capacity, so they are natural numbers; `kNone` is `none`.

`find` and `erase` run the same probe loop (`locate`); `insert` runs its own,
which also remembers the first tombstone it passes.

## Main definitions

* `mix64`, `roundUpToPowerOfTwo` — the helpers of the `detail` namespace.
* `OpenAddressingHashMap`, `insert`, `find`, `erase` — the map of the source.
* `OpenAddressingHashMap.Inv` — every occupied slot is where the probe for its
  own key stops, and the two counters are the numbers of occupied slots and of
  tombstones.

## Main results

* `inv_new` — a new map is empty and satisfies the invariant.
* `Inv.insert_absent`, `Inv.insert_present` — what `insert` does to a key that is
  absent or present.
* `Inv.erase_present`, `Inv.erase_absent` — what `erase` does.
-/

namespace Liquibook

open Lib

/-- splitmix64's finalizer, `detail::mix64`. -/
def mix64 (x : UInt64) : UInt64 :=
  let x := x ^^^ (x >>> 30)
  let x := x * 0xbf58476d1ce4e5b9
  let x := x ^^^ (x >>> 27)
  let x := x * 0x94d049bb133111eb
  x ^^^ (x >>> 31)

/-- `std::bit_width` -/
def bitWidth (n : ℕ) : ℕ := if n = 0 then 0 else n.log2 + 1

/-- `detail::round_up_to_power_of_two` -/
def roundUpToPowerOfTwo (n : ℕ) : ℕ := if n ≤ 1 then 1 else 1 <<< bitWidth (n - 1)

/-- `std::convertible_to<K, std::uint64_t>` -/
class ToUInt64 (K : Type) where
  /-- `static_cast<std::uint64_t>(key)` -/
  toUInt64 : K → UInt64

/-- The 3-state slot marker. -/
inductive SlotState where
  | empty
  | occupied
  | tombstone
  deriving DecidableEq, Repr, Inhabited

/-- One slot of the table. -/
structure Slot (K V : Type) [Inhabited K] [Inhabited V] where
  state : SlotState := .empty
  key : K := default
  value : V := default

/-- `OpenAddressingHashMap<K, V>` -/
structure OpenAddressingHashMap (K V : Type) [Inhabited K] [Inhabited V] where
  capacity : ℕ
  mask : ℕ
  slots : ℕ → Slot K V
  size : ℕ := 0
  tombstones : ℕ := 0

namespace OpenAddressingHashMap

variable {K V : Type} [Inhabited K] [Inhabited V] [DecidableEq K] [ToUInt64 K]

/-- The constructor. -/
def new (K V : Type) [Inhabited K] [Inhabited V] (capacityHint : ℕ) :
    OpenAddressingHashMap K V where
  capacity := roundUpToPowerOfTwo capacityHint
  mask := roundUpToPowerOfTwo capacityHint - 1
  slots _ := {}

/-- `probe_start` -/
def probeStart (m : OpenAddressingHashMap K V) (key : K) : ℕ :=
  (mix64 (ToUInt64.toUInt64 key)).toNat &&& m.mask

/-- The slot is occupied by `key`. -/
def Holds (m : OpenAddressingHashMap K V) (key : K) (i : ℕ) : Prop :=
  (m.slots i).state = .occupied ∧ (m.slots i).key = key

instance (m : OpenAddressingHashMap K V) (key : K) (i : ℕ) : Decidable (m.Holds key i) :=
  inferInstanceAs (Decidable (_ ∧ _))

/-- The probe loop of `find` and `erase`, with `n` probes left. -/
def locateFrom (m : OpenAddressingHashMap K V) (key : K) : ℕ → ℕ → Option ℕ
  | 0, _ => none
  | n + 1, index =>
      if (m.slots index).state = .empty then none
      else if m.Holds key index then some index
      else locateFrom m key n ((index + 1) &&& m.mask)

/-- The index of the slot `find` and `erase` stop at, if it holds the key. -/
def locate (m : OpenAddressingHashMap K V) (key : K) : Option ℕ :=
  m.locateFrom key m.capacity (m.probeStart key)

/-- `find`: the value stored under the key; the pointer the source returns is
only read. -/
def find (m : OpenAddressingHashMap K V) (key : K) : Option V :=
  (m.locate key).map fun i => (m.slots i).value

/-- `erase` -/
def erase (m : OpenAddressingHashMap K V) (key : K) : Bool × OpenAddressingHashMap K V :=
  match m.locate key with
  | none => (false, m)
  | some index =>
      (true, { m with
        slots := Function.update m.slots index { state := .tombstone }
        size := m.size - 1
        tombstones := m.tombstones + 1 })

/-- How the probe loop of `insert` ends. -/
inductive InsertOutcome where
  /-- Every slot is occupied by another key. -/
  | full
  /-- The key is already there. -/
  | present
  /-- The key goes into this slot, which was a tombstone or not. -/
  | place (index : ℕ) (wasTombstone : Bool)
  deriving DecidableEq, Repr

/-- The probe loop of `insert`, with `n` probes left and the first tombstone
seen so far. -/
def insertFrom (m : OpenAddressingHashMap K V) (key : K) : ℕ → ℕ → Option ℕ → InsertOutcome
  | 0, _, none => .full
  | 0, _, some t => .place t true
  | n + 1, index, firstTombstone =>
      match (m.slots index).state with
      | .empty => .place (firstTombstone.getD index) firstTombstone.isSome
      | .tombstone =>
          insertFrom m key n ((index + 1) &&& m.mask) (firstTombstone.or (some index))
      | .occupied =>
          if (m.slots index).key = key then .present
          else insertFrom m key n ((index + 1) &&& m.mask) firstTombstone

/-- `place` -/
def place (m : OpenAddressingHashMap K V) (index : ℕ) (key : K) (value : V)
    (wasTombstone : Bool) : OpenAddressingHashMap K V :=
  { m with
    slots := Function.update m.slots index { state := .occupied, key := key, value := value }
    size := m.size + 1
    tombstones := if wasTombstone then m.tombstones - 1 else m.tombstones }

/-- `insert` -/
def insert (m : OpenAddressingHashMap K V) (key : K) (value : V) :
    Bool × OpenAddressingHashMap K V :=
  match m.insertFrom key m.capacity (m.probeStart key) none with
  | .full => (false, m)
  | .present => (false, m)
  | .place index wasTombstone => (true, m.place index key value wasTombstone)

/-! ### The invariant -/

/-- The number of slots in a given state. -/
def countState (m : OpenAddressingHashMap K V) (s : SlotState) : ℕ :=
  ((Finset.range m.capacity).filter fun i => (m.slots i).state = s).card

/-- The capacity is a power of two and the mask belongs to it. -/
structure Shaped (m : OpenAddressingHashMap K V) : Prop where
  capacity_eq : ∃ k, m.capacity = 2 ^ k
  mask_eq : m.mask = m.capacity - 1

/-- The representation invariant: the probe for the key of an occupied slot
stops at that very slot, and the counters are right. -/
structure Inv (m : OpenAddressingHashMap K V) : Prop extends Shaped m where
  locate_key : ∀ i, i < m.capacity → (m.slots i).state = .occupied →
    m.locate (m.slots i).key = some i
  size_eq : m.size = m.countState .occupied
  tombstones_eq : m.tombstones = m.countState .tombstone

/-! ### Rounding up the capacity -/

theorem roundUpToPowerOfTwo_eq_pow (n : ℕ) : ∃ k, roundUpToPowerOfTwo n = 2 ^ k := by
  unfold roundUpToPowerOfTwo
  split
  · exact ⟨0, rfl⟩
  · exact ⟨bitWidth (n - 1), by rw [Nat.one_shiftLeft]⟩

theorem le_roundUpToPowerOfTwo (n : ℕ) : n ≤ roundUpToPowerOfTwo n := by
  unfold roundUpToPowerOfTwo bitWidth
  split
  · assumption
  · rw [if_neg (by omega), Nat.one_shiftLeft]
    have := @Nat.lt_log2_self (n - 1)
    omega

/-! ### Where the probe loops stop -/

/-- A slot the probe for `key` passes: not empty, and not holding the key. -/
def Passes (m : OpenAddressingHashMap K V) (key : K) (i : ℕ) : Prop :=
  (m.slots i).state ≠ .empty ∧ ¬ m.Holds key i

/-- A slot occupied by a key other than `key`. -/
def HoldsOther (m : OpenAddressingHashMap K V) (key : K) (i : ℕ) : Prop :=
  (m.slots i).state = .occupied ∧ (m.slots i).key ≠ key

omit [DecidableEq K] [ToUInt64 K] in
theorem HoldsOther.passes {m : OpenAddressingHashMap K V} {key : K} {i : ℕ}
    (h : m.HoldsOther key i) : m.Passes key i :=
  ⟨by rw [h.1]; decide, fun hh => h.2 hh.2⟩

namespace Shaped

variable {m : OpenAddressingHashMap K V} {key : K} {i : ℕ}

omit [DecidableEq K] [ToUInt64 K] in
theorem capacity_pos (h : Shaped m) : 0 < m.capacity := by
  obtain ⟨k, hk⟩ := h.capacity_eq
  rw [hk]
  exact Nat.two_pow_pos k

omit [DecidableEq K] [ToUInt64 K] in
/-- Masking is reduction modulo the capacity. -/
theorem and_mask (h : Shaped m) (x : ℕ) : x &&& m.mask = x % m.capacity := by
  obtain ⟨k, hk⟩ := h.capacity_eq
  rw [h.mask_eq, hk, Nat.and_two_pow_sub_one_eq_mod]

omit [DecidableEq K] [ToUInt64 K] in
theorem next_probe (h : Shaped m) (start j : ℕ) :
    (probe m.capacity start j + 1) &&& m.mask = probe m.capacity start (j + 1) := by
  rw [h.and_mask, probe_succ]

omit [DecidableEq K] in
theorem probeStart_lt (h : Shaped m) (key : K) : m.probeStart key < m.capacity := by
  rw [probeStart, h.and_mask]
  exact Nat.mod_lt _ h.capacity_pos

omit [ToUInt64 K] in
/-- The probe loop of `find` and `erase`, entered after `j` steps. -/
theorem locateFrom_eq_some_iff (h : Shaped m) (key : K) (start i : ℕ) :
    ∀ (n j : ℕ), j + n = m.capacity →
    (m.locateFrom key n (probe m.capacity start j) = some i ↔
      ∃ j', j ≤ j' ∧ j' < m.capacity ∧ probe m.capacity start j' = i ∧ m.Holds key i ∧
        ∀ k, j ≤ k → k < j' → m.Passes key (probe m.capacity start k)) := by
  intro n
  induction n with
  | zero =>
    intro j hj
    simp only [locateFrom, reduceCtorEq, false_iff, not_exists]
    rintro j' ⟨h1, h2, -⟩
    omega
  | succ n ih =>
    intro j hj
    rw [locateFrom]
    by_cases hempty : (m.slots (probe m.capacity start j)).state = .empty
    · rw [if_pos hempty]
      simp only [reduceCtorEq, false_iff, not_exists]
      rintro j' ⟨h1, -, h3, h4, h5⟩
      rcases Nat.eq_or_lt_of_le h1 with rfl | hlt
      · rw [h3, h4.1] at hempty
        cases hempty
      · exact (h5 j le_rfl hlt).1 hempty
    · rw [if_neg hempty]
      by_cases hholds : m.Holds key (probe m.capacity start j)
      · rw [if_pos hholds, Option.some.injEq]
        constructor
        · intro e
          refine ⟨j, le_rfl, by omega, e, e ▸ hholds, fun k h1 h2 => ?_⟩
          omega
        · rintro ⟨j', h1, -, h3, -, h5⟩
          rcases Nat.eq_or_lt_of_le h1 with rfl | hlt
          · exact h3
          · exact absurd hholds (h5 j le_rfl hlt).2
      · rw [if_neg hholds, h.next_probe, ih (j + 1) (by omega)]
        constructor
        · rintro ⟨j', h1, h2, h3, h4, h5⟩
          refine ⟨j', by omega, h2, h3, h4, fun k hk1 hk2 => ?_⟩
          rcases Nat.eq_or_lt_of_le hk1 with rfl | hlt
          · exact ⟨hempty, hholds⟩
          · exact h5 k hlt hk2
        · rintro ⟨j', h1, h2, h3, h4, h5⟩
          rcases Nat.eq_or_lt_of_le h1 with rfl | hlt
          · exact absurd (h3 ▸ h4) hholds
          · exact ⟨j', hlt, h2, h3, h4, fun k hk1 hk2 => h5 k (by omega) hk2⟩

/-- **Where `find` and `erase` stop.** -/
theorem locate_eq_some_iff (h : Shaped m) :
    m.locate key = some i ↔
      PathTo m.capacity (m.probeStart key) (m.Passes key) i ∧ m.Holds key i := by
  have hstart := probe_zero (h.probeStart_lt key)
  have hspec := h.locateFrom_eq_some_iff key (m.probeStart key) i m.capacity 0 (by omega)
  rw [hstart] at hspec
  rw [locate, hspec]
  constructor
  · rintro ⟨j, -, h2, h3, h4, h5⟩
    exact ⟨⟨j, h2, h3, fun k hk => h5 k (Nat.zero_le _) hk⟩, h4⟩
  · rintro ⟨⟨j, h2, h3, h5⟩, h4⟩
    exact ⟨j, Nat.zero_le _, h2, h3, h4, fun k _ hk => h5 k hk⟩

omit [ToUInt64 K] in
/-- What the probe loop of `insert` finds out, entered after `j` steps.  The
hypotheses say what the slots passed so far were: none of them stops the probe
for the key, and they are occupied by other keys up to the first tombstone. -/
theorem insertFrom_spec (h : Shaped m) (key : K) (start : ℕ) : ∀ (n j : ℕ) (ft : Option ℕ),
    j + n = m.capacity →
    (∀ k, k < j → m.Passes key (probe m.capacity start k)) →
    (∀ t, ft = some t → PathTo m.capacity start (m.HoldsOther key) t ∧
      (m.slots t).state = .tombstone) →
    (ft = none → ∀ k, k < j → m.HoldsOther key (probe m.capacity start k)) →
    match m.insertFrom key n (probe m.capacity start j) ft with
    | .present => ∃ t, PathTo m.capacity start (m.Passes key) t ∧ m.Holds key t
    | .full => ∀ t, t < m.capacity → m.HoldsOther key t
    | .place t w => PathTo m.capacity start (m.HoldsOther key) t ∧
        (m.slots t).state = (if w then .tombstone else .empty) ∧
        ∀ u, PathTo m.capacity start (m.Passes key) u → ¬ m.Holds key u := by
  intro n
  induction n with
  | zero =>
    intro j ft hj hseen hft hnone
    -- the whole table was passed, so the key is nowhere
    have habsent : ∀ u, PathTo m.capacity start (m.Passes key) u → ¬ m.Holds key u := by
      rintro u ⟨k, hk, rfl, -⟩
      exact (hseen k (by omega)).2
    cases ft with
    | none =>
      intro t ht
      obtain ⟨k, hk, rfl⟩ := exists_probe_eq start ht
      exact hnone rfl k (by omega)
    | some t => exact ⟨(hft t rfl).1, (hft t rfl).2, habsent⟩
  | succ n ih =>
    intro j ft hj hseen hft hnone
    have hjc : j < m.capacity := by omega
    rw [insertFrom]
    cases hstate : (m.slots (probe m.capacity start j)).state with
    | empty =>
      -- nothing past an empty slot can be reached
      have habsent : ∀ u, PathTo m.capacity start (m.Passes key) u → ¬ m.Holds key u := by
        rintro u ⟨k, hk, rfl, hpass⟩ hh
        rcases Nat.lt_trichotomy k j with hkj | rfl | hjk
        · exact (hseen k hkj).2 hh
        · rw [hh.1] at hstate; cases hstate
        · exact (hpass j hjk).1 hstate
      cases ft with
      | none => exact ⟨⟨j, hjc, rfl, hnone rfl⟩, hstate, habsent⟩
      | some t => exact ⟨(hft t rfl).1, (hft t rfl).2, habsent⟩
    | tombstone =>
      have hpass : m.Passes key (probe m.capacity start j) :=
        ⟨by rw [hstate]; decide, fun hh => by rw [hh.1] at hstate; cases hstate⟩
      simp only [h.next_probe]
      refine ih (j + 1) _ (by omega) ?_ ?_ ?_
      · exact Nat.forall_lt_succ_right.mpr ⟨hseen, hpass⟩
      · intro t ht
        cases ft with
        | none =>
          obtain rfl : probe m.capacity start j = t := by simpa using ht
          exact ⟨⟨j, hjc, rfl, hnone rfl⟩, hstate⟩
        | some u => exact hft t (by simpa using ht)
      · intro hn
        cases ft <;> simp at hn
    | occupied =>
      dsimp only
      by_cases hkey : (m.slots (probe m.capacity start j)).key = key
      · rw [if_pos hkey]
        exact ⟨_, ⟨j, hjc, rfl, hseen⟩, hstate, hkey⟩
      · rw [if_neg hkey, h.next_probe]
        have hother : m.HoldsOther key (probe m.capacity start j) := ⟨hstate, hkey⟩
        refine ih (j + 1) ft (by omega) ?_ hft ?_
        · exact Nat.forall_lt_succ_right.mpr ⟨hseen, hother.passes⟩
        · exact fun hn => Nat.forall_lt_succ_right.mpr ⟨hnone hn, hother⟩

end Shaped

/-! ### What the operations do -/

theorem inv_new (capacityHint : ℕ) : Inv (new K V capacityHint) where
  capacity_eq := roundUpToPowerOfTwo_eq_pow capacityHint
  mask_eq := rfl
  locate_key := by intro i _ h; cases h
  size_eq := by simp [countState, new]
  tombstones_eq := by simp [countState, new]

theorem find_new (capacityHint : ℕ) (key : K) : (new K V capacityHint).find key = none := by
  have hs : Shaped (new K V capacityHint) := (inv_new capacityHint).toShaped
  rw [find, Option.map_eq_none_iff, Option.eq_none_iff_forall_ne_some]
  intro i hi
  cases (hs.locate_eq_some_iff.mp hi).2.1

namespace Inv

variable {m : OpenAddressingHashMap K V} {key : K} {value : V} {i : ℕ}

/-- The slot a probe stops at is the only one holding the key. -/
theorem holds_iff (h : Inv m) (hi : i < m.capacity) : m.Holds key i ↔ m.locate key = some i := by
  constructor
  · rintro ⟨hs, rfl⟩
    exact h.locate_key i hi hs
  · exact fun hl => (h.toShaped.locate_eq_some_iff.mp hl).2

theorem find_eq_none_iff : m.find key = none ↔ m.locate key = none := by
  rw [find, Option.map_eq_none_iff]

/-- Two maps of the same shape whose probes for a key run alike agree on it. -/
theorem find_congr {m' : OpenAddressingHashMap K V} (hl : m'.locate key = m.locate key)
    (hv : ∀ i, m.locate key = some i → (m'.slots i).value = (m.slots i).value) :
    m'.find key = m.find key := by
  rw [find, find, hl]
  cases hloc : m.locate key with
  | none => rfl
  | some i => simp [hv i hloc]

/-- An occupied slot of the table is found by the probe for its key, so a key
that is not found occupies no slot. -/
theorem not_holds_of_locate_none (h : Inv m) (hl : m.locate key = none) (hi : i < m.capacity) :
    ¬ m.Holds key i := by
  rw [h.holds_iff hi, hl]
  simp

/-- Writing a slot that neither held the key before nor stops the probe for it
after does not disturb that probe. -/
theorem locate_update (h : Inv m) {m' : OpenAddressingHashMap K V} (hs' : Shaped m') {t : ℕ}
    (hcap : m'.capacity = m.capacity) (hstart : m'.probeStart key = m.probeStart key)
    (hslots : ∀ j, j ≠ t → m'.slots j = m.slots j) (ht : m'.Passes key t)
    (hnot : ¬ m.Holds key t) : m'.locate key = m.locate key := by
  cases hloc : m.locate key with
  | none =>
    rw [Option.eq_none_iff_forall_ne_some]
    intro j hj
    obtain ⟨hp, hh⟩ := hs'.locate_eq_some_iff.mp hj
    have hjt : j ≠ t := fun e => ht.2 (e ▸ hh)
    rw [Holds, hslots j hjt] at hh
    exact h.not_holds_of_locate_none hloc (hcap ▸ hp.lt_cap) hh
  | some i =>
    obtain ⟨hp, hh⟩ := h.toShaped.locate_eq_some_iff.mp hloc
    have hit : i ≠ t := fun e => hnot (e ▸ hh)
    rw [hs'.locate_eq_some_iff, hcap, hstart]
    refine ⟨hp.mono fun k _ _ hk => ?_, by rw [Holds, hslots i hit]; exact hh⟩
    by_cases hkt : k = t
    · exact hkt ▸ ht
    · rw [Passes, Holds, hslots k hkt]
      exact hk

/-! #### Erasing -/

theorem erase_absent (hf : m.find key = none) : m.erase key = (false, m) := by
  rw [erase, find_eq_none_iff.mp hf]

/-- **`erase` of a present key** turns its slot into a tombstone. -/
theorem erase_present (h : Inv m) (hf : m.find key = some value) :
    ∃ m', m.erase key = (true, m') ∧ Inv m' ∧ m'.capacity = m.capacity ∧
      m'.size + 1 = m.size ∧ m'.tombstones = m.tombstones + 1 ∧
      ∀ k, m'.find k = if k = key then none else m.find k := by
  obtain ⟨t, hloc, -⟩ := Option.map_eq_some_iff.mp hf
  obtain ⟨hpath, hholds⟩ := h.toShaped.locate_eq_some_iff.mp hloc
  have htc : t < m.capacity := hpath.lt_cap
  set m' : OpenAddressingHashMap K V := { m with
    slots := Function.update m.slots t { state := .tombstone }
    size := m.size - 1
    tombstones := m.tombstones + 1 } with hm'
  have hs' : Shaped m' := ⟨h.capacity_eq, h.mask_eq⟩
  have hslots : ∀ j, j ≠ t → m'.slots j = m.slots j := fun j hj => Function.update_of_ne hj _ _
  have hself : (m'.slots t).state = .tombstone := by simp [hm']
  have hpasses : ∀ k, m'.Passes k t := fun k =>
    ⟨by rw [hself]; decide, fun hh => by rw [hh.1] at hself; cases hself⟩
  -- every other key is looked up as before
  have hother : ∀ k, k ≠ key → m'.locate k = m.locate k := fun k hk =>
    h.locate_update hs' rfl rfl hslots (hpasses k) fun hh => hk (hh.2 ▸ hholds.2)
  have hocc : m.countState .occupied = m'.countState .occupied + 1 :=
    card_filter_eq_add_one htc hholds.1 (by rw [hself]; decide)
      fun i hi => by rw [hslots i hi]
  have htomb : m'.countState .tombstone = m.countState .tombstone + 1 :=
    card_filter_eq_add_one htc hself (by rw [hholds.1]; decide)
      fun i hi => by rw [hslots i hi]
  refine ⟨m', by rw [erase, hloc], ⟨hs', ?_, ?_, ?_⟩, rfl, ?_, rfl, ?_⟩
  · intro i hi hocc'
    have hit : i ≠ t := by rintro rfl; rw [hself] at hocc'; cases hocc'
    rw [hslots i hit] at hocc' ⊢
    rw [hother, h.locate_key i hi hocc']
    -- the key erased sits in slot `t` only
    intro hk
    have := h.locate_key i hi hocc'
    rw [hk, hloc] at this
    exact hit (Option.some.inj this).symm
  · show m.size - 1 = m'.countState .occupied
    rw [h.size_eq, hocc]
    rfl
  · show m.tombstones + 1 = m'.countState .tombstone
    rw [h.tombstones_eq, htomb]
  · show m.size - 1 + 1 = m.size
    rw [h.size_eq, hocc]
    rfl
  · intro k
    split
    · next hk =>
      subst hk
      rw [find_eq_none_iff, Option.eq_none_iff_forall_ne_some]
      intro j hj
      obtain ⟨hp, hh⟩ := hs'.locate_eq_some_iff.mp hj
      have hjt : j ≠ t := fun e => (hpasses k).2 (e ▸ hh)
      rw [Holds, hslots j hjt] at hh
      have := (h.holds_iff (i := j) hp.lt_cap).mp hh
      rw [hloc] at this
      exact hjt (Option.some.inj this).symm
    · next hk =>
      refine find_congr (hother k hk) fun i hi => ?_
      have hit : i ≠ t := by
        rintro rfl
        exact hk ((h.toShaped.locate_eq_some_iff.mp hi).2.2.symm.trans hholds.2)
      rw [hslots i hit]

/-! #### Inserting -/

/-- A key that is present is not inserted again. -/
theorem insert_present (h : Inv m) (hf : m.find key ≠ none) : m.insert key value = (false, m) := by
  have hspec := h.toShaped.insertFrom_spec key (m.probeStart key) m.capacity 0 none (by omega)
    (by omega) (by simp) (by omega)
  rw [probe_zero (h.probeStart_lt key)] at hspec
  rw [insert]
  cases hout : m.insertFrom key m.capacity (m.probeStart key) none with
  | full => rfl
  | present => rfl
  | place t w =>
    rw [hout] at hspec
    obtain ⟨-, -, habs⟩ := hspec
    obtain ⟨v, hv⟩ := Option.ne_none_iff_exists'.mp hf
    obtain ⟨i, hloc, -⟩ := Option.map_eq_some_iff.mp hv
    obtain ⟨hp, hh⟩ := h.toShaped.locate_eq_some_iff.mp hloc
    exact absurd hh (habs i hp)

/-- An absent key goes into the first slot on its probe path that is not
occupied, if there is one. -/
theorem insertFrom_absent (h : Inv m) (hf : m.find key = none) :
    (∃ t w, m.insertFrom key m.capacity (m.probeStart key) none = .place t w ∧
      PathTo m.capacity (m.probeStart key) (m.HoldsOther key) t ∧
      (m.slots t).state = if w then .tombstone else .empty) ∨
    (m.insertFrom key m.capacity (m.probeStart key) none = .full ∧
      ∀ t, t < m.capacity → m.HoldsOther key t) := by
  have hspec := h.toShaped.insertFrom_spec key (m.probeStart key) m.capacity 0 none (by omega)
    (by omega) (by simp) (by omega)
  rw [probe_zero (h.probeStart_lt key)] at hspec
  cases hout : m.insertFrom key m.capacity (m.probeStart key) none with
  | full =>
    rw [hout] at hspec
    exact Or.inr ⟨rfl, hspec⟩
  | present =>
    rw [hout] at hspec
    obtain ⟨t, hp, hh⟩ := hspec
    have := h.toShaped.locate_eq_some_iff.mpr ⟨hp, hh⟩
    rw [find_eq_none_iff.mp hf] at this
    cases this
  | place t w =>
    rw [hout] at hspec
    exact Or.inl ⟨t, w, rfl, hspec.1, hspec.2.1⟩

/-- **Placing an absent key** in the first free slot of its probe path. -/
theorem place (h : Inv m) (hf : m.find key = none) (value : V) {t : ℕ} {w : Bool}
    (hpath : PathTo m.capacity (m.probeStart key) (m.HoldsOther key) t)
    (hstate : (m.slots t).state = if w then .tombstone else .empty) :
    Inv (m.place t key value w) ∧
      ∀ k, (m.place t key value w).find k = if k = key then some value else m.find k := by
  have htc : t < m.capacity := hpath.lt_cap
  have hnocc : (m.slots t).state ≠ .occupied := by rw [hstate]; cases w <;> decide
  set m' := m.place t key value w with hm'
  have hs' : Shaped m' := ⟨h.capacity_eq, h.mask_eq⟩
  have hslots : ∀ j, j ≠ t → m'.slots j = m.slots j := fun j hj => Function.update_of_ne hj _ _
  have hself : m'.slots t = { state := .occupied, key := key, value := value } :=
    Function.update_self _ _ _
  have hpasses : ∀ k, k ≠ key → m'.Passes k t := fun k hk =>
    ⟨by rw [hself]; simp, fun hh => by rw [Holds, hself] at hh; exact hk hh.2.symm⟩
  have hother : ∀ k, k ≠ key → m'.locate k = m.locate k := fun k hk =>
    h.locate_update hs' rfl rfl hslots (hpasses k hk) fun hh => hnocc hh.1
  -- the probe for the new key passes the slots of other keys and stops at `t`
  have hkey : m'.locate key = some t := by
    rw [hs'.locate_eq_some_iff]
    refine ⟨hpath.mono fun k _ hkt hk => ?_, by rw [hself], by rw [hself]⟩
    rw [Passes, Holds, hslots k hkt]
    exact hk.passes
  have hocc : m'.countState .occupied = m.countState .occupied + 1 :=
    card_filter_eq_add_one htc (by rw [hself]) hnocc fun i hi => by rw [hslots i hi]
  -- a tombstone is used up if the slot was one, and the count stays otherwise
  have htomb : m'.tombstones = m'.countState .tombstone := by
    cases w with
    | true =>
      have hcount : m.countState .tombstone = m'.countState .tombstone + 1 :=
        card_filter_eq_add_one htc hstate (by rw [hself]; simp)
          fun i hi => by rw [hslots i hi]
      show m.tombstones - 1 = m'.countState .tombstone
      rw [h.tombstones_eq, hcount]
      rfl
    | false =>
      show m.tombstones = m'.countState .tombstone
      rw [h.tombstones_eq, countState, countState]
      congr 1
      refine Finset.filter_congr fun i _ => ?_
      by_cases hit : i = t
      · rw [hit, hself, hstate]
        simp
      · rw [hslots i hit]
  refine ⟨⟨hs', ?_, ?_, htomb⟩, ?_⟩
  · intro i hi hocc'
    by_cases hit : i = t
    · rw [hit, hself]
      exact hkey
    · rw [hslots i hit] at hocc' ⊢
      rw [hother, h.locate_key i hi hocc']
      intro hk
      exact h.not_holds_of_locate_none (find_eq_none_iff.mp hf) hi ⟨hocc', hk⟩
  · show m.size + 1 = m'.countState .occupied
    rw [h.size_eq, hocc]
  · intro k
    split
    · next hk => rw [hk, find, hkey, Option.map_some, hself]
    · next hk =>
      refine find_congr (hother k hk) fun i hi => ?_
      have hit : i ≠ t := by
        rintro rfl
        exact hnocc (h.toShaped.locate_eq_some_iff.mp hi).2.1
      rw [hslots i hit]

/-- A map with fewer keys than slots has a slot that is not occupied. -/
theorem exists_not_occupied (h : Inv m) (hsize : m.size < m.capacity) :
    ∃ t, t < m.capacity ∧ (m.slots t).state ≠ .occupied := by
  by_contra hcon
  push Not at hcon
  have hall : (Finset.range m.capacity).filter (fun i => (m.slots i).state = .occupied) =
      Finset.range m.capacity :=
    Finset.filter_true_of_mem fun i hi => hcon i (Finset.mem_range.mp hi)
  have := h.size_eq
  rw [countState, hall, Finset.card_range] at this
  omega

/-- **`insert` of an absent key into a map that is not full.** -/
theorem insert_absent (h : Inv m) (hf : m.find key = none) (hsize : m.size < m.capacity) :
    ∃ m', m.insert key value = (true, m') ∧ Inv m' ∧ m'.capacity = m.capacity ∧
      m'.size = m.size + 1 ∧ ∀ k, m'.find k = if k = key then some value else m.find k := by
  rcases h.insertFrom_absent hf with ⟨t, w, hout, hpath, hstate⟩ | ⟨-, hfull⟩
  · obtain ⟨hinv, hfind⟩ := h.place hf value hpath hstate
    exact ⟨_, by rw [insert, hout], hinv, rfl, rfl, hfind⟩
  · obtain ⟨t, ht, hnocc⟩ := h.exists_not_occupied hsize
    exact absurd (hfull t ht).1 hnocc

end Inv

end OpenAddressingHashMap
end Liquibook
