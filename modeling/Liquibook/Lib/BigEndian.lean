import Mathlib.Data.List.GetD
import Mathlib.Data.List.Induction
import Mathlib.Algebra.Order.Ring.Nat
import Mathlib.Tactic.Ring

/-!
# Big-endian bytes and slices

A number as a fixed count of bytes, most significant first, and the parts of a byte
string that such numbers are read from and written to.

## Main definitions

* `bigEndian bytes` — the number that bytes stand for.
* `bytesOf n v` — the `n` bytes of `v`, modulo `256 ^ n`.
* `slice xs off n` — the `n` elements of `xs` from `off` on.
* `put xs off ys` — `xs` with the elements of `ys` written over those from `off` on.

## Main results

* `bigEndian_bytesOf`, `bytesOf_bigEndian` — **bytes and numbers determine each other.**
* `or_shift_u16` and its siblings — shifting and or-ing bytes puts the number together.
* `slice_add` — adjacent slices make one slice.
* `slice_put`, `slice_put_of_disjoint`, `put_slice`, `put_put` — **what is written is
  read back, and changes nothing else.**
-/

namespace Liquibook
namespace Lib

/-! ### Numbers -/

/-- The number that bytes stand for, most significant first. -/
def bigEndian (bytes : List UInt8) : ℕ := bytes.foldl (fun acc b => acc * 256 + b.toNat) 0

/-- The `n` low bytes of `v`, most significant first. -/
def bytesOf : ℕ → ℕ → List UInt8
  | 0, _ => []
  | n + 1, v => bytesOf n (v / 256) ++ [UInt8.ofNat v]

@[simp] theorem length_bytesOf (n v : ℕ) : (bytesOf n v).length = n := by
  induction n generalizing v with
  | zero => rfl
  | succ n ih => simp [bytesOf, ih]

theorem bigEndian_concat (bytes : List UInt8) (b : UInt8) :
    bigEndian (bytes ++ [b]) = bigEndian bytes * 256 + b.toNat := by
  simp [bigEndian]

theorem bigEndian_lt (bytes : List UInt8) : bigEndian bytes < 256 ^ bytes.length := by
  induction bytes using List.reverseRecOn with
  | nil => simp [bigEndian]
  | append_singleton bytes b ih =>
    have hb := b.toNat_lt
    rw [bigEndian_concat, List.length_append, List.length_singleton, pow_succ]
    omega

/-- **Writing and reading back** gives the number modulo what the bytes can hold. -/
theorem bigEndian_bytesOf (n v : ℕ) : bigEndian (bytesOf n v) = v % 256 ^ n := by
  induction n generalizing v with
  | zero => simp [bytesOf, bigEndian, Nat.mod_one]
  | succ n ih =>
    have hb : (UInt8.ofNat v).toNat = v % 256 := UInt8.toNat_ofNat'
    rw [bytesOf, bigEndian_concat, ih, hb, pow_succ, mul_comm (256 ^ n) 256, Nat.mod_mul]
    ring

/-- **Reading and writing back** gives the bytes. -/
theorem bytesOf_bigEndian (bytes : List UInt8) :
    bytesOf bytes.length (bigEndian bytes) = bytes := by
  induction bytes using List.reverseRecOn with
  | nil => rfl
  | append_singleton bytes b ih =>
    have hb := b.toNat_lt
    have hdiv : (bigEndian bytes * 256 + b.toNat) / 256 = bigEndian bytes := by omega
    have hlow : UInt8.ofNat (bigEndian bytes * 256 + b.toNat) = b := by
      rw [← UInt8.toNat_inj, UInt8.toNat_ofNat']
      omega
    rw [bigEndian_concat, List.length_append, List.length_singleton, bytesOf, hdiv, ih, hlow]

theorem bytesOf_mod (n v : ℕ) : bytesOf n (v % 256 ^ n) = bytesOf n v := by
  have := bytesOf_bigEndian (bytesOf n v)
  rwa [length_bytesOf, bigEndian_bytesOf] at this

/-! ### Shifting and or-ing -/

/-- A byte above the bits of a smaller number, in a word of `w` bits. -/
theorem or_shift_byte (b : UInt8) {low : ℕ} (i w : ℕ) (hlow : low < 2 ^ i) (hw : i + 8 ≤ w) :
    (b.toNat <<< i) % 2 ^ w ||| low = b.toNat * 2 ^ i + low ∧
      b.toNat * 2 ^ i + low < 2 ^ (i + 8) := by
  have hb := b.toNat_lt
  have hlt : b.toNat * 2 ^ i + low < 2 ^ (i + 8) := by
    have : b.toNat * 2 ^ i ≤ 255 * 2 ^ i := Nat.mul_le_mul_right _ (by omega)
    rw [pow_add]
    omega
  have hfits : b.toNat * 2 ^ i < 2 ^ w := by
    have := Nat.pow_le_pow_right (show 0 < 2 by omega) hw
    omega
  refine ⟨?_, hlt⟩
  rw [Nat.shiftLeft_eq, Nat.mod_eq_of_lt hfits, mul_comm, Nat.two_pow_add_eq_or_of_lt hlow]

theorem or_shift_u16 (b0 b1 : UInt8) :
    (b0.toUInt16 <<< 8) ||| b1.toUInt16 = UInt16.ofNat (bigEndian [b0, b1]) := by
  have e0 := or_shift_byte b0 8 16 b1.toNat_lt (by omega)
  rw [← UInt16.toNat_inj]
  simp only [UInt16.toNat_or, UInt16.toNat_shiftLeft, UInt8.toNat_toUInt16, UInt16.reduceToNat,
    Nat.reduceMod, bigEndian, List.foldl]
  rw [e0.1, UInt16.toNat_ofNat_of_lt' (show _ < 2 ^ 16 by omega)]
  ring

theorem or_shift_u32 (b0 b1 b2 b3 : UInt8) :
    (b0.toUInt32 <<< 24) ||| (b1.toUInt32 <<< 16) ||| (b2.toUInt32 <<< 8) ||| b3.toUInt32 =
      UInt32.ofNat (bigEndian [b0, b1, b2, b3]) := by
  have e2 := or_shift_byte b2 8 32 b3.toNat_lt (by omega)
  have e1 := or_shift_byte b1 16 32 e2.2 (by omega)
  have e0 := or_shift_byte b0 24 32 e1.2 (by omega)
  rw [← UInt32.toNat_inj]
  simp only [UInt32.toNat_or, UInt32.toNat_shiftLeft, UInt8.toNat_toUInt32, UInt32.reduceToNat,
    Nat.reduceMod, Nat.or_assoc, bigEndian, List.foldl]
  rw [e2.1, e1.1, e0.1, UInt32.toNat_ofNat_of_lt' (show _ < 2 ^ 32 by omega)]
  ring

theorem or_shift_u48 (b0 b1 b2 b3 b4 b5 : UInt8) :
    (b0.toUInt64 <<< 40) ||| (b1.toUInt64 <<< 32) ||| (b2.toUInt64 <<< 24) |||
        (b3.toUInt64 <<< 16) ||| (b4.toUInt64 <<< 8) ||| b5.toUInt64 =
      UInt64.ofNat (bigEndian [b0, b1, b2, b3, b4, b5]) := by
  have e4 := or_shift_byte b4 8 64 b5.toNat_lt (by omega)
  have e3 := or_shift_byte b3 16 64 e4.2 (by omega)
  have e2 := or_shift_byte b2 24 64 e3.2 (by omega)
  have e1 := or_shift_byte b1 32 64 e2.2 (by omega)
  have e0 := or_shift_byte b0 40 64 e1.2 (by omega)
  rw [← UInt64.toNat_inj]
  simp only [UInt64.toNat_or, UInt64.toNat_shiftLeft, UInt8.toNat_toUInt64, UInt64.reduceToNat,
    Nat.reduceMod, Nat.or_assoc, bigEndian, List.foldl]
  rw [e4.1, e3.1, e2.1, e1.1, e0.1, UInt64.toNat_ofNat_of_lt' (show _ < 2 ^ 64 by omega)]
  ring

theorem or_shift_u64 (b0 b1 b2 b3 b4 b5 b6 b7 : UInt8) :
    (b0.toUInt64 <<< 56) ||| (b1.toUInt64 <<< 48) ||| (b2.toUInt64 <<< 40) |||
        (b3.toUInt64 <<< 32) ||| (b4.toUInt64 <<< 24) ||| (b5.toUInt64 <<< 16) |||
        (b6.toUInt64 <<< 8) ||| b7.toUInt64 =
      UInt64.ofNat (bigEndian [b0, b1, b2, b3, b4, b5, b6, b7]) := by
  have e6 := or_shift_byte b6 8 64 b7.toNat_lt (by omega)
  have e5 := or_shift_byte b5 16 64 e6.2 (by omega)
  have e4 := or_shift_byte b4 24 64 e5.2 (by omega)
  have e3 := or_shift_byte b3 32 64 e4.2 (by omega)
  have e2 := or_shift_byte b2 40 64 e3.2 (by omega)
  have e1 := or_shift_byte b1 48 64 e2.2 (by omega)
  have e0 := or_shift_byte b0 56 64 e1.2 (by omega)
  rw [← UInt64.toNat_inj]
  simp only [UInt64.toNat_or, UInt64.toNat_shiftLeft, UInt8.toNat_toUInt64, UInt64.reduceToNat,
    Nat.reduceMod, Nat.or_assoc, bigEndian, List.foldl]
  rw [e6.1, e5.1, e4.1, e3.1, e2.1, e1.1, e0.1, UInt64.toNat_ofNat_of_lt' (show _ < 2 ^ 64 by omega)]
  ring

/-! ### Slices -/

section Slice

variable {α : Type*} {xs : List α} {off n : ℕ}

/-- The `n` elements of `xs` from `off` on. -/
def slice (xs : List α) (off n : ℕ) : List α := (xs.drop off).take n

theorem length_slice (h : off + n ≤ xs.length) : (slice xs off n).length = n := by
  rw [slice, List.length_take, List.length_drop]
  omega

/-- Adjacent slices make one slice. -/
theorem slice_add (xs : List α) (off m n : ℕ) :
    slice xs off (m + n) = slice xs off m ++ slice xs (off + m) n := by
  rw [slice, slice, slice, List.take_add, List.drop_drop]

theorem slice_zero_eq_take (xs : List α) (n : ℕ) : slice xs 0 n = xs.take n := rfl

/-- A slice, element by element. -/
theorem slice_succ [Inhabited α] (h : off < xs.length) :
    slice xs off (n + 1) = xs.getD off default :: slice xs (off + 1) n := by
  rw [slice, slice, List.drop_eq_getElem_cons h, List.take_succ_cons,
    List.getD_eq_getElem _ _ h]

end Slice

/-! ### Writing over a slice -/

section Put

variable {α : Type*} {xs : List α} {off n : ℕ}

/-- Write elements over those of `xs` from `off` on, one after the other. -/
def put (xs : List α) (off : ℕ) : List α → List α
  | [] => xs
  | y :: ys => put (xs.set off y) (off + 1) ys

@[simp] theorem length_put (xs : List α) (off : ℕ) (ys : List α) :
    (put xs off ys).length = xs.length := by
  induction ys generalizing xs off with
  | nil => rfl
  | cons y ys ih => rw [put, ih, List.length_set]

/-- What is written stands between what is left alone. -/
theorem put_eq {ys : List α} (h : off + ys.length ≤ xs.length) :
    put xs off ys = xs.take off ++ ys ++ xs.drop (off + ys.length) := by
  induction ys generalizing xs off with
  | nil => simp [put]
  | cons y ys ih =>
    rw [List.length_cons] at h
    have htake : (xs.set off y).take (off + 1) = xs.take off ++ [y] := by
      rw [List.take_succ_eq_append_getElem (by rw [List.length_set]; omega),
        List.take_set_of_le le_rfl, List.getElem_set_self]
    have hdrop : (xs.set off y).drop (off + 1 + ys.length) = xs.drop (off + 1 + ys.length) :=
      List.drop_set_of_lt (by omega)
    have hoff : off + 1 + ys.length = off + (ys.length + 1) := by omega
    rw [put, ih (by rw [List.length_set]; omega), htake, hdrop, List.length_cons, hoff]
    simp

/-- **What is written is read back.** -/
theorem slice_put {ys : List α} (h : off + ys.length ≤ xs.length) :
    slice (put xs off ys) off ys.length = ys := by
  have hoff : (xs.take off).length = off := List.length_take_of_le (by omega)
  rw [put_eq h, slice, List.append_assoc, List.drop_left' hoff, List.take_left]

/-- **Writing what is there changes nothing.** -/
theorem put_slice (h : off + n ≤ xs.length) : put xs off (slice xs off n) = xs := by
  rw [put_eq (by rw [length_slice h]; exact h), length_slice h, slice, ← List.take_add,
    List.take_append_drop]

/-- The elements outside stay. -/
theorem getElem?_put_of_outside {i : ℕ} (xs ys : List α) (h : i < off ∨ off + ys.length ≤ i) :
    (put xs off ys)[i]? = xs[i]? := by
  induction ys generalizing xs off with
  | nil => rfl
  | cons y ys ih =>
    rw [List.length_cons] at h
    rw [put, ih _ (by omega), List.getElem?_set_ne (by omega)]

/-- A slice that does not overlap stays. -/
theorem slice_put_of_disjoint {off' : ℕ} (xs ys : List α)
    (h : off' + n ≤ off ∨ off + ys.length ≤ off') :
    slice (put xs off ys) off' n = slice xs off' n := by
  apply List.ext_getElem?
  intro i
  rw [slice, slice, List.getElem?_take, List.getElem?_take]
  split
  · rw [List.getElem?_drop, List.getElem?_drop]
    exact getElem?_put_of_outside xs ys (by omega)
  · rfl

/-- The last of two writes to one place stands. -/
theorem put_put {ys zs : List α} (hlen : zs.length = ys.length)
    (h : off + ys.length ≤ xs.length) : put (put xs off ys) off zs = put xs off zs := by
  have hoff : (xs.take off).length = off := List.length_take_of_le (by omega)
  have htake : (put xs off ys).take off = xs.take off := by
    rw [put_eq h, List.append_assoc, List.take_left' hoff]
  have hdrop : (put xs off ys).drop (off + ys.length) = xs.drop (off + ys.length) := by
    have hlen' : (xs.take off ++ ys).length = off + ys.length := by rw [List.length_append, hoff]
    rw [put_eq h, List.drop_left' hlen']
  rw [put_eq (by rw [length_put, hlen]; exact h), htake, hlen, hdrop,
    put_eq (by rw [hlen]; exact h), hlen]

end Put

end Lib
end Liquibook
