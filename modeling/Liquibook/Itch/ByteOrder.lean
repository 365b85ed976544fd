import Liquibook.Itch.Framing

/-!
# Byte order

The two halves of `itch/byteorder.hpp`: the functions that read a big-endian number
through a pointer, and the ones that write it there.  `write_u16_be` is in
`Framing.lean`, where the frames need it; here are its three siblings.  The
generator does not use them, it has functions of its own that append to a buffer.

Each width is a field of a buffer, and a field obeys the laws of a memory cell.  The
timestamps are the exception to what is read back: they have 48 bits in a word of 64,
and of a larger number the top is dropped.

## Main definitions

* `writeU32Be`, `writeU48Be`, `writeU64Be` — the bytes a `write_*` function writes.
* `IsField n read write stored` — the laws of a field of `n` bytes.

## Main results

* `isField_of_bytes` — what makes a reader and a writer a field.
* `byteorder_fields` — **the four widths are fields, and the appended bytes are the
  written ones.**
-/

namespace Liquibook

open Lib

/-! ### The writers -/

/-- `write_u32_be` -/
def writeU32Be (v : UInt32) : List Byte :=
  [((v >>> 24) &&& 0xFF).toUInt8, ((v >>> 16) &&& 0xFF).toUInt8, ((v >>> 8) &&& 0xFF).toUInt8,
    (v &&& 0xFF).toUInt8]

/-- `write_u48_be` -/
def writeU48Be (v : UInt64) : List Byte :=
  [((v >>> 40) &&& 0xFF).toUInt8, ((v >>> 32) &&& 0xFF).toUInt8, ((v >>> 24) &&& 0xFF).toUInt8,
    ((v >>> 16) &&& 0xFF).toUInt8, ((v >>> 8) &&& 0xFF).toUInt8, (v &&& 0xFF).toUInt8]

/-- `write_u64_be` -/
def writeU64Be (v : UInt64) : List Byte :=
  [((v >>> 56) &&& 0xFF).toUInt8, ((v >>> 48) &&& 0xFF).toUInt8, ((v >>> 40) &&& 0xFF).toUInt8,
    ((v >>> 32) &&& 0xFF).toUInt8, ((v >>> 24) &&& 0xFF).toUInt8, ((v >>> 16) &&& 0xFF).toUInt8,
    ((v >>> 8) &&& 0xFF).toUInt8, (v &&& 0xFF).toUInt8]

/-! The generator appends the bytes that are written. -/

section Append

variable (buf : List Byte)

theorem appendU16_eq_write (v : UInt16) : appendU16 buf v = buf ++ writeU16Be v := by
  rw [appendU16, List.append_assoc]
  rfl

theorem appendU32_eq_write (v : UInt32) : appendU32 buf v = buf ++ writeU32Be v := by
  simp [appendU32, writeU32Be]

theorem appendU48_eq_write (v : UInt64) : appendU48 buf v = buf ++ writeU48Be v := by
  simp [appendU48, writeU48Be]

theorem appendU64_eq_write (v : UInt64) : appendU64 buf v = buf ++ writeU64Be v := by
  simp [appendU64, writeU64Be]

end Append

theorem writeU16Be_eq (v : UInt16) : writeU16Be v = bytesOf 2 v.toNat :=
  List.append_cancel_left ((appendU16_eq_write [] v).symm.trans (appendU16_eq [] v))

theorem writeU32Be_eq (v : UInt32) : writeU32Be v = bytesOf 4 v.toNat :=
  List.append_cancel_left ((appendU32_eq_write [] v).symm.trans (appendU32_eq [] v))

theorem writeU48Be_eq (v : UInt64) : writeU48Be v = bytesOf 6 v.toNat :=
  List.append_cancel_left ((appendU48_eq_write [] v).symm.trans (appendU48_eq [] v))

theorem writeU64Be_eq (v : UInt64) : writeU64Be v = bytesOf 8 v.toNat :=
  List.append_cancel_left ((appendU64_eq_write [] v).symm.trans (appendU64_eq [] v))

/-! ### Fields -/

section Field

variable {β : Type} {n : ℕ} {read : ℕ → Reads β} {write : β → List Byte} {stored : β → β}

/-- The laws of a field of `n` bytes, at any place `p` inside a buffer. -/
structure IsField (n : ℕ) (read : ℕ → Reads β) (write : β → List Byte) (stored : β → β) :
    Prop where
  /-- What is read is what was written, as far as it can be stored. -/
  read_write : ∀ (raw : List Byte) (p : ℕ) (v : β), p + n ≤ raw.length →
    (read p (put raw p (write v))).1 = stored v
  /-- Writing what was read changes nothing. -/
  write_read : ∀ (raw : List Byte) (p : ℕ), p + n ≤ raw.length →
    put raw p (write (read p raw).1) = raw
  /-- The last write stands. -/
  write_write : ∀ (raw : List Byte) (p : ℕ) (u v : β), p + n ≤ raw.length →
    put (put raw p (write u)) p (write v) = put raw p (write v)
  /-- No byte outside the field is written, and the buffer keeps its size. -/
  frame : ∀ (raw : List Byte) (p : ℕ) (v : β), (put raw p (write v)).length = raw.length ∧
    ∀ q m, q + m ≤ p ∨ p + n ≤ q → slice (put raw p (write v)) q m = slice raw q m
  /-- What is read depends on the bytes of the field only. -/
  read_local : ∀ (raw raw' : List Byte) (p p' : ℕ), p + n ≤ raw.length → p' + n ≤ raw'.length →
    slice raw p n = slice raw' p' n → (read p raw).1 = (read p' raw').1
  /-- No read is outside the field. -/
  read_within : ∀ (raw : List Byte) (p : ℕ), ∀ i ∈ (read p raw).2, p ≤ i ∧ i < p + n

/-- A reader and a writer make a field if the reader reads the number that the bytes
stand for, and the writer writes the bytes of what it is given. -/
theorem isField_of_bytes {toNat : β → ℕ} {ofNat : ℕ → β}
    (hread : ∀ raw p, p + n ≤ raw.length → (read p raw).1 = ofNat (bigEndian (slice raw p n)))
    (hwrite : ∀ v, write v = bytesOf n (toNat v))
    (hof : ∀ a < 256 ^ n, toNat (ofNat a) = a)
    (hstored : ∀ v, ofNat (toNat v % 256 ^ n) = stored v)
    (hwithin : ∀ raw p, ∀ i ∈ (read p raw).2, p ≤ i ∧ i < p + n) :
    IsField n read write stored where
  read_write raw p v h := by
    have hlen : (write v).length = n := by rw [hwrite, length_bytesOf]
    have hslice : slice (put raw p (write v)) p n = write v := by
      have : slice (put raw p (write v)) p (write v).length = write v := slice_put (by omega)
      rwa [hlen] at this
    rw [hread _ p (by rw [length_put]; exact h), hslice, hwrite, bigEndian_bytesOf, hstored]
  write_read raw p h := by
    have hlen : (slice raw p n).length = n := length_slice h
    have hlt : bigEndian (slice raw p n) < 256 ^ n := by
      have := bigEndian_lt (slice raw p n)
      rwa [hlen] at this
    rw [hread raw p h, hwrite, hof _ hlt, bytesOf_slice h, put_slice h]
  write_write raw p u v h := by
    apply put_put
    · rw [hwrite, hwrite, length_bytesOf, length_bytesOf]
    · rw [hwrite, length_bytesOf]
      exact h
  frame raw p v := by
    refine ⟨length_put raw p (write v), fun q m hout => slice_put_of_disjoint raw (write v) ?_⟩
    rw [hwrite, length_bytesOf]
    exact hout
  read_local raw raw' p p' h h' hslice := by rw [hread raw p h, hread raw' p' h', hslice]
  read_within := hwithin

end Field

/-! ### The four widths -/

theorem isField_u16 : IsField 2 readU16Be writeU16Be id := by
  refine isField_of_bytes (fun _ _ h => readU16Be_eq h) writeU16Be_eq ?_ ?_ ?_
  · exact fun a h => UInt16.toNat_ofNat_of_lt' h
  · intro v
    have hlt : v.toNat < 256 ^ 2 := v.toNat_lt
    rw [Nat.mod_eq_of_lt hlt, UInt16.ofNat_toNat, id]
  · intro raw p i hi
    simp [readU16Be, Reads.byteAt] at hi
    omega

theorem isField_u32 : IsField 4 readU32Be writeU32Be id := by
  refine isField_of_bytes (fun _ _ h => readU32Be_eq h) writeU32Be_eq ?_ ?_ ?_
  · exact fun a h => UInt32.toNat_ofNat_of_lt' h
  · intro v
    have hlt : v.toNat < 256 ^ 4 := v.toNat_lt
    rw [Nat.mod_eq_of_lt hlt, UInt32.ofNat_toNat, id]
  · intro raw p i hi
    simp [readU32Be, Reads.byteAt] at hi
    omega

/-- The field of a timestamp drops the bits that have no byte. -/
theorem isField_u48 : IsField 6 readU48Be writeU48Be (fun v => v % 0x1000000000000) := by
  refine isField_of_bytes (fun _ _ h => readU48Be_eq h) writeU48Be_eq ?_ ?_ ?_
  · intro a h
    have hlt : a < 2 ^ 64 := by omega
    exact UInt64.toNat_ofNat_of_lt' hlt
  · intro v
    have hlt : v.toNat % 256 ^ 6 < 2 ^ 64 := by omega
    rw [← UInt64.toNat_inj, UInt64.toNat_ofNat_of_lt' hlt, UInt64.toNat_mod]
    rfl
  · intro raw p i hi
    simp [readU48Be, Reads.byteAt] at hi
    omega

theorem isField_u64 : IsField 8 readU64Be writeU64Be id := by
  refine isField_of_bytes (fun _ _ h => readU64Be_eq h) writeU64Be_eq ?_ ?_ ?_
  · exact fun a h => UInt64.toNat_ofNat_of_lt' h
  · intro v
    have hlt : v.toNat < 256 ^ 8 := v.toNat_lt
    rw [Nat.mod_eq_of_lt hlt, UInt64.ofNat_toNat, id]
  · intro raw p i hi
    simp [readU64Be, Reads.byteAt] at hi
    omega

/-- **The four widths are fields, and the generator appends the bytes that are
written.**  What is read back is what was written, but for the upper 16 bits of what
is written as a timestamp. -/
theorem byteorder_fields :
    IsField 2 readU16Be writeU16Be id ∧ IsField 4 readU32Be writeU32Be id ∧
      IsField 6 readU48Be writeU48Be (fun v => v % 0x1000000000000) ∧
      IsField 8 readU64Be writeU64Be id ∧
      (∀ buf v, appendU16 buf v = buf ++ writeU16Be v) ∧
      (∀ buf v, appendU32 buf v = buf ++ writeU32Be v) ∧
      (∀ buf v, appendU48 buf v = buf ++ writeU48Be v) ∧
      ∀ buf v, appendU64 buf v = buf ++ writeU64Be v :=
  ⟨isField_u16, isField_u32, isField_u48, isField_u64, appendU16_eq_write, appendU32_eq_write,
    appendU48_eq_write, appendU64_eq_write⟩

end Liquibook
