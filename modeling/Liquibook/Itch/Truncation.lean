import Liquibook.Itch.Framing

/-!
# Files that are cut off

A file may end in the middle of a message: its writer was interrupted, or it is still being
written.  `next_raw_message` of `itch/file_reader.cpp` then stops in front of the message
that is not complete.

Every byte string is a sequence of framed messages with an incomplete tail behind them, and it
is one in a single way.  So what a reader finds is all that `write_framed` can have put
there, and the reader of a file that is cut off finds the same messages at the same places
as the reader of the whole file, up to the cut.

## Main results

* `exists_framed` — **every byte string is framed messages and an incomplete tail.**
* `producerFrames_take` — what is cut off does not change what stands in front of it.
* `truncated_file_reads_prefix` — **a reader finds what was written, up to the cut.**
-/

namespace Liquibook

open Lib

/-! ### What a byte string is made of -/

/-- What is not a frame is incomplete. -/
theorem incomplete_of_nextFrame {raw : List Byte} (h : nextFrame raw = none) : Incomplete raw := by
  match raw with
  | [] => exact Or.inl (by simp)
  | [_] => exact Or.inl (by simp)
  | b0 :: b1 :: rest =>
    rw [nextFrame] at h
    split at h
    · cases h
    · next hlt => exact Or.inr ⟨b0, b1, rest, rfl, Nat.lt_of_not_le hlt⟩

/-- The two bytes of a length. -/
theorem writeU16Be_bigEndian (b0 b1 : Byte) :
    writeU16Be (UInt16.ofNat (bigEndian [b0, b1])) = [b0, b1] := by
  have hlt : bigEndian [b0, b1] < 2 ^ 16 := by simpa using bigEndian_lt [b0, b1]
  have happ := appendU16_eq [] (UInt16.ofNat (bigEndian [b0, b1]))
  rw [UInt16.toNat_ofNat_of_lt' hlt] at happ
  have hbytes : writeU16Be (UInt16.ofNat (bigEndian [b0, b1])) =
      bytesOf 2 (bigEndian [b0, b1]) := by
    simpa [appendU16, writeU16Be] using happ
  rw [hbytes]
  exact bytesOf_bigEndian [b0, b1]

/-- A frame is a message behind its length. -/
theorem framed_of_nextFrame {raw frame rest : List Byte} (h : nextFrame raw = some (frame, rest)) :
    frame.length < 65536 ∧ writeFramed [] frame ++ rest = raw := by
  match raw with
  | [] => cases h
  | [_] => cases h
  | b0 :: b1 :: tail =>
    have hlt : bigEndian [b0, b1] < 65536 := by simpa using bigEndian_lt [b0, b1]
    rw [nextFrame] at h
    split at h
    · next hle =>
      simp only [Option.some.injEq, Prod.mk.injEq] at h
      obtain ⟨rfl, rfl⟩ := h
      have hlen : (tail.take (bigEndian [b0, b1])).length = bigEndian [b0, b1] :=
        List.length_take_of_le hle
      rw [hlen]
      refine ⟨hlt, ?_⟩
      rw [writeFramed, hlen, writeU16Be_bigEndian]
      simp
    · cases h

/-- **Every byte string is framed messages and an incomplete tail.** -/
theorem exists_framed (raw : List Byte) :
    ∃ tail, Incomplete tail ∧ (∀ m ∈ frames raw, m.length < 65536) ∧
      (frames raw).foldl writeFramed [] ++ tail = raw := by
  induction raw using frames.induct with
  | case1 raw h =>
    rw [frames_of_none h]
    exact ⟨raw, incomplete_of_nextFrame h, fun m hm => (by cases hm), rfl⟩
  | case2 raw frame rest h ih =>
    obtain ⟨tail, htail, hlens, hrest⟩ := ih
    obtain ⟨hlen, hframe⟩ := framed_of_nextFrame h
    rw [frames_of_some h]
    refine ⟨tail, htail, fun m hm => ?_, ?_⟩
    · rcases List.mem_cons.mp hm with rfl | hm
      · exact hlen
      · exact hlens m hm
    · rw [foldl_writeFramed, List.nil_append] at hrest ⊢
      rw [List.flatMap_cons, List.append_assoc, hrest]
      exact hframe

/-! ### What is cut off -/

section Cut

variable {raw : List Byte} {n : ℕ} {o o' : UInt64} {f : Frame}

/-- An iteration that finds a frame in front of the cut finds the same one without it. -/
theorem producerFrame_take (hraw : Walkable raw) (ho : o.toNat ≤ (raw.take n).length)
    (h : producerFrame (raw.take n) o = some (f, o')) : producerFrame raw o = some (f, o') := by
  have hle : (raw.take n).length ≤ raw.length := by
    rw [List.length_take]
    exact Nat.min_le_right _ _
  obtain ⟨hone, htwo⟩ := hraw.toNat_offset (ho.trans hle)
  unfold Walkable at hraw
  have hsize : (UInt64.ofNat raw.length).toNat = raw.length :=
    UInt64.toNat_ofNat_of_lt' (show _ < 2 ^ 64 by omega)
  have hcut : (UInt64.ofNat (raw.take n).length).toNat = (raw.take n).length :=
    UInt64.toNat_ofNat_of_lt' (show _ < 2 ^ 64 by omega)
  unfold producerFrame at h ⊢
  dsimp only at h ⊢
  split at h
  · next hroom =>
    rw [UInt64.le_iff_toNat_le, htwo, hcut] at hroom
    -- the two bytes of the length are in front of the cut
    have hsame : ∀ i, i < (raw.take n).length →
        (raw.take n).getD i default = raw.getD i default := by
      intro i hi
      have hin : i < n := by
        rw [List.length_take] at hi
        omega
      rw [List.getD_eq_getElem?_getD, List.getD_eq_getElem?_getD, List.getElem?_take_of_lt hin]
    rw [hsame _ (by omega), hsame _ (by omega)] at h
    rw [if_pos (by rw [UInt64.le_iff_toNat_le, htwo, hsize]; omega)]
    split at h
    · cases h
    · next hfits =>
      rw [gt_iff_lt, UInt64.lt_iff_toNat_lt, hcut] at hfits
      rw [if_neg (by rw [gt_iff_lt, UInt64.lt_iff_toNat_lt, hsize]; omega)]
      exact h
  · cases h

/-- **What is cut off does not change what stands in front of it.** -/
theorem producerFrames_take (hraw : Walkable raw) : ∀ (fuel : ℕ) {o : UInt64} {gs fs : List Frame},
    o.toNat ≤ (raw.take n).length → producerFrames (raw.take n) fuel o = some gs →
    producerFrames raw fuel o = some fs → gs <+: fs := by
  have hcut : Walkable (raw.take n) := by
    unfold Walkable at hraw ⊢
    rw [List.length_take]
    omega
  intro fuel
  induction fuel with
  | zero => exact fun _ h => (by cases h)
  | succ fuel ih =>
    intro o gs fs ho hgs hfs
    rw [producerFrames] at hgs hfs
    obtain ⟨hp, -⟩ | ⟨f, o', hp, -, ho', -, -⟩ := producerFrame_cases hcut ho
    · rw [hp] at hgs
      obtain rfl := Option.some.inj hgs
      exact List.nil_prefix
    · rw [hp] at hgs
      rw [producerFrame_take hraw ho hp] at hfs
      obtain ⟨gs', hgs', rfl⟩ := Option.map_eq_some_iff.mp hgs
      obtain ⟨fs', hfs', rfl⟩ := Option.map_eq_some_iff.mp hfs
      exact List.cons_prefix_cons.mpr ⟨rfl, ih ho' hgs' hfs'⟩

end Cut

/-- **A reader finds what was written, up to the cut.**  The messages that a reader returns,
framed again, and what is left behind them are the file; this is the only way to write the
file as framed messages with an incomplete tail; and cut off anywhere, the file gives the
first of the messages, at the same places. -/
theorem truncated_file_reads_prefix {raw : List Byte} (hraw : Walkable raw) :
    ∃ (fs : List Frame) (tail : List Byte), Incomplete tail ∧
      (∀ k, (ItchFileReader.new raw).calls k =
        (fs.map some).take k ++ List.replicate (k - fs.length) none) ∧
      (fs.map fun f => f.bytes raw).foldl writeFramed [] ++ tail = raw ∧
      (∀ msgs tail', (∀ m ∈ msgs, m.length < 65536) → Incomplete tail' →
        msgs.foldl writeFramed [] ++ tail' = raw →
        msgs = fs.map (fun f => f.bytes raw) ∧ tail' = tail) ∧
      ∀ n, ∃ gs, gs <+: fs ∧ ∀ k, (ItchFileReader.new (raw.take n)).calls k =
        (gs.map some).take k ++ List.replicate (k - gs.length) none := by
  have hstart : ∀ raw : List Byte, (0 : UInt64).toNat ≤ raw.length := fun raw => Nat.zero_le _
  obtain ⟨fs, hw⟩ := exists_walk hraw (hstart raw)
  have hframes : fs.map (fun f => f.bytes raw) = frames raw := hw.bytes_eq
  obtain ⟨tail, htail, -, hraw'⟩ := exists_framed raw
  refine ⟨fs, tail, htail, hw.calls_new hraw, by rw [hframes]; exact hraw', ?_, fun n => ?_⟩
  · -- what is framed is found again
    intro msgs tail' hmsgs htail' heq
    have hsame : msgs = frames raw := by
      rw [← heq, foldl_writeFramed, List.nil_append]
      exact (frames_framed htail' hmsgs).symm
    refine ⟨hsame.trans hframes.symm, ?_⟩
    rw [hsame] at heq
    exact List.append_cancel_left (heq.trans hraw'.symm)
  · have hcut : Walkable (raw.take n) := by
      unfold Walkable at hraw ⊢
      rw [List.length_take]
      omega
    obtain ⟨gs, hg⟩ := exists_walk hcut (hstart (raw.take n))
    have hle : (raw.take n).length ≤ raw.length := by
      rw [List.length_take]
      exact Nat.min_le_right _ _
    refine ⟨gs, ?_, hg.calls_new hcut⟩
    exact producerFrames_take hraw (raw.length + 1) (hstart _)
      (hg.producer _ (by rw [UInt64.toNat_zero]; omega))
      (hw.producer _ (by rw [UInt64.toNat_zero]; omega))

/-- A message of two bytes, and one of three of which the last is missing. -/
theorem truncated_file_reads_prefix_two :
    ∃ (fs : List Frame) (tail : List Byte), Incomplete tail ∧
      (fs.map fun f => f.bytes [0, 2, 1, 2, 0, 3, 1, 2]).foldl writeFramed [] ++ tail =
        [0, 2, 1, 2, 0, 3, 1, 2] := by
  have hwalk : Walkable [0, 2, 1, 2, 0, 3, 1, 2] := by
    unfold Walkable
    decide
  obtain ⟨fs, tail, htail, -, hframed, -⟩ := truncated_file_reads_prefix hwalk
  exact ⟨fs, tail, htail, hframed⟩

end Liquibook
