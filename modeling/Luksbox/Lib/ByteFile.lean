import Mathlib.Data.List.Basic

/-!
# Files as byte lists

What a file is to the one who uses it: a list of bytes that can be read in
pieces, overwritten at any place and cut or extended. A write past the end and
an extension fill up with zeros, so that every byte a file does not have counts
as zero; `byteAt` is a file seen so, and each operation is given by its length
and its bytes.
-/

namespace Luksbox.Lib.ByteFile

variable {bs buf : List UInt8} {n off len i : Nat}

/-- Byte `i`, zero past the end. -/
def byteAt (bs : List UInt8) (i : Nat) : UInt8 := bs[i]?.getD 0

/-- Cut to `n` bytes, or extend to `n` bytes with zeros. -/
def resize (bs : List UInt8) (n : Nat) : List UInt8 :=
  bs.take n ++ List.replicate (n - bs.length) 0

/-- Put `buf` in at `off`. -/
def overwrite (bs : List UInt8) (off : Nat) (buf : List UInt8) : List UInt8 :=
  let bs := resize bs (max bs.length (off + buf.length))
  bs.take off ++ buf ++ bs.drop (off + buf.length)

/-- At most `len` bytes from `off` on. -/
def slice (bs : List UInt8) (off len : Nat) : List UInt8 := (bs.drop off).take len

theorem byteAt_of_ge (h : bs.length ≤ i) : byteAt bs i = 0 := by
  unfold byteAt
  rw [List.getElem?_eq_none h]
  rfl

/-- Files of one length with the same bytes are the same. -/
theorem ext_byteAt {cs : List UInt8} (hlen : bs.length = cs.length)
    (h : ∀ i, i < bs.length → byteAt bs i = byteAt cs i) : bs = cs := by
  refine List.ext_getElem hlen fun i hi hi' => ?_
  have hbyte := h i hi
  unfold byteAt at hbyte
  rw [List.getElem?_eq_getElem hi, List.getElem?_eq_getElem hi'] at hbyte
  exact hbyte

theorem resize_length : (resize bs n).length = n := by
  unfold resize
  rw [List.length_append, List.length_take, List.length_replicate]
  omega

theorem byteAt_resize : byteAt (resize bs n) i = if i < n then byteAt bs i else 0 := by
  by_cases hn : i < n
  · rw [if_pos hn]
    unfold byteAt resize
    by_cases hi : i < bs.length
    · rw [List.getElem?_append_left (by rw [List.length_take]; omega), List.getElem?_take,
        if_pos hn]
    · rw [List.getElem?_append_right (by rw [List.length_take]; omega), List.length_take,
        List.getElem?_replicate, if_pos (by omega), List.getElem?_eq_none (by omega)]
      rfl
  · rw [if_neg hn]
    exact byteAt_of_ge (by rw [resize_length]; omega)

theorem overwrite_length : (overwrite bs off buf).length = max bs.length (off + buf.length) := by
  unfold overwrite
  simp only [List.length_append, List.length_take, List.length_drop, resize_length]
  omega

theorem byteAt_overwrite : byteAt (overwrite bs off buf) i =
    if off ≤ i ∧ i < off + buf.length then byteAt buf (i - off) else byteAt bs i := by
  have hgrown : byteAt (resize bs (max bs.length (off + buf.length))) i = byteAt bs i := by
    rw [byteAt_resize]
    split
    · rfl
    · exact (byteAt_of_ge (by omega)).symm
  have hhead : ((resize bs (max bs.length (off + buf.length))).take off).length = off := by
    rw [List.length_take, resize_length]
    omega
  by_cases hin : off ≤ i ∧ i < off + buf.length
  · rw [if_pos hin]
    unfold byteAt overwrite
    rw [List.getElem?_append_left (by rw [List.length_append, hhead]; omega),
      List.getElem?_append_right (by rw [hhead]; omega), hhead]
  · rw [if_neg hin, ← hgrown]
    unfold byteAt overwrite
    by_cases hlow : i < off
    · rw [List.append_assoc, List.getElem?_append_left (by rw [hhead]; omega), List.getElem?_take,
        if_pos hlow]
    · rw [List.getElem?_append_right (by rw [List.length_append, hhead]; omega),
        List.length_append, hhead, List.getElem?_drop]
      congr 2
      omega

theorem slice_length : (slice bs off len).length = min len (bs.length - off) := by
  unfold slice
  rw [List.length_take, List.length_drop]

theorem byteAt_slice (h : i < len) : byteAt (slice bs off len) i = byteAt bs (off + i) := by
  unfold byteAt slice
  rw [List.getElem?_take, if_pos h, List.getElem?_drop]

end Luksbox.Lib.ByteFile
