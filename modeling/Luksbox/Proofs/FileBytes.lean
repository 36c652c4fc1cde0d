import Luksbox.Lib.ByteFile
import Luksbox.Proofs.Chains

/-!
# The bytes a write leaves

`written` and `truncated` say chunk by chunk what a call leaves. Here the
chunks are laid end to end: what each kind of change does to one byte of the
array, and from that the bytes of the file after the whole call. Where the
array and the file differ is the size header, which shifts every position by
`headerLen`, and the chunks past the end, whose bytes belong to nobody until the
file grows over them.
-/

namespace Luksbox

open Lib Lib.ByteFile Vfs

namespace Chunk

theorem get_fill (c : Chunk) {a b i : Nat} (hi : i < 4096) :
    (c.fill a b).get i = if a ≤ i ∧ i < b then 0 else c.get i := by
  unfold get fill
  rw [dif_pos hi, dif_pos hi]

end Chunk

variable {content : Nat → Option Chunk} {hide : Bool} {lo hi pos : Nat}

theorem byteAt_fileBytes {len i : Nat} (h : i < len) :
    byteAt (fileBytes content hide lo len) i = flatAt content (lo + headerLen hide + i) := by
  unfold byteAt fileBytes
  rw [List.getElem?_map, List.getElem?_range' h, Nat.one_mul]
  rfl

/-- A file read in pieces. -/
theorem slice_fileBytes {n off len : Nat} :
    slice (fileBytes content hide 0 n) off len = fileBytes content hide off (min len (n - off)) := by
  refine ext_byteAt ?_ fun i hi => ?_
  · rw [slice_length, fileBytes_length, fileBytes_length]
  · rw [slice_length, fileBytes_length] at hi
    rw [byteAt_slice (by omega), byteAt_fileBytes (by omega), byteAt_fileBytes hi]
    congr 1
    omega

/-! ## One byte of the array -/

theorem flatAt_of_none (h : content (pos / chunkPlaintextSize) = none) : flatAt content pos = 0 := by
  unfold flatAt
  rw [h]

theorem flatAt_congr {content' : Nat → Option Chunk}
    (h : content' (pos / chunkPlaintextSize) = content (pos / chunkPlaintextSize)) :
    flatAt content' pos = flatAt content pos := by
  unfold flatAt
  rw [h]

theorem Chunk.get_zero {i : Nat} : Chunk.zero.get i = 0 := by
  unfold Chunk.get Chunk.zero
  split
  · rfl
  · rfl

theorem flatAt_zeroed {a b : Nat} : flatAt (zeroed content a b) pos =
    if a ≤ pos / chunkPlaintextSize ∧ pos / chunkPlaintextSize < b then 0
    else flatAt content pos := by
  by_cases hin : a ≤ pos / chunkPlaintextSize ∧ pos / chunkPlaintextSize < b
  · rw [if_pos hin]
    unfold flatAt zeroed
    rw [if_pos hin]
    exact Chunk.get_zero
  · rw [if_neg hin]
    refine flatAt_congr ?_
    unfold zeroed
    rw [if_neg hin]

theorem flatAt_cleared {idxs : List Nat} :
    flatAt (changed (clearedPart lo hi hide) idxs content) pos =
      if pos / chunkPlaintextSize ∈ idxs ∧ lo + headerLen hide ≤ pos ∧ pos < hi + headerLen hide
      then 0 else flatAt content pos := by
  have hmod : pos % chunkPlaintextSize < 4096 := Nat.mod_lt pos (by decide)
  by_cases hin : pos / chunkPlaintextSize ∈ idxs
  · cases hpt : content (pos / chunkPlaintextSize) with
    | none =>
        have hnone : changed (clearedPart lo hi hide) idxs content (pos / chunkPlaintextSize) =
            none := by
          unfold changed
          rw [if_pos hin, hpt]
          rfl
        rw [flatAt_of_none hnone, flatAt_of_none hpt]
        split <;> rfl
    | some pt =>
        have hpart : (partStart (pos / chunkPlaintextSize) lo hide ≤ pos % chunkPlaintextSize ∧
            pos % chunkPlaintextSize < partStop (pos / chunkPlaintextSize) hi hide) ↔
            (lo + headerLen hide ≤ pos ∧ pos < hi + headerLen hide) := by
          unfold partStart partStop chunkPlaintextSize
          omega
        unfold flatAt changed clearedPart
        rw [if_pos hin, hpt]
        show (pt.fill _ _).get _ = _
        rw [Chunk.get_fill pt hmod]
        by_cases hpos : lo + headerLen hide ≤ pos ∧ pos < hi + headerLen hide
        · rw [if_pos (hpart.mpr hpos), if_pos ⟨hin, hpos⟩]
        · rw [if_neg (fun h => hpos (hpart.mp h)), if_neg (fun h => hpos h.2)]
  · rw [if_neg (fun h => hin h.1)]
    refine flatAt_congr ?_
    unfold changed
    rw [if_neg hin]

/-- The size header is in front of the file's bytes. -/
theorem get_installSizeHeader {pt : Chunk} {size i : Nat} (hi : i < 4096) (h : sizeHeaderLen ≤ i) :
    (installSizeHeader pt size).get i = pt.get i := by
  unfold installSizeHeader
  rw [Chunk.get_overlay pt hi, if_neg]
  rw [leBytes_length]
  omega

theorem flatAt_withHeader {b : Bool} {size : Nat} (h : b = true → sizeHeaderLen ≤ pos) :
    flatAt (withHeader b size content) pos = flatAt content pos := by
  by_cases hh : b = true ∧ pos / chunkPlaintextSize = 0
  · have hpos := h hh.1
    have hlt : pos % chunkPlaintextSize < 4096 := Nat.mod_lt pos (by decide)
    have hmod : pos % chunkPlaintextSize = pos := by
      have := Nat.div_add_mod pos chunkPlaintextSize
      rw [hh.2, Nat.mul_zero, Nat.zero_add] at this
      exact this
    have hmap : withHeader b size content (pos / chunkPlaintextSize) =
        (content (pos / chunkPlaintextSize)).map fun pt => installSizeHeader pt size := by
      unfold withHeader
      rw [if_pos hh]
    unfold flatAt
    rw [hmap]
    cases content (pos / chunkPlaintextSize) with
    | none => rfl
    | some pt => exact get_installSizeHeader hlt (by rw [hmod]; exact hpos)
  · refine flatAt_congr ?_
    unfold withHeader
    rw [if_neg hh]

theorem get_patchedPart {w : WriteArgs} {k i : Nat} {pt : Chunk} (hi : i < 4096)
    (h : w.hideSize = true → k = 0 → sizeHeaderLen ≤ i) :
    (patchedPart w k pt).get i =
      if partStart k w.offset w.hideSize ≤ i ∧
        i < partStart k w.offset w.hideSize + (bytesFor w k).length
      then (bytesFor w k).getD (i - partStart k w.offset w.hideSize) 0
      else if (k = w.firstChunk ∧ k < w.curLen ∧ w.offset > w.oldReal) ∧
          partStart k w.oldReal w.hideSize ≤ i ∧ i < partStart k w.offset w.hideSize
        then 0 else pt.get i := by
  -- the header, then the new bytes, then the hole
  have hheader : ∀ c : Chunk, (if w.hideSize = true ∧ k = 0 then installSizeHeader c w.newReal
      else c).get i = c.get i := by
    intro c
    split
    · next hh => exact get_installSizeHeader hi (h hh.1 hh.2)
    · rfl
  have hhole : (if k = w.firstChunk ∧ k < w.curLen ∧ w.offset > w.oldReal
      then pt.fill (partStart k w.oldReal w.hideSize) (partStart k w.offset w.hideSize)
      else pt).get i = if (k = w.firstChunk ∧ k < w.curLen ∧ w.offset > w.oldReal) ∧
          partStart k w.oldReal w.hideSize ≤ i ∧ i < partStart k w.offset w.hideSize
        then 0 else pt.get i := by
    by_cases hk : k = w.firstChunk ∧ k < w.curLen ∧ w.offset > w.oldReal
    · rw [if_pos hk, Chunk.get_fill pt hi]
      exact if_congr ⟨fun hin => ⟨hk, hin⟩, And.right⟩ rfl rfl
    · rw [if_neg hk, if_neg (fun h => hk h.1)]
  unfold patchedPart
  simp only
  rw [hheader, Chunk.get_overlay _ hi, hhole]

theorem bytesFor_length {w : WriteArgs} {k lastChunk : Nat} (hw : w.Fits lastChunk)
    (hge : w.firstChunk ≤ k) (hle : k ≤ lastChunk) :
    (bytesFor w k).length =
      partStop k w.newEnd w.hideSize - partStart k w.offset w.hideSize := by
  have hfit := hw.bufAt_le hge hle
  unfold bytesFor
  rw [List.length_take, List.length_drop]
  omega

/-- The chunks that a write covers. -/
theorem flatAt_patched {w : WriteArgs} {lastChunk : Nat} (hw : w.Fits lastChunk)
    (hpos : headerLen w.hideSize ≤ pos)
    (hsome : ∀ k, w.firstChunk ≤ k → k ≤ lastChunk → content k ≠ none) :
    flatAt (changed (patchedPart w) (chunksThrough w.firstChunk lastChunk) content) pos =
      if w.offset + headerLen w.hideSize ≤ pos ∧ pos < w.newEnd + headerLen w.hideSize
      then byteAt w.buf (pos - headerLen w.hideSize - w.offset)
      else if (pos / chunkPlaintextSize = w.firstChunk ∧ w.firstChunk < w.curLen) ∧
          w.oldReal + headerLen w.hideSize ≤ pos ∧ pos < w.offset + headerLen w.hideSize
        then 0 else flatAt content pos := by
  have hlt : pos % chunkPlaintextSize < 4096 := Nat.mod_lt pos (by decide)
  have hlong := List.length_pos_iff.mpr hw.some
  have hend := hw.newEnd
  by_cases hin : pos / chunkPlaintextSize ∈ chunksThrough w.firstChunk lastChunk
  · obtain ⟨hge, hle⟩ := mem_chunksThrough.mp hin
    obtain ⟨pt, hpt⟩ := Option.ne_none_iff_exists'.mp (hsome _ hge hle)
    have hhere : changed (patchedPart w) (chunksThrough w.firstChunk lastChunk) content
        (pos / chunkPlaintextSize) = some (patchedPart w (pos / chunkPlaintextSize) pt) := by
      unfold changed
      rw [if_pos hin, hpt]
      rfl
    have hold : flatAt content pos = pt.get (pos % chunkPlaintextSize) := by
      unfold flatAt
      rw [hpt]
    have hnew : flatAt (changed (patchedPart w) (chunksThrough w.firstChunk lastChunk) content)
        pos = (patchedPart w (pos / chunkPlaintextSize) pt).get (pos % chunkPlaintextSize) := by
      unfold flatAt
      rw [hhere]
    have hheader : w.hideSize = true → pos / chunkPlaintextSize = 0 →
        sizeHeaderLen ≤ pos % chunkPlaintextSize := by
      intro hh hz
      unfold headerLen at hpos
      rw [if_pos hh] at hpos
      unfold chunkPlaintextSize at hz ⊢
      omega
    have hbytes := bytesFor_length hw hge hle
    have hparts := hw.part_le hge hle
    have hfirst := hw.first
    rw [hnew, hold, get_patchedPart hlt hheader]
    by_cases hnewByte : w.offset + headerLen w.hideSize ≤ pos ∧
        pos < w.newEnd + headerLen w.hideSize
    · have hpart : partStart (pos / chunkPlaintextSize) w.offset w.hideSize ≤
          pos % chunkPlaintextSize ∧ pos % chunkPlaintextSize <
            partStart (pos / chunkPlaintextSize) w.offset w.hideSize +
              (bytesFor w (pos / chunkPlaintextSize)).length := by
        rw [hbytes, Nat.add_sub_cancel' hparts]
        unfold partStart partStop chunkPlaintextSize
        omega
      have hat : bufAt w (pos / chunkPlaintextSize) + (pos % chunkPlaintextSize -
          partStart (pos / chunkPlaintextSize) w.offset w.hideSize) =
          pos - headerLen w.hideSize - w.offset := by
        unfold bufAt partStart chunkPlaintextSize
        omega
      rw [if_pos hpart, if_pos hnewByte, ← hat]
      unfold bytesFor byteAt
      rw [List.getD_eq_getElem?_getD, List.getElem?_take, if_pos, List.getElem?_drop]
      omega
    · have hpart : ¬ (partStart (pos / chunkPlaintextSize) w.offset w.hideSize ≤
          pos % chunkPlaintextSize ∧ pos % chunkPlaintextSize <
            partStart (pos / chunkPlaintextSize) w.offset w.hideSize +
              (bytesFor w (pos / chunkPlaintextSize)).length) := by
        rw [hbytes, Nat.add_sub_cancel' hparts]
        unfold partStart partStop chunkPlaintextSize
        omega
      rw [if_neg hpart, if_neg hnewByte]
      refine if_congr ?_ rfl rfl
      unfold partStart chunkPlaintextSize
      omega
  · -- no byte of the range is outside the covered chunks
    have hout : ¬ (w.firstChunk ≤ pos / chunkPlaintextSize ∧ pos / chunkPlaintextSize ≤ lastChunk) :=
      fun h => hin (mem_chunksThrough.mpr h)
    have hsame : flatAt (changed (patchedPart w) (chunksThrough w.firstChunk lastChunk) content)
        pos = flatAt content pos := by
      refine flatAt_congr ?_
      unfold changed
      rw [if_neg hin]
    have hfirst := hw.first
    have hlast := hw.last
    have hno : ¬ (w.offset + headerLen w.hideSize ≤ pos ∧ pos < w.newEnd + headerLen w.hideSize) := by
      unfold chunkPlaintextSize at hout hfirst hlast
      omega
    rw [hsame, if_neg hno, if_neg]
    unfold chunkPlaintextSize at hout hfirst hlast ⊢
    omega

/-! ## The whole call -/

theorem mem_gapChunks_iff {w : WriteArgs} {k : Nat} : k ∈ gapChunks w ↔
    (w.offset > w.oldReal ∧ w.curLen > 0) ∧
      (w.oldReal + headerLen w.hideSize) / chunkPlaintextSize ≤ k ∧ k < w.firstChunk ∧
        k < w.curLen := by
  unfold gapChunks
  by_cases hgap : w.offset > w.oldReal ∧ w.curLen > 0
  · rw [if_pos hgap, List.mem_range'_1]
    omega
  · rw [if_neg hgap]
    exact ⟨fun h => absurd h List.not_mem_nil, fun h => absurd h.1 hgap⟩

theorem changed_ne_none {change : Nat → Chunk → Chunk} {idxs : List Nat} {k : Nat}
    (h : content k ≠ none) : changed change idxs content k ≠ none := by
  unfold changed
  split
  · rw [Ne, Option.map_eq_none_iff]
    exact h
  · exact h

theorem zeroed_ne_none {a b k : Nat} (h : content k ≠ none ∨ (a ≤ k ∧ k < b)) :
    zeroed content a b k ≠ none := by
  unfold zeroed
  split
  · exact Option.some_ne_none _
  · next hout => exact h.resolve_right hout

/-- What `write` leaves: the new bytes, and zeros between the old end and the
place it starts at. -/
theorem fileBytes_written {w : WriteArgs} {targetCount lastChunk : Nat} (hw : w.Fits lastChunk)
    (hnew : w.newReal = max w.oldReal w.newEnd) (hlt : lastChunk < targetCount)
    (hsome : ∀ k, k < w.curLen → content k ≠ none) (hnone : ∀ k, w.curLen ≤ k → content k = none) :
    fileBytes (written w targetCount lastChunk content) w.hideSize 0 w.newReal =
      overwrite (fileBytes content w.hideSize 0 w.oldReal) w.offset w.buf := by
  have hend := hw.newEnd
  have hfirst := hw.first
  have hlen := @fileBytes_length content w.hideSize 0 w.oldReal
  refine ext_byteAt ?_ fun i hi => ?_
  · rw [fileBytes_length, overwrite_length, hlen, hnew, hend]
  rw [fileBytes_length] at hi
  rw [byteAt_fileBytes hi, byteAt_overwrite, Nat.zero_add]
  generalize hpos : headerLen w.hideSize + i = pos
  have hheader : w.hideSize = true → sizeHeaderLen ≤ pos := by
    intro hh
    rw [← hpos]
    unfold headerLen
    rw [if_pos hh]
    exact Nat.le_add_right _ _
  -- the byte the file had before, zero where it had none
  have hold : byteAt (fileBytes content w.hideSize 0 w.oldReal) i =
      if i < w.oldReal then flatAt content pos else 0 := by
    split
    · next h => rw [byteAt_fileBytes h, Nat.zero_add, hpos]
    · next h => exact byteAt_of_ge (by rw [hlen]; omega)
  have hmissing : ¬ pos / chunkPlaintextSize < w.curLen → flatAt content pos = 0 :=
    fun h => flatAt_of_none (hnone _ (Nat.not_lt.mp h))
  unfold written
  rw [flatAt_withHeader fun hr => hheader ?_, flatAt_patched hw (by omega) ?_, flatAt_cleared,
    flatAt_zeroed, hold]
  · have hk : pos / chunkPlaintextSize ≤ w.firstChunk ∨ w.offset + headerLen w.hideSize ≤ pos := by
      unfold chunkPlaintextSize at hfirst ⊢
      omega
    have hgap : pos / chunkPlaintextSize ∈ gapChunks w ↔
        (w.offset > w.oldReal ∧ w.curLen > 0) ∧
          (w.oldReal + headerLen w.hideSize) / chunkPlaintextSize ≤ pos / chunkPlaintextSize ∧
          pos / chunkPlaintextSize < w.firstChunk ∧ pos / chunkPlaintextSize < w.curLen :=
      mem_gapChunks_iff
    by_cases hin : w.offset ≤ i ∧ i < w.offset + w.buf.length
    · rw [if_pos (by omega), if_pos hin]
      congr 1
      omega
    rw [if_neg (by omega), if_neg hin]
    by_cases hlow : i < w.oldReal
    · rw [if_neg (by omega), if_neg (by omega), if_pos hlow]
      split
      · next hz => exact (hmissing (by omega)).symm
      · rfl
    · -- between the old end and the written range
      rw [if_neg hlow]
      by_cases hcur : pos / chunkPlaintextSize < w.curLen
      · rcases Nat.lt_or_ge (pos / chunkPlaintextSize) w.firstChunk with hbefore | hat
        · have hfrom : (w.oldReal + headerLen w.hideSize) / chunkPlaintextSize ≤
              pos / chunkPlaintextSize := Nat.div_le_div_right (by omega)
          rw [if_neg (by omega), if_pos ⟨hgap.mpr ⟨⟨by omega, Nat.zero_lt_of_lt hcur⟩, hfrom, hbefore,
            hcur⟩, by omega⟩]
        · rw [if_pos (by omega)]
      · rw [if_neg (by omega), if_neg (fun h => hcur (hgap.mp h.1).2.2.2), hmissing hcur, ite_self]
  · intro k hge hle
    refine changed_ne_none (zeroed_ne_none ?_)
    rcases Nat.lt_or_ge k w.curLen with hk | hk
    · exact .inl (hsome k hk)
    · exact .inr (by omega)
  · unfold refreshes at hr
    simp only [Bool.and_eq_true] at hr
    exact hr.1.1.1

/-- What `truncate` leaves: the file cut, or extended with zeros. `len` chunks
are kept, and they are all there were unless the file is cut. -/
theorem fileBytes_truncated {oldReal newSize count len : Nat} {whole : Nat → Option Chunk}
    (hlast : 0 < newSize → (newSize - 1 + headerLen hide) / chunkPlaintextSize < count)
    (hkept : ∀ k, k < len → content k = whole k)
    (hall : ∀ k, len ≤ k → k < count → whole k = none) :
    fileBytes (truncated oldReal newSize count hide len content) hide 0 newSize =
      resize (fileBytes whole hide 0 oldReal) newSize := by
  have hlen := @fileBytes_length whole hide 0 oldReal
  refine ext_byteAt ?_ fun i hi => ?_
  · rw [fileBytes_length, resize_length]
  rw [fileBytes_length] at hi
  rw [byteAt_fileBytes hi, byteAt_resize, if_pos hi, Nat.zero_add]
  generalize hpos : headerLen hide + i = pos
  have hheader : hide = true → sizeHeaderLen ≤ pos := by
    intro hh
    rw [← hpos]
    unfold headerLen
    rw [if_pos hh]
    exact Nat.le_add_right _ _
  have hold : byteAt (fileBytes whole hide 0 oldReal) i =
      if i < oldReal then flatAt whole pos else 0 := by
    split
    · next h => rw [byteAt_fileBytes h, Nat.zero_add, hpos]
    · next h => exact byteAt_of_ge (by rw [hlen]; omega)
  have hin : pos / chunkPlaintextSize ≤ (newSize - 1 + headerLen hide) / chunkPlaintextSize :=
    Nat.div_le_div_right (by omega)
  have hcount : pos / chunkPlaintextSize < count := hin.trans_lt (hlast (by omega))
  unfold truncated
  rw [flatAt_withHeader hheader, flatAt_zeroed, flatAt_cleared, hold]
  by_cases hk : pos / chunkPlaintextSize < len
  · have hsome : 0 < len := Nat.zero_lt_of_lt hk
    rw [if_neg (by omega), flatAt_congr (hkept _ hk)]
    by_cases hlow : i < oldReal
    · rw [if_neg (by omega), if_pos hlow]
    · have hfrom : (oldReal + headerLen hide) / chunkPlaintextSize ≤ pos / chunkPlaintextSize :=
        Nat.div_le_div_right (by omega)
      have hmem : pos / chunkPlaintextSize ∈ clearedChunks oldReal newSize hide len := by
        unfold clearedChunks
        rw [if_neg (by omega)]
        exact mem_chunksThrough.mpr ⟨hfrom, le_min hin (by omega)⟩
      rw [if_pos ⟨hmem, by omega⟩, if_neg hlow]
  · have hout : len ≤ pos / chunkPlaintextSize := Nat.not_lt.mp hk
    rw [if_pos (by omega), flatAt_of_none (hall _ hout hcount), ite_self]

end Luksbox
