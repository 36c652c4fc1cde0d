import Luksbox.Proofs.Calls

/-!
# `read` and `stat`

The chunks of a file laid end to end are one array of bytes, and `read` returns
a piece of it: `flatAt` is the array, `fileBytes` a piece in the file's own
positions. The loop is followed by how far it has got in the array.

A read goes wrong only where the size it trusts lies past the last chunk;
`SizeFits` excludes that.
-/

namespace Luksbox

open Lib Relation

/-- Byte `pos` of the chunks laid end to end. -/
def flatAt (content : Nat → Option Chunk) (pos : Nat) : UInt8 :=
  match content (pos / chunkPlaintextSize) with
  | some pt => pt.get (pos % chunkPlaintextSize)
  | none => 0

/-- `len` bytes of a file from `lo` on. -/
def fileBytes (content : Nat → Option Chunk) (hide : Bool) (lo len : Nat) : List UInt8 :=
  (List.range' (lo + headerLen hide) len).map (flatAt content)

theorem fileBytes_length {content : Nat → Option Chunk} {hide : Bool} {lo len : Nat} :
    (fileBytes content hide lo len).length = len := by
  unfold fileBytes
  rw [List.length_map, List.length_range']

/-- A slice of one chunk is a piece of the array. -/
theorem slice_eq_flat {content : Nat → Option Chunk} {k start stop : Nat} {pt : Chunk}
    (hpt : content k = some pt) (hstop : stop ≤ chunkPlaintextSize) :
    pt.slice start stop =
      (List.range' (k * chunkPlaintextSize + start) (stop - start)).map (flatAt content) := by
  have hpos : 0 < chunkPlaintextSize := by decide
  unfold Chunk.slice
  rw [← List.map_add_range', List.map_map]
  refine List.map_congr_left fun j hj => ?_
  rw [List.mem_range'_1] at hj
  have hlt : j < chunkPlaintextSize := by omega
  have hdiv : (k * chunkPlaintextSize + j) / chunkPlaintextSize = k := by
    rw [Nat.mul_comm, Nat.mul_add_div hpos, Nat.div_eq_of_lt hlt, Nat.add_zero]
  have hmod : (k * chunkPlaintextSize + j) % chunkPlaintextSize = j := by
    rw [Nat.mul_comm, Nat.mul_add_mod, Nat.mod_eq_of_lt hlt]
  show pt.get j = flatAt content (k * chunkPlaintextSize + j)
  unfold flatAt
  rw [hdiv, hmod, hpt]

namespace Vfs

variable {P : Permit} {f : FileId} {c : Cfg}

/-- What the chunks of a file open to. -/
def chunkAt (s : Vfs) (f : FileId) (chunks : List ChunkRef) (idx : Nat) : Option Chunk :=
  chunks[idx]?.bind fun r => s.opens f idx r

/-- Only a file's environment has changed. -/
def Untouched (c c' : Cfg) : Prop :=
  c.Steady c' ∧ c'.vfs.container.slots = c.vfs.container.slots

theorem Untouched.refl : Untouched c c := ⟨Cfg.Steady.refl, rfl⟩

theorem Untouched.trans {c' c'' : Cfg} (h : Untouched c c') (h' : Untouched c' c'') :
    Untouched c c'' := ⟨h.1.trans h'.1, h'.2.trans h.2⟩

/-- How much of the range is in the chunks before chunk `k`. -/
def readBefore (k offset : Nat) (hide : Bool) : Nat :=
  k * chunkPlaintextSize - (offset + headerLen hide)

/-- The loop from chunk `k` on, with what was read before in `out`. -/
theorem readLoop_runs {chunks covered : List ChunkRef} {first last offset readEnd bufLen k m : Nat}
    {hide : Bool} {out : List UInt8} {c₀ : Cfg} (huntouched : Untouched c₀ c)
    (hkey : c.vfs.container.fileKey f = c₀.vfs.container.fileKey f)
    (hfirst : first = (offset + headerLen hide) / chunkPlaintextSize)
    (hlast : last = (readEnd - 1 + headerLen hide) / chunkPlaintextSize)
    (hlt : offset < readEnd) (hlen : readEnd - offset ≤ bufLen) (hbuf : bufLen ≤ u64Max)
    (hcovered : ∀ j, first ≤ j → j ≤ last → ∃ r, covered[j - first]? = some r ∧
      chunks[j]? = some r)
    (hk : first ≤ k) (hm : k + m = last + 1)
    (hout : out = fileBytes (c₀.vfs.chunkAt f chunks) hide offset
      (if m = 0 then readEnd - offset else readBefore k offset hide)) :
    Runs P f c (readLoop f covered first offset readEnd bufLen hide (List.range' k m) out)
      (fun r c' => r = fileBytes (c₀.vfs.chunkAt f chunks) hide offset (readEnd - offset) ∧
        Untouched c₀ c')
      (fun e _ => e ≠ .panic) := by
  induction m generalizing k out c with
  | zero =>
      refine runs_pure ⟨?_, huntouched⟩
      rw [hout, if_pos rfl]
  | succ m ih =>
      have hpos : 0 < chunkPlaintextSize := by decide
      have hsucc : (k + 1) * chunkPlaintextSize = k * chunkPlaintextSize + chunkPlaintextSize :=
        Nat.succ_mul k chunkPlaintextSize
      have habove : offset + headerLen hide < (k + 1) * chunkPlaintextSize := by
        rw [hfirst] at hk
        exact (Nat.div_lt_iff_lt_mul hpos).mp (Nat.lt_succ_of_le hk)
      have hkl : k ≤ last := by omega
      have hbelow : k * chunkPlaintextSize ≤ readEnd - 1 + headerLen hide := by
        rw [hlast] at hkl
        exact (Nat.le_div_iff_mul_le hpos).mp hkl
      rw [if_neg (Nat.succ_ne_zero m)] at hout
      have hstop := @partStop_le k readEnd hide
      have hle := partStart_le_partStop habove (by omega : k * chunkPlaintextSize <
        readEnd + headerLen hide) hlt.le
      -- the part of this chunk starts where the bytes read so far end
      have hbegin : k * chunkPlaintextSize + partStart k offset hide =
          offset + headerLen hide + readBefore k offset hide := by
        unfold partStart readBefore
        omega
      have hnext : readBefore k offset hide +
          (partStop k readEnd hide - partStart k offset hide) =
          if m = 0 then readEnd - offset else readBefore (k + 1) offset hide := by
        split
        · next hm0 =>
            have hklast : k = last := by omega
            have hend : readEnd - 1 + headerLen hide < (k + 1) * chunkPlaintextSize := by
              rw [hlast] at hklast
              rw [hklast]
              exact Nat.lt_mul_of_div_lt (Nat.lt_succ_self _) hpos
            unfold readBefore partStop partStart
            omega
        · have hmore : (k + 1) * chunkPlaintextSize ≤ readEnd - 1 + headerLen hide := by
            have hkl' : k + 1 ≤ last := by omega
            rw [hlast] at hkl'
            exact (Nat.le_div_iff_mul_le hpos).mp hkl'
          unfold readBefore partStop partStart
          omega
      have hsum : readBefore k offset hide +
          (partStop k readEnd hide - partStart k offset hide) ≤ readEnd - offset := by
        unfold readBefore partStop partStart
        omega
      obtain ⟨r, hr, hrc⟩ := hcovered k hk hkl
      rw [List.range'_succ]
      unfold readLoop
      rcases coveredPart_cases habove (by omega : k * chunkPlaintextSize <
        readEnd + headerLen hide) hlt.le with herr | hok
      · rw [herr]
        refine runs_bind (runs_fromExcept nofun ?_)
        intro e he
        injection he with he
        rw [← he]
        exact nofun
      · rw [hok]
        refine runs_bind (runs_fromExcept ?_ nofun)
        intro part hpart
        injection hpart with hpart
        subst hpart
        simp only
        rw [subU_of_le hk]
        refine runs_bind (runs_fromExcept ?_ nofun)
        intro pos hpos'
        injection hpos' with hpos'
        subst hpos'
        refine runs_bind (runs_fromExcept ?_ fun e he => ?_)
        · intro chunk hchunk
          have hcr : chunk = r := by
            have := index_eq_ok hchunk
            rw [hr] at this
            injection this with this
            exact this.symm
          subst hcr
          refine runs_bind (runs_mono readChunk_runs ?_ fun e _ _ he => he.1.1)
          rintro pt c₁ hp ⟨hst, hsl, hpt⟩
          have hcontent : c₀.vfs.chunkAt f chunks k = some pt := by
            unfold chunkAt opens
            rw [hrc, Option.bind_some, ← hkey, ← huntouched.2]
            exact hpt
          rw [checkSlice_ok hle hstop]
          refine runs_bind (runs_fromExcept ?_ nofun)
          rintro _ -
          have hlenout : out.length = readBefore k offset hide := by
            rw [hout, fileBytes_length]
          rw [hlenout, addU_small (by omega)]
          refine runs_bind (runs_fromExcept ?_ nofun)
          intro filled hfilled
          injection hfilled with hfilled
          refine runs_ite (fun hover => by omega) fun _ => ?_
          refine ih (huntouched.trans ⟨hst, hsl⟩) ?_ (by omega) (by omega) ?_
          · rw [(Path.frame hp).fileKey]
            exact hkey
          · rw [← hnext, hout, slice_eq_flat hcontent hstop, hbegin]
            unfold fileBytes
            rw [← List.map_append, List.range'_append_1]
        · have := index_error he
          have := (List.getElem?_eq_some_iff.mp hr).1
          omega

/-- The chunks of the file cover its size. -/
def SizeFits (s : Vfs) (f : FileId) : Prop :=
  ∀ i n, s.tree.inodes.get? f = some i → i.kind = .file → s.sizeOf f = some n → 0 < n →
    n + headerLen s.hideSize ≤ i.chunks.length * chunkPlaintextSize

/-- What a read that returned has done. -/
def HasRead (c : Cfg) (f : FileId) (offset bufLen : Nat) (r : Nat × List UInt8) : Prop :=
  ∃ n i, c.vfs.sizeOf f = some n ∧ c.vfs.tree.inodes.get? f = some i ∧ i.kind = .file ∧
    r.1 = min bufLen (n - offset) ∧
    r.2 = fileBytes (c.vfs.chunkAt f i.chunks) c.vfs.hideSize offset r.1

theorem read_runs {offset bufLen : Nat} :
    Runs P f c (read f offset bufLen) (fun r c' => HasRead c f offset bufLen r ∧ SizeKept c c')
      (fun e _ => SizeFits c.vfs f → e ≠ .panic) := by
  unfold read
  refine runs_bind (runs_mono realSize_runs ?_ fun _ _ _ he => fun _ => he)
  rintro n c₁ hp₁ ⟨hsize, -, hkept⟩
  have hf₁ := Path.frame hp₁
  cases hi : c.vfs.tree.inodes.get? f with
  | none =>
      unfold sizeOf at hsize
      rw [hi] at hsize
      cases hsize
  | some i =>
      obtain ⟨i₁, hi₁, hbare⟩ := hf₁.inode hi
      refine runs_bind (inodeOr_runs hi₁ ?_)
      have hkind₁ : i₁.kind = i.kind := Inode.bare_kind hbare
      have hchunks : i₁.chunks = i.chunks := Inode.bare_chunks hbare
      refine runs_ite (fun _ => runs_throw fun _ => nofun) fun hkind => ?_
      have hkind : i.kind = .file := hkind₁ ▸ not_not.mp hkind
      refine runs_ite (fun hdone => runs_pure ⟨⟨n, i, hsize, hi, hkind, ?_, ?_⟩, hkept⟩)
        fun hmore => ?_
      · show 0 = _
        omega
      · rfl
      refine runs_ite (fun _ => runs_throw fun _ => nofun) fun hfit => ?_
      have hfit : offset + bufLen ≤ u64Max := Nat.not_lt.mp hfit
      simp only
      have hend : offset < min (offset + bufLen) n := by omega
      generalize hre : min (offset + bufLen) n = readEnd at hend
      rw [subU_of_le hend.le]
      refine runs_bind (runs_fromExcept ?_ nofun)
      intro readLen hlen
      injection hlen with hlen
      refine runs_get ?_
      have hhide : c₁.vfs.hideSize = c.vfs.hideSize := hf₁.hideSize
      rw [hhide]
      refine runs_bind (runs_fromExcept ?_ fun e he => fun _ => by rw [fileToChunk_error he]; nofun)
      intro first hfirst
      obtain ⟨rfl, -⟩ := fileToChunk_eq_ok hfirst
      simp only
      rw [subU_of_le (by omega)]
      refine runs_bind (runs_fromExcept ?_ nofun)
      intro lastByte hlb
      injection hlb with hlb
      subst hlb
      refine runs_bind (runs_fromExcept ?_ fun e he => fun _ => by rw [fileToChunk_error he]; nofun)
      intro last hlast
      obtain ⟨rfl, hmax⟩ := fileToChunk_eq_ok hlast
      simp only
      refine runs_bind (inodeOr_runs hi₁ ?_)
      have hsmall : (readEnd - 1 + headerLen c.vfs.hideSize) / chunkPlaintextSize + 1 ≤ u64Max := by
        have hdiv : (readEnd - 1 + headerLen c.vfs.hideSize) / chunkPlaintextSize ≤
            u64Max / chunkPlaintextSize := Nat.div_le_div_right hmax
        have hbound : u64Max / chunkPlaintextSize + 1 ≤ u64Max := by decide
        omega
      rw [addU_small hsmall]
      refine runs_bind (runs_fromExcept ?_ nofun)
      intro stop hstop
      injection hstop with hstop
      subst hstop
      rw [hchunks]
      have hfl : (offset + headerLen c.vfs.hideSize) / chunkPlaintextSize ≤
          (readEnd - 1 + headerLen c.vfs.hideSize) / chunkPlaintextSize :=
        Nat.div_le_div_right (by omega)
      refine runs_bind (runs_fromExcept ?_ fun e he => fun hsf => ?_)
      · intro covered hcovered
        obtain ⟨rfl, -, hin⟩ := sliceList_eq_ok hcovered
        have hcount : (offset + headerLen c.vfs.hideSize) / chunkPlaintextSize +
            ((readEnd - 1 + headerLen c.vfs.hideSize) / chunkPlaintextSize + 1 -
              (offset + headerLen c.vfs.hideSize) / chunkPlaintextSize) =
            (readEnd - 1 + headerLen c.vfs.hideSize) / chunkPlaintextSize + 1 := by omega
        generalize hgen : (offset + headerLen c.vfs.hideSize) / chunkPlaintextSize = first at *
        have hcov : ∀ j, first ≤ j → j ≤ (readEnd - 1 + headerLen c.vfs.hideSize) /
            chunkPlaintextSize → ∃ r, ((i.chunks.drop first).take ((readEnd - 1 +
              headerLen c.vfs.hideSize) / chunkPlaintextSize + 1 - first))[j - first]? = some r ∧
            i.chunks[j]? = some r := by
          intro j hj hj'
          have hjl : j < i.chunks.length := by omega
          refine ⟨i.chunks[j], ?_, List.getElem?_eq_getElem hjl⟩
          rw [List.getElem?_take, if_pos (by omega), List.getElem?_drop, Nat.add_sub_cancel' hj]
          exact List.getElem?_eq_getElem hjl
        have hzero : readBefore first offset c.vfs.hideSize = 0 := by
          rw [← hgen]
          exact Nat.sub_eq_zero_of_le (Nat.div_mul_le_self _ _)
        have hstart : [] = fileBytes (c₁.vfs.chunkAt f i.chunks) c.vfs.hideSize offset
            (if (readEnd - 1 + headerLen c.vfs.hideSize) / chunkPlaintextSize + 1 - first = 0
              then readEnd - offset else readBefore first offset c.vfs.hideSize) := by
          rw [if_neg (by omega), hzero]
          rfl
        have hloop := @readLoop_runs P f c₁ i.chunks _ first _ offset readEnd bufLen first _
          c.vfs.hideSize [] c₁ Untouched.refl rfl hgen.symm rfl hend (by omega) (by omega) hcov
          (le_refl _) hcount hstart
        refine runs_bind (runs_mono hloop ?_ fun _ _ _ he => fun _ => he)
        rintro out c₂ hp₂ ⟨rfl, hun⟩
        have hsame : c₁.vfs.chunkAt f i.chunks = c.vfs.chunkAt f i.chunks := by
          unfold chunkAt opens
          rw [hkept.slots, hf₁.fileKey]
        have hkept₂ : SizeKept c c₂ :=
          ⟨hun.1.flight.trans hkept.flight, hun.1.broken.trans hkept.broken,
            hkept.calm.trans (Calm.of_steady hun.1 (Path.frame hp₂).maxVaultSize),
            hun.2.trans hkept.slots⟩
        refine runs_pure ⟨⟨n, i, hsize, hi, hkind, ?_, ?_⟩, hkept₂⟩
        · show readLen = _
          omega
        · show fileBytes _ _ _ _ = fileBytes _ _ _ readLen
          rw [hsame, ← hlen]
      · have hcap := hsf i n hi hkind hsize (by omega)
        have hin : (readEnd - 1 + headerLen c.vfs.hideSize) / chunkPlaintextSize < i.chunks.length := by
          rw [Nat.div_lt_iff_lt_mul (by decide)]
          omega
        have := sliceList_error he
        omega

/-- What `stat` returns. -/
def HasStat (c : Cfg) (f : FileId) (r : Stat) : Prop :=
  ∃ i, c.vfs.tree.inodes.get? f = some i ∧ c.vfs.sizeOf f = some r.size ∧ r.kind = i.kind ∧
    r.mtimeNs = i.mtimeNs ∧ r.mode = i.mode ∧ r.linkCount = i.linkCount ∧ r.id = i.id

theorem stat_runs :
    Runs P f c (stat f) (fun r c' => HasStat c f r ∧ SizeKept c c') (fun e _ => e ≠ .panic) := by
  unfold stat
  refine runs_bind (runs_mono realSize_runs ?_ fun _ _ _ he => he)
  rintro n c₁ hp₁ ⟨hsize, -, hkept⟩
  cases hi : c.vfs.tree.inodes.get? f with
  | none =>
      unfold sizeOf at hsize
      rw [hi] at hsize
      cases hsize
  | some i =>
      obtain ⟨i₁, hi₁, hbare⟩ := (Path.frame hp₁).inode hi
      refine runs_bind (inodeOr_runs hi₁ ?_)
      have hsame : ∀ {α : Type} (field : Inode → α), field i₁.bare = field i.bare :=
        fun field => by rw [hbare]
      exact runs_pure ⟨⟨i, hi, hsize, hsame Inode.kind, hsame Inode.mtimeNs, hsame Inode.mode,
        hsame Inode.linkCount, hsame Inode.id⟩, hkept⟩

end Vfs

end Luksbox
