import Luksbox.Proofs.FilePath

/-!
# `write` as a path

The call collects its rewrites of existing chunks in a list and applies them at
the end; until then the inode's refs are the old ones. `applied` is what the
refs will be, and the loops are followed on it: the hole before the first chunk
is scrubbed, every covered chunk is patched, and chunk 0 gets its size header.
A chunk is looked up in the inode because no rewrite of this call has touched
it yet; only the header of chunk 0 may come second.
-/

namespace Luksbox

open Lib Relation

/-- The refs with the recorded rewrites applied. -/
def applied (updates : List (Nat × ChunkRef)) (refs : List ChunkRef) : List ChunkRef :=
  updates.foldl (fun refs u => refs.set u.1 u.2) refs

theorem applied_append {updates : List (Nat × ChunkRef)} {refs : List ChunkRef} {idx : Nat}
    {r : ChunkRef} : applied (updates ++ [(idx, r)]) refs = (applied updates refs).set idx r := by
  unfold applied
  rw [List.foldl_append]
  rfl

theorem applied_length {updates : List (Nat × ChunkRef)} {refs : List ChunkRef} :
    (applied updates refs).length = refs.length := by
  induction updates generalizing refs with
  | nil => rfl
  | cons u updates ih => exact ih.trans List.length_set

theorem applied_other {updates : List (Nat × ChunkRef)} {refs : List ChunkRef} {idx : Nat}
    (h : ∀ u ∈ updates, u.1 ≠ idx) : (applied updates refs)[idx]? = refs[idx]? := by
  induction updates generalizing refs with
  | nil => rfl
  | cons u updates ih =>
      have hu := h u List.mem_cons_self
      show (applied updates (refs.set u.1 u.2))[idx]? = _
      rw [ih fun v hv => h v (List.mem_cons_of_mem _ hv), List.getElem?_set_ne hu]

/-- The last rewrite of a chunk is its ref. -/
theorem applied_last {done : Vfs.Rewrites} {refs : List ChunkRef} {idx : Nat}
    (hidx : idx < refs.length) :
    (applied done.updates refs)[idx]? = (done.last? idx).or refs[idx]? := by
  obtain ⟨updates, retired⟩ := done
  unfold Vfs.Rewrites.last?
  simp only
  induction updates using List.reverseRecOn with
  | nil => rfl
  | append_singleton updates u ih =>
      obtain ⟨i, r⟩ := u
      rw [applied_append, List.reverse_append, List.reverse_singleton, List.singleton_append,
        List.find?_cons]
      by_cases hi : i = idx
      · subst hi
        rw [List.getElem?_set_self (by rw [applied_length]; exact hidx)]
        simp
      · rw [List.getElem?_set_ne hi, ih, (beq_eq_false_iff_ne.mpr hi : (i == idx) = false)]

theorem applyUpdates_eq_ok {updates : List (Nat × ChunkRef)} {refs r : List ChunkRef}
    (h : Vfs.applyUpdates updates refs = .ok r) : r = applied updates refs := by
  induction updates generalizing refs with
  | nil =>
      injection h with h
      exact h.symm
  | cons u updates ih =>
      unfold Vfs.applyUpdates at h
      split at h
      · exact ih h
      · cases h

theorem applyUpdates_ne_error {updates : List (Nat × ChunkRef)} {refs : List ChunkRef}
    {e : Failure} (hidx : ∀ u ∈ updates, u.1 < refs.length) :
    Vfs.applyUpdates updates refs ≠ .error e := by
  induction updates generalizing refs with
  | nil => exact nofun
  | cons u updates ih =>
      unfold Vfs.applyUpdates
      rw [if_pos (hidx u List.mem_cons_self)]
      refine ih fun v hv => ?_
      rw [List.length_set]
      exact hidx v (List.mem_cons_of_mem _ hv)

namespace Vfs

variable {p : Plan} {f : FileId} {c₀ c : Cfg} {base appended : List ChunkRef}
  {content : Nat → Option Chunk} {touched : Nat → Prop} {need : Nat} {done : Rewrites}

/-- The call's refs are the inode's with its rewrites applied, and the chunks it
appended. -/
def Holds (p : Plan) (f : FileId) (c₀ : Cfg) (base : List ChunkRef) (c : Cfg) (done : Rewrites)
    (appended : List ChunkRef) (content : Nat → Option Chunk) : Prop :=
  Sees p f c₀ base c (applied done.updates base ++ appended) done.retired content

/-- The inode of the file when the call starts. -/
def Owns (f : FileId) (c₀ : Cfg) (base : List ChunkRef) : Prop :=
  ∃ i, c₀.vfs.tree.inodes.get? f = some i ∧ i.chunks = base

/-- And it still has these refs. -/
theorem Owns.now (h : Owns f c₀ base) (hf : Frame c₀.vfs c.vfs) :
    ∃ i, c.vfs.tree.inodes.get? f = some i ∧ i.chunks = base := by
  obtain ⟨i₀, hi₀, rfl⟩ := h
  obtain ⟨i, hi, hbare⟩ := hf.inode hi₀
  exact ⟨i, hi, Inode.bare_chunks hbare⟩

theorem held_old {idx : Nat} {cur : ChunkRef} (hcur : base[idx]? = some cur)
    (hfresh : ∀ u ∈ done.updates, u.1 ≠ idx) :
    (applied done.updates base ++ appended)[idx]? = some cur := by
  have hlt := (List.getElem?_eq_some_iff.mp hcur).1
  rw [List.getElem?_append_left (by rw [applied_length]; exact hlt), applied_other hfresh, hcur]

theorem held_appended {k : Nat} : (applied done.updates base ++ appended)[base.length + k]? =
    appended[k]? := by
  rw [List.getElem?_append_right (by rw [applied_length]; exact Nat.le_add_right _ _),
    applied_length, Nat.add_sub_cancel_left]

theorem held_push {idx : Nat} {newRef : ChunkRef} {old : Option ChunkId}
    (hidx : idx < base.length) :
    (applied done.updates base ++ appended).set idx newRef =
      applied (done.push idx newRef old).updates base ++ appended := by
  show _ = applied (done.updates ++ [(idx, newRef)]) base ++ appended
  rw [applied_append, List.set_append_left _ _ (by rw [applied_length]; exact hidx)]

theorem held_set {k : Nat} {newRef : ChunkRef} :
    (applied done.updates base ++ appended).set (base.length + k) newRef =
      applied done.updates base ++ appended.set k newRef := by
  rw [List.set_append_right _ _ (by rw [applied_length]; exact Nat.le_add_right _ _),
    applied_length, Nat.add_sub_cancel_left]

theorem held_length : (applied done.updates base ++ appended).length =
    base.length + appended.length := by
  rw [List.length_append, applied_length]

/-- Rewriting an existing chunk and recording it. -/
theorem Holds.push_runs (h : Holds p f c₀ base c done appended content) (hb : Base f c₀ base)
    (hg : Grants p c₀ base touched need) {idx : Nat} {cur : ChunkRef} {pt : Chunk}
    (hcur : (applied done.updates base ++ appended)[idx]? = some cur) (hidx : idx < base.length)
    (ht : touched idx) (hneed : appended.length + done.retired.length < need) :
    Runs p.permit f c (rewriteChunk f idx cur pt)
      (fun r c' => Holds p f c₀ base c' (done.push idx r.1 r.2) appended
        (Function.update content idx (some pt)))
      (fun e _ => e ≠ .panic) := by
  refine runs_mono (Sees.rewrite_runs h hb hg (by rw [held_length]; omega) hcur fun _ => ht) ?_
    fun _ _ _ he => he
  rintro ⟨newRef, old⟩ c' - h'
  rw [held_push hidx] at h'
  exact h'

/-! ## The hole -/

theorem scrubGap_runs {idxs : List Nat} {lo hi : Nat} {hide : Bool}
    (h : Holds p f c₀ base c done appended content) (hb : Base f c₀ base) (ho : Owns f c₀ base)
    (hg : Grants p c₀ base touched need)
    (hidxs : ∀ i ∈ idxs, touched i ∧ i < base.length ∧ ∀ u ∈ done.updates, u.1 ≠ i)
    (hnd : idxs.Nodup) (hneed : appended.length + done.retired.length + idxs.length ≤ need) :
    Runs p.permit f c (scrubGap f lo hi hide idxs done)
      (fun done' c' => Holds p f c₀ base c' done' appended
          (changed (clearedPart lo hi hide) idxs content) ∧
        done'.retired.length ≤ done.retired.length + idxs.length ∧
        ∀ u ∈ done'.updates, u ∈ done.updates ∨ u.1 ∈ idxs)
      (fun e _ => e ≠ .panic) := by
  induction idxs generalizing c done content with
  | nil =>
      refine runs_pure ⟨?_, le_refl _, fun u hu => Or.inl hu⟩
      rw [changed_nil]
      exact h
  | cons idx rest ih =>
      obtain ⟨hnot, hnd⟩ := List.nodup_cons.mp hnd
      obtain ⟨ht, hidx, hnew⟩ := hidxs idx List.mem_cons_self
      have hrest : ∀ i ∈ rest, touched i ∧ i < base.length ∧ ∀ u ∈ done.updates, u.1 ≠ i :=
        fun i hi => hidxs i (List.mem_cons_of_mem _ hi)
      rw [List.length_cons] at hneed
      unfold scrubGap
      rcases @holePart_cases idx lo hi hide with herr | ⟨hnone, hle⟩ | ⟨hsome, hlt⟩
      · rw [herr]
        refine runs_bind (runs_fromExcept nofun ?_)
        intro e he
        injection he with he
        rw [← he]
        exact nofun
      · rw [hnone]
        refine runs_bind (runs_fromExcept ?_ nofun)
        intro o heq
        injection heq with heq
        subst heq
        refine runs_mono (ih h hrest hnd (by omega)) ?_ fun _ _ _ he => he
        rintro done' c' - ⟨hs, hr, hu⟩
        refine ⟨?_, by rw [List.length_cons]; omega,
          fun u hmem => (hu u hmem).imp id (List.mem_cons_of_mem _)⟩
        rw [← changed_cons_same hnot (map_clearedPart_of_le hle)]
        exact hs
      · rw [hsome]
        refine runs_bind (runs_fromExcept ?_ nofun)
        intro o heq
        injection heq with heq
        subst heq
        obtain ⟨i, hget, rfl⟩ := ho.now (Sees.frame h)
        refine runs_bind (inodeOr_runs hget ?_)
        refine runs_bind (runs_fromExcept ?_ fun e he => ?_)
        · intro cur hcur
          have hscrub := scrubChunk_runs h hb hg (by rw [held_length]; omega)
            (held_old (index_eq_ok hcur) hnew) ht ⟨hlt.le, partStop_le⟩
          refine runs_bind (runs_mono hscrub ?_ fun _ _ _ he => he)
          rintro r c₁ - ⟨pt, hpt, h₁⟩
          cases r with
          | none =>
              rw [show done.retired ++ retiredBy none = done.retired from List.append_nil _] at h₁
              refine runs_mono (ih h₁ hrest hnd (by omega)) ?_ fun _ _ _ he => he
              rintro done' c' - ⟨hs, hr, hu⟩
              refine ⟨?_, by rw [List.length_cons]; omega,
                fun u hmem => (hu u hmem).imp id (List.mem_cons_of_mem _)⟩
              rw [← changed_cons hnot hpt]
              exact hs
          | some r =>
              obtain ⟨newRef, old⟩ := r
              have h₁ : Holds p f c₀ i.chunks c₁ (done.push idx newRef old) appended
                  (Function.update content idx (some (clearedPart lo hi hide idx pt))) := by
                unfold Holds
                rw [← held_push hidx]
                exact h₁
              have hr₁ : (done.push idx newRef old).retired.length ≤ done.retired.length + 1 := by
                have := @retiredBy_length (some (newRef, old))
                show (done.retired ++ retiredBy (some (newRef, old))).length ≤ _
                rw [List.length_append]
                omega
              refine runs_mono (ih h₁ ?_ hnd (by omega)) ?_ fun _ _ _ he => he
              · intro j hj
                obtain ⟨htj, hjl, hjn⟩ := hrest j hj
                refine ⟨htj, hjl, fun u hu => ?_⟩
                rcases List.mem_append.mp hu with hu | hu
                · exact hjn u hu
                · rw [List.mem_singleton.mp hu]
                  rintro rfl
                  exact hnot hj
              · rintro done' c' - ⟨hs, hr, hu⟩
                refine ⟨?_, by rw [List.length_cons]; omega, fun u hmem => ?_⟩
                · rw [← changed_cons hnot hpt]
                  exact hs
                · rcases hu u hmem with hu | hu
                  · rcases List.mem_append.mp hu with hu | hu
                    · exact Or.inl hu
                    · rw [List.mem_singleton.mp hu]
                      exact Or.inr List.mem_cons_self
                  · exact Or.inr (List.mem_cons_of_mem _ hu)
        · have := index_error he
          omega

/-! ## The covered chunks -/

/-- What `write` has computed by the time it starts: the positions are those of
a range that is not empty and fits. -/
structure WriteArgs.Fits (w : WriteArgs) (lastChunk : Nat) : Prop where
  newEnd : w.newEnd = w.offset + w.buf.length
  some : w.buf ≠ []
  bound : w.newEnd ≤ u64Max
  first : w.firstChunk = (w.offset + headerLen w.hideSize) / chunkPlaintextSize
  last : lastChunk = (w.newEnd - 1 + headerLen w.hideSize) / chunkPlaintextSize

/-- How much of the buffer goes into the chunks before chunk `k`. -/
def bufAt (w : WriteArgs) (k : Nat) : Nat :=
  k * chunkPlaintextSize + partStart k w.offset w.hideSize - (w.offset + headerLen w.hideSize)

/-- The part of the buffer that goes into chunk `k`. -/
def bytesFor (w : WriteArgs) (k : Nat) : List UInt8 :=
  (w.buf.drop (bufAt w k)).take
    (partStop k w.newEnd w.hideSize - partStart k w.offset w.hideSize)

/-- A covered chunk after the write. -/
def patchedPart (w : WriteArgs) (k : Nat) (pt : Chunk) : Chunk :=
  let pt := if k = w.firstChunk ∧ k < w.curLen ∧ w.offset > w.oldReal
    then pt.fill (partStart k w.oldReal w.hideSize) (partStart k w.offset w.hideSize) else pt
  let pt := pt.overlay (partStart k w.offset w.hideSize) (bytesFor w k)
  if w.hideSize ∧ k = 0 then installSizeHeader pt w.newReal else pt

namespace WriteArgs.Fits

variable {w : WriteArgs} {k lastChunk : Nat}

theorem pos (hw : w.Fits lastChunk) : w.offset < w.newEnd := by
  have hlen := List.length_pos_iff.mpr hw.some
  rw [hw.newEnd]
  omega

theorem above (hw : w.Fits lastChunk) (hk : w.firstChunk ≤ k) :
    w.offset + headerLen w.hideSize < (k + 1) * chunkPlaintextSize := by
  rw [hw.first] at hk
  exact (Nat.div_lt_iff_lt_mul (by decide)).mp (Nat.lt_succ_of_le hk)

theorem below (hw : w.Fits lastChunk) (hk : k ≤ lastChunk) :
    k * chunkPlaintextSize < w.newEnd + headerLen w.hideSize := by
  have hpos := hw.pos
  rw [hw.last] at hk
  have := (Nat.le_div_iff_mul_le (by decide)).mp hk
  omega

theorem bufAt_first (hw : w.Fits lastChunk) : bufAt w w.firstChunk = 0 := by
  have hle : w.firstChunk * chunkPlaintextSize ≤ w.offset + headerLen w.hideSize := by
    rw [hw.first]
    exact Nat.div_mul_le_self _ _
  unfold bufAt partStart
  omega

theorem bufAt_next (hw : w.Fits lastChunk) (hk : w.firstChunk ≤ k) (hlast : k + 1 ≤ lastChunk) :
    bufAt w (k + 1) =
      bufAt w k + (partStop k w.newEnd w.hideSize - partStart k w.offset w.hideSize) := by
  have ha := hw.above hk
  have hb := hw.below hlast
  have hsucc : (k + 1) * chunkPlaintextSize = k * chunkPlaintextSize + chunkPlaintextSize :=
    Nat.succ_mul k chunkPlaintextSize
  unfold bufAt partStart partStop
  omega

theorem bufAt_le (hw : w.Fits lastChunk) (hk : w.firstChunk ≤ k) (hlast : k ≤ lastChunk) :
    bufAt w k + (partStop k w.newEnd w.hideSize - partStart k w.offset w.hideSize) ≤
      w.buf.length := by
  have ha := hw.above hk
  have hb := hw.below hlast
  have hpos := hw.pos
  have hend := hw.newEnd
  have hsucc : (k + 1) * chunkPlaintextSize = k * chunkPlaintextSize + chunkPlaintextSize :=
    Nat.succ_mul k chunkPlaintextSize
  unfold bufAt partStart partStop
  omega

theorem coveredPart (hw : w.Fits lastChunk) (hk : w.firstChunk ≤ k) (hlast : k ≤ lastChunk) :
    Luksbox.coveredPart k w.offset w.newEnd w.hideSize = .error (.err .offsetOverflow) ∨
      Luksbox.coveredPart k w.offset w.newEnd w.hideSize =
        .ok (partStart k w.offset w.hideSize, partStop k w.newEnd w.hideSize) :=
  coveredPart_cases (hw.above hk) (hw.below hlast) hw.pos.le

theorem part_le (hw : w.Fits lastChunk) (hk : w.firstChunk ≤ k) (hlast : k ≤ lastChunk) :
    partStart k w.offset w.hideSize ≤ partStop k w.newEnd w.hideSize :=
  partStart_le_partStop (hw.above hk) (hw.below hlast) hw.pos.le

end WriteArgs.Fits

/-- Clearing this chunk's share of the hole. -/
theorem patchHole_cases {w : WriteArgs} {k lastChunk : Nat} {pt : Chunk} (hw : w.Fits lastChunk)
    (hk : w.firstChunk ≤ k) :
    patchHole w k (partStart k w.offset w.hideSize) pt = .error (.err .offsetOverflow) ∨
      patchHole w k (partStart k w.offset w.hideSize) pt =
        .ok (if k = w.firstChunk ∧ k < w.curLen ∧ w.offset > w.oldReal
          then pt.fill (partStart k w.oldReal w.hideSize) (partStart k w.offset w.hideSize)
          else pt) := by
  unfold patchHole
  have hab := hw.above hk
  have hsucc : (k + 1) * chunkPlaintextSize = k * chunkPlaintextSize + chunkPlaintextSize :=
    Nat.succ_mul k chunkPlaintextSize
  have hps : partStart k w.offset w.hideSize ≤ chunkPlaintextSize := by
    unfold partStart
    omega
  by_cases hcond : k = w.firstChunk ∧ k < w.curLen ∧ w.offset > w.oldReal
  · rw [if_pos hcond, if_pos hcond]
    rcases @chunkFileRange_cases k w.hideSize with herr | ⟨cfs, cfe, hok, hcfs, hcfe, hds⟩
    · exact Or.inl (by rw [herr]; rfl)
    · right
      rw [hok]
      have hlt := hcond.2.2
      have hsize : chunkPlaintextSize = 4096 := rfl
      have hmax : u64Max = 2 ^ 64 - 1 := rfl
      have hstart : dataStart k w.hideSize + (max w.oldReal cfs - cfs) =
          partStart k w.oldReal w.hideSize := by
        unfold partStart
        omega
      have hle : partStart k w.oldReal w.hideSize ≤ partStart k w.offset w.hideSize := by
        unfold partStart
        omega
      simp only [bind, Except.bind]
      rw [addU_small (by omega), hstart]
      simp only
      split
      · next hlt => rw [checkSlice_ok hlt.le hps]
      · next hge => rw [Chunk.fill_of_le (Nat.not_lt.mp hge)]
  · rw [if_neg hcond, if_neg hcond]
    exact Or.inr rfl

theorem patchChunk_cases {w : WriteArgs} {k lastChunk : Nat} {pt : Chunk} (hw : w.Fits lastChunk)
    (hk : w.firstChunk ≤ k) (hlast : k ≤ lastChunk) :
    patchChunk w k (partStart k w.offset w.hideSize) (partStop k w.newEnd w.hideSize) (bufAt w k)
        pt = .error (.err .offsetOverflow) ∨
      patchChunk w k (partStart k w.offset w.hideSize) (partStop k w.newEnd w.hideSize) (bufAt w k)
        pt = .ok (patchedPart w k pt, bufAt w k +
          (partStop k w.newEnd w.hideSize - partStart k w.offset w.hideSize)) := by
  unfold patchChunk
  have hbuf := hw.bufAt_le hk hlast
  have hbound := hw.bound
  have hend := hw.newEnd
  rcases @patchHole_cases w k lastChunk pt hw hk with herr | hok
  · exact Or.inl (by rw [herr]; rfl)
  · right
    have hslice : sliceList w.buf (bufAt w k) (bufAt w k +
        (partStop k w.newEnd w.hideSize - partStart k w.offset w.hideSize)) =
        .ok (bytesFor w k) := by
      unfold sliceList
      rw [if_neg (by omega), Nat.add_sub_cancel_left]
      rfl
    rw [hok, checkSlice_ok (hw.part_le hk hlast) partStop_le, addU_small (by omega)]
    simp only [bind, Except.bind]
    rw [hslice]
    rfl

/-- The ref of a covered chunk is the one the call holds. -/
theorem coveredRef_cases {w : WriteArgs} {covered : List ChunkRef} {k lastChunk : Nat}
    (hlen : w.curLen = base.length) (hk : w.firstChunk ≤ k)
    (hcov : k < base.length → covered[k - w.firstChunk]? = base[k]?)
    (hnew : ∀ u ∈ done.updates, u.1 < k) (hin : k ≤ lastChunk)
    (hlast : lastChunk < base.length + appended.length) :
    ∃ cur, coveredRef w covered appended k = .ok cur ∧
      (applied done.updates base ++ appended)[k]? = some cur := by
  unfold coveredRef
  by_cases hidx : k < base.length
  · obtain ⟨cur, hcur⟩ : ∃ cur, base[k]? = some cur :=
      ⟨_, List.getElem?_eq_getElem hidx⟩
    refine ⟨cur, ?_, held_old hcur fun u hu => Nat.ne_of_lt (hnew u hu)⟩
    rw [if_pos (by omega), subU_of_le hk]
    show index covered (k - w.firstChunk) = .ok cur
    unfold index
    rw [hcov hidx, hcur]
  · have hsub : k - base.length < appended.length := by omega
    obtain ⟨cur, hcur⟩ : ∃ cur, appended[k - base.length]? = some cur :=
      ⟨_, List.getElem?_eq_getElem hsub⟩
    refine ⟨cur, ?_, ?_⟩
    · rw [if_neg (by omega), subU_of_le (by omega)]
      show index appended (k - w.curLen) = .ok cur
      unfold index
      rw [hlen, hcur]
    · have hk' : k = base.length + (k - base.length) := by omega
      rw [hk', held_appended]
      exact hcur

theorem writeLoop_runs {w : WriteArgs} {covered : List ChunkRef} {k n bufPos lastChunk : Nat}
    (h : Holds p f c₀ base c done appended content) (hb : Base f c₀ base)
    (hg : Grants p c₀ base touched need) (hw : w.Fits lastChunk) (hid : w.id = f)
    (hlen : w.curLen = base.length) (hk : w.firstChunk ≤ k) (hn : k + n = lastChunk + 1)
    (hbuf : 0 < n → bufPos = bufAt w k)
    (hcov : ∀ i, w.firstChunk ≤ i → i ≤ lastChunk → i < base.length →
      covered[i - w.firstChunk]? = base[i]?)
    (hnew : ∀ u ∈ done.updates, u.1 < k)
    (ht : ∀ i, k ≤ i → i ≤ lastChunk → i < base.length → touched i)
    (hlast : lastChunk < base.length + appended.length)
    (hneed : appended.length + done.retired.length + (min (k + n) base.length - k) ≤ need) :
    Runs p.permit f c (writeLoop w covered (List.range' k n) bufPos done appended)
      (fun r c' => Holds p f c₀ base c' r.1 r.2
          (changed (patchedPart w) (List.range' k n) content) ∧
        r.2.length = appended.length ∧
        r.1.retired.length ≤ done.retired.length + (min (k + n) base.length - k) ∧
        ∀ u ∈ r.1.updates, u ∈ done.updates ∨ u.1 < base.length)
      (fun e _ => e ≠ .panic) := by
  induction n generalizing c k bufPos done appended content with
  | zero =>
      refine runs_pure ⟨?_, rfl, Nat.le_add_right _ _, fun u hu => Or.inl hu⟩
      rw [List.range'_zero, changed_nil]
      exact h
  | succ n ih =>
      rw [List.range'_succ]
      have hin : k ≤ lastChunk := by omega
      have hnot : k ∉ List.range' (k + 1) n := by
        rw [List.mem_range'_1]
        omega
      unfold writeLoop
      rcases hw.coveredPart hk hin with herr | hpart
      · rw [herr]
        refine runs_bind (runs_fromExcept nofun ?_)
        intro e he
        injection he with he
        rw [← he]
        exact nofun
      rw [hpart]
      refine runs_bind (runs_fromExcept ?_ nofun)
      intro part hpe
      injection hpe with hpe
      subst hpe
      obtain ⟨cur, hcur, hheld⟩ := coveredRef_cases hlen hk (hcov k hk hin) hnew hin hlast
      simp only
      rw [hcur, hid]
      refine runs_bind (runs_fromExcept ?_ nofun)
      intro cur' hcur'
      injection hcur' with hcur'
      subst hcur'
      refine runs_bind (runs_mono (Sees.read_runs h hheld) ?_ fun _ _ _ he => he)
      rintro pt c₁ - ⟨h₁, hpt⟩
      rw [hbuf (Nat.succ_pos n)]
      rcases @patchChunk_cases w k lastChunk pt hw hk hin with herr | hpatch
      · rw [herr]
        refine runs_bind (runs_fromExcept nofun ?_)
        intro e he
        injection he with he
        rw [← he]
        exact nofun
      rw [hpatch]
      refine runs_bind (runs_fromExcept ?_ nofun)
      intro patch hpe
      injection hpe with hpe
      subst hpe
      have hbuf' : 0 < n → bufAt w k +
          (partStop k w.newEnd w.hideSize - partStart k w.offset w.hideSize) = bufAt w (k + 1) :=
        fun hn0 => (hw.bufAt_next hk (by omega)).symm
      have ht' : ∀ i, k + 1 ≤ i → i ≤ lastChunk → i < base.length → touched i :=
        fun i hi => ht i (by omega)
      refine runs_ite (fun hidx => ?_) fun hidx => ?_
      · -- an existing chunk
        rw [hlen] at hidx
        refine runs_bind (runs_mono (Holds.push_runs h₁ hb hg hheld hidx
          (ht k (le_refl _) hin hidx) (by omega)) ?_ fun _ _ _ he => he)
        rintro ⟨newRef, old⟩ c₂ - h₂
        simp only at h₂
        have hret : (done.push k newRef old).retired.length ≤ done.retired.length + 1 := by
          have := @retiredBy_length (some (newRef, old))
          show (done.retired ++ retiredBy (some (newRef, old))).length ≤ _
          rw [List.length_append]
          omega
        have hmem : ∀ u ∈ (done.push k newRef old).updates, u ∈ done.updates ∨ u.1 = k := by
          intro u hu
          rcases List.mem_append.mp hu with hu | hu
          · exact Or.inl hu
          · rw [List.mem_singleton.mp hu]
            exact Or.inr rfl
        have hnew' : ∀ u ∈ (done.push k newRef old).updates, u.1 < k + 1 := by
          intro u hu
          rcases hmem u hu with hu | hu
          · exact Nat.lt_succ_of_lt (hnew u hu)
          · omega
        have hrun := ih h₂ (by omega) (by omega) hbuf' hnew' ht' hlast (by omega)
        refine runs_mono hrun ?_ fun _ _ _ he => he
        rintro r c₃ - ⟨hs, hl, hr, hu⟩
        refine ⟨?_, hl, by omega, fun u hur => ?_⟩
        · rw [← changed_cons hnot hpt]
          exact hs
        · rcases hu u hur with hu | hu
          · rcases hmem u hu with hu | hu
            · exact Or.inl hu
            · exact Or.inr (by omega)
          · exact Or.inr hu
      · -- a chunk appended by this call
        have hk' : k = base.length + (k - base.length) := by omega
        have happ : base.length ≤ k := by omega
        refine runs_bind (runs_mono (Sees.rewriteInPlace_runs h₁ hb hheld happ) ?_
          fun _ _ _ he => he)
        intro newRef c₂ _ h₂
        have h₂ : Holds p f c₀ base c₂ done (appended.set (k - base.length) newRef)
            (Function.update content k (some (patchedPart w k pt))) := by
          unfold Holds
          rw [← held_set, ← hk']
          exact h₂
        have hl : (appended.set (k - base.length) newRef).length = appended.length :=
          List.length_set
        rw [hlen]
        refine runs_mono (ih h₂ (by omega) (by omega) hbuf'
          (fun u hu => Nat.lt_succ_of_lt (hnew u hu)) ht' (by omega) (by omega)) ?_
          fun _ _ _ he => he
        rintro r c₃ - ⟨hs, hl', hr, hu⟩
        refine ⟨?_, by omega, by omega, hu⟩
        rw [← changed_cons hnot hpt]
        exact hs

/-! ## The size header -/

theorem currentChunk0_runs {w : WriteArgs} (h : Holds p f c₀ base c done appended content)
    (ho : Owns f c₀ base) (hid : w.id = f) (hlen : w.curLen = base.length)
    (hupd : ∀ u ∈ done.updates, u.1 < base.length) (hpos : 0 < base.length + appended.length) :
    Runs p.permit f c (currentChunk0 w done appended)
      (fun cur c' => c' = c ∧ (applied done.updates base ++ appended)[0]? = some cur)
      (fun e _ => e ≠ .panic) := by
  unfold currentChunk0
  by_cases hbase : 0 < base.length
  · have hlast := @applied_last done base 0 hbase
    have hheld : (applied done.updates base ++ appended)[0]? = (done.last? 0).or base[0]? := by
      rw [List.getElem?_append_left (by rw [applied_length]; exact hbase), hlast]
    cases hl : done.last? 0 with
    | some r =>
        refine runs_pure ⟨rfl, ?_⟩
        rw [hheld, hl]
        rfl
    | none =>
        simp only
        rw [if_pos (by omega), hid]
        obtain ⟨i, hi, rfl⟩ := ho.now (Sees.frame h)
        refine runs_bind (inodeOr_runs hi ?_)
        refine runs_fromExcept (fun cur hcur => ⟨rfl, ?_⟩) fun e he => ?_
        · rw [hheld, hl]
          exact index_eq_ok hcur
        · have := index_error he
          omega
  · -- a file without chunks: nothing has been rewritten
    have hnil : done.updates = [] := by
      cases hu : done.updates with
      | nil => rfl
      | cons u us =>
          have := hupd u (by rw [hu]; exact List.mem_cons_self)
          omega
    have hl : done.last? 0 = none := by
      unfold Rewrites.last?
      rw [hnil]
      rfl
    have hbase : base = [] := List.length_eq_zero_iff.mp (by omega)
    rw [hl]
    simp only
    rw [if_neg (by omega)]
    refine runs_fromExcept (fun cur hcur => ⟨rfl, ?_⟩) fun e he => ?_
    · rw [hnil, hbase]
      exact index_eq_ok hcur
    · have := index_error he
      omega

theorem refreshSizeHeader_runs {w : WriteArgs} (h : Holds p f c₀ base c done appended content)
    (hb : Base f c₀ base) (ho : Owns f c₀ base) (hg : Grants p c₀ base touched need)
    (hid : w.id = f) (hlen : w.curLen = base.length)
    (hupd : ∀ u ∈ done.updates, u.1 < base.length) (hpos : 0 < base.length + appended.length)
    (ht : 0 < base.length → touched 0) (hneed : appended.length + done.retired.length < need) :
    Runs p.permit f c (refreshSizeHeader w done appended)
      (fun r c' => Holds p f c₀ base c' r.1 r.2 (withHeader true w.newReal content) ∧
        r.2.length = appended.length ∧ ∀ u ∈ r.1.updates, u.1 < base.length)
      (fun e _ => e ≠ .panic) := by
  unfold refreshSizeHeader
  refine runs_bind (runs_mono (currentChunk0_runs h ho hid hlen hupd hpos) ?_ fun _ _ _ he => he)
  rintro cur c₁ - ⟨rfl, hcur⟩
  rw [hid]
  refine runs_bind (runs_mono (Sees.read_runs h hcur) ?_ fun _ _ _ he => he)
  rintro pt c₂ - ⟨h₂, hpt⟩
  refine runs_ite (fun hbase => ?_) fun hbase => ?_
  · have hbase : 0 < base.length := by omega
    refine runs_bind (runs_mono (Holds.push_runs h₂ hb hg hcur hbase (ht hbase) hneed) ?_
      fun _ _ _ he => he)
    rintro ⟨new0, old⟩ c₃ - h₃
    rw [withHeader_update hpt] at h₃
    refine runs_pure ⟨h₃, rfl, fun u hu => ?_⟩
    rcases List.mem_append.mp hu with hu | hu
    · exact hupd u hu
    · rw [List.mem_singleton.mp hu]
      exact hbase
  · have hnil : base = [] := List.length_eq_zero_iff.mp (by omega)
    have happ : base.length ≤ 0 := by omega
    refine runs_bind (runs_mono (Sees.rewriteInPlace_runs h₂ hb hcur happ) ?_ fun _ _ _ he => he)
    intro new0 c₃ _ h₃
    rw [withHeader_update hpt] at h₃
    refine runs_pure ⟨?_, List.length_set, hupd⟩
    unfold Holds
    have hset := @held_set base appended done 0 new0
    rw [hnil, List.length_nil, Nat.add_zero] at hset
    rw [hnil] at h₃ ⊢
    rw [← hset]
    exact h₃

/-! ## The whole call -/

/-- The chunks of the hole before the first covered chunk. -/
def gapChunks (w : WriteArgs) : List Nat :=
  if w.offset > w.oldReal ∧ w.curLen > 0 then
    let gapFirst := (w.oldReal + headerLen w.hideSize) / chunkPlaintextSize
    List.range' gapFirst (min w.firstChunk w.curLen - gapFirst)
  else []

/-- Whether the size header is refreshed in a step of its own. -/
def refreshes (w : WriteArgs) (targetCount : Nat) : Bool :=
  w.hideSize && decide (w.newReal ≠ w.oldReal) && decide (w.firstChunk > 0) &&
    decide (targetCount > 0)

/-- The contents that `write` leaves. -/
def written (w : WriteArgs) (targetCount lastChunk : Nat) (content : Nat → Option Chunk) :
    Nat → Option Chunk :=
  withHeader (refreshes w targetCount) w.newReal
    (changed (patchedPart w) (chunksThrough w.firstChunk lastChunk)
      (changed (clearedPart w.oldReal w.offset w.hideSize) (gapChunks w)
        (zeroed content w.curLen (w.curLen + (targetCount - w.curLen)))))

/-- The first chunk that `write` rewrites: the one with the first byte it
changes, be it written or cleared. -/
def writeFrom (w : WriteArgs) : Nat :=
  (min w.offset w.oldReal + headerLen w.hideSize) / chunkPlaintextSize

/-- The existing chunks in the range that `write` changes. -/
def writeCovers (w : WriteArgs) (lastChunk i : Nat) : Prop :=
  i < w.curLen ∧ writeFrom w ≤ i ∧ i ≤ lastChunk

/-- The existing chunks that `write` rewrites. -/
def writeTouches (w : WriteArgs) (lastChunk i : Nat) : Prop :=
  i < w.curLen ∧
    ((writeFrom w ≤ i ∧ i ≤ lastChunk) ∨ (i = 0 ∧ w.hideSize = true ∧ w.newReal ≠ w.oldReal))

/-- How many slots `write` may take. -/
def writeNeeds (w : WriteArgs) (targetCount lastChunk : Nat) : Nat :=
  (targetCount - w.curLen) + (min (lastChunk + 1) w.curLen - writeFrom w) +
    if w.hideSize = true ∧ w.newReal ≠ w.oldReal ∧ w.firstChunk > 0 then 1 else 0

/-- What is granted for the flush the extension of a `write` may need while
nothing is overwritten yet, and, once the file has been extended, for the chunks
it rewrites: those of the range it changes, and last the one with the size header. -/
structure WriteGrants (p : Plan) (c₀ : Cfg) (base : List ChunkRef) (w : WriteArgs)
    (targetCount lastChunk : Nat) : Prop where
  grows : ∀ n, n ≤ targetCount - w.curLen → p.grows n
  chunks : Grown p c₀ (targetCount - w.curLen) →
    Grants (p.first (· = targetCount - w.curLen)) c₀ base (writeCovers w lastChunk)
      (writeNeeds w targetCount lastChunk)
  header : w.hideSize = true → w.newReal ≠ w.oldReal → Grown p c₀ (targetCount - w.curLen) →
    Grants (p.grown (targetCount - w.curLen)) c₀ base (· = 0)
      (writeNeeds w targetCount lastChunk)
  extend : Extends (p.first p.grows) c₀ [] (writeNeeds w targetCount lastChunk)

/-- All of it from what is granted for all of the chunks. -/
theorem WriteGrants.of_chunks {w : WriteArgs} {targetCount lastChunk : Nat}
    (hlen : w.curLen = base.length) (hgrows : ∀ n, n ≤ targetCount - w.curLen → p.grows n)
    (h : Grown p c₀ (targetCount - w.curLen) → ∀ early copies, (p.early → p.sooner → early) →
      (∀ x, p.copies x → p.covers x → copies x) → ∀ grows,
      Grants { p with early := early, copies := copies, grows := grows } c₀ base (writeTouches w lastChunk)
        (writeNeeds w targetCount lastChunk))
    (hext : Extends (p.first p.grows) c₀ [] (writeNeeds w targetCount lastChunk)) :
    WriteGrants p c₀ base w targetCount lastChunk where
  grows := hgrows
  chunks := fun hgrown => (h hgrown _ _ And.intro (fun _ => And.intro) _).mono (fun _ _ _ hc => ⟨hc.1, Or.inl hc.2⟩) (le_refl _)
  header := fun hhide hne hgrown => (h hgrown _ _ (fun he _ => he) (fun _ hx _ => hx) _).mono
    (fun _ _ hr hz => ⟨hlen ▸ (List.getElem?_eq_some_iff.mp hr).1, Or.inr ⟨hz, hhide, hne⟩⟩)
    (le_refl _)
  extend := hext

theorem coveredRefs_runs {w : WriteArgs} {lastChunk : Nat}
    (h : Holds p f c₀ base c done appended content) (ho : Owns f c₀ base) (hid : w.id = f)
    (hlen : w.curLen = base.length) (hlast : lastChunk < u64Max) :
    Runs p.permit f c (coveredRefs w lastChunk)
      (fun covered c' => c' = c ∧ ∀ i, w.firstChunk ≤ i → i ≤ lastChunk → i < base.length →
        covered[i - w.firstChunk]? = base[i]?)
      (fun e _ => e ≠ .panic) := by
  unfold coveredRefs
  rw [addU_small (by omega)]
  refine runs_bind (runs_fromExcept ?_ nofun)
  intro stop hstop
  injection hstop with hstop
  subst hstop
  refine runs_ite (fun hsome => ?_) fun hnone => ?_
  · rw [hid]
    obtain ⟨i, hi, rfl⟩ := ho.now (Sees.frame h)
    refine runs_bind (inodeOr_runs hi ?_)
    refine runs_fromExcept (fun covered hcov => ⟨rfl, ?_⟩) fun e he => ?_
    · obtain ⟨rfl, -, -⟩ := sliceList_eq_ok hcov
      intro j hfirst hj hlt
      rw [List.getElem?_take, if_pos (by omega), List.getElem?_drop]
      congr 1
      omega
    · have := sliceList_error he
      omega
  · refine runs_pure ⟨rfl, fun j hfirst hj hlt => ?_⟩
    omega

theorem scrubHole_runs {w : WriteArgs}
    (h : Holds p f c₀ base c ⟨[], []⟩ appended content) (hb : Base f c₀ base) (ho : Owns f c₀ base)
    (hg : Grants p c₀ base touched need) (hid : w.id = f) (hlen : w.curLen = base.length)
    (ht : ∀ i ∈ gapChunks w, touched i) (hneed : appended.length + (gapChunks w).length ≤ need) :
    Runs p.permit f c (scrubHole w)
      (fun done c' => Holds p f c₀ base c' done appended
          (changed (clearedPart w.oldReal w.offset w.hideSize) (gapChunks w) content) ∧
        done.retired.length ≤ (gapChunks w).length ∧ ∀ u ∈ done.updates, u.1 ∈ gapChunks w)
      (fun e _ => e ≠ .panic) := by
  unfold scrubHole
  refine runs_ite (fun hgap => ?_) fun hgap => ?_
  · refine runs_bind (runs_fromExcept ?_ fun e he => by rw [fileToChunk_error he]; exact nofun)
    rintro ⟨gapFirst, pos⟩ hfirst
    obtain ⟨hfirst, -⟩ := fileToChunk_eq_ok hfirst
    injection hfirst with hfirst hpos
    subst hfirst
    have hidxs : gapChunks w = List.range' ((w.oldReal + headerLen w.hideSize) / chunkPlaintextSize)
        (min w.firstChunk w.curLen -
          (w.oldReal + headerLen w.hideSize) / chunkPlaintextSize) := by
      unfold gapChunks
      rw [if_pos hgap]
    simp only
    rw [← hidxs, hid]
    refine runs_mono (scrubGap_runs h hb ho hg ?_ ?_ ?_) ?_ fun _ _ _ he => he
    · intro i hi
      refine ⟨ht i hi, ?_, nofun⟩
      rw [hidxs, List.mem_range'_1] at hi
      omega
    · rw [hidxs]
      exact List.nodup_range'
    · rw [List.length_nil]
      omega
    · rintro done' c' - ⟨hs, hr, hu⟩
      rw [List.length_nil, Nat.zero_add] at hr
      exact ⟨hs, hr, fun u hmem => (hu u hmem).resolve_left List.not_mem_nil⟩
  · have hnil : gapChunks w = [] := by
      unfold gapChunks
      rw [if_neg hgap]
    rw [hnil, changed_nil]
    exact runs_pure ⟨h, le_refl _, nofun⟩

/-- The hole lies before the covered chunks, and both are among the touched. -/
theorem mem_gapChunks {w : WriteArgs} {i : Nat} (h : i ∈ gapChunks w) :
    i < w.curLen ∧ i < w.firstChunk ∧ writeFrom w ≤ i := by
  unfold gapChunks at h
  split at h
  · next hgap =>
      rw [List.mem_range'_1] at h
      have hmin : min w.offset w.oldReal = w.oldReal := Nat.min_eq_right hgap.1.le
      unfold writeFrom
      rw [hmin]
      omega
  · cases h

theorem gapChunks_length {w : WriteArgs} {lastChunk : Nat} (hw : w.Fits lastChunk) :
    (gapChunks w).length + (min (lastChunk + 1) w.curLen - w.firstChunk) ≤
      min (lastChunk + 1) w.curLen - writeFrom w := by
  have hle : w.firstChunk ≤ lastChunk := by
    rw [hw.first, hw.last]
    have := hw.pos
    exact Nat.div_le_div_right (by omega)
  unfold gapChunks writeFrom
  split
  · next hgap =>
      have hfrom : (w.oldReal + headerLen w.hideSize) / chunkPlaintextSize ≤ w.firstChunk := by
        rw [hw.first]
        exact Nat.div_le_div_right (by omega)
      rw [List.length_range', Nat.min_eq_right hgap.1.le]
      omega
  · have hfrom : (min w.offset w.oldReal + headerLen w.hideSize) / chunkPlaintextSize ≤
        w.firstChunk := by
      rw [hw.first]
      exact Nat.div_le_div_right (by omega)
    rw [List.length_nil]
    omega

theorem headerAfterWrite_runs {w : WriteArgs} {targetCount : Nat}
    (h : Holds p f c₀ base c done appended content) (hb : Base f c₀ base) (ho : Owns f c₀ base)
    (hg : w.hideSize = true → w.newReal ≠ w.oldReal → Grants p c₀ base (· = 0) need)
    (hid : w.id = f) (hlen : w.curLen = base.length)
    (hupd : ∀ u ∈ done.updates, u.1 < base.length)
    (hpos : 0 < targetCount → 0 < base.length + appended.length)
    (hneed : w.hideSize = true ∧ w.newReal ≠ w.oldReal ∧ w.firstChunk > 0 →
      appended.length + done.retired.length < need) :
    Runs p.permit f c (headerAfterWrite w targetCount done appended)
      (fun r c' => Holds p f c₀ base c' r.1 r.2
          (withHeader (refreshes w targetCount) w.newReal content) ∧
        r.2.length = appended.length ∧ ∀ u ∈ r.1.updates, u.1 < base.length)
      (fun e _ => e ≠ .panic) := by
  unfold headerAfterWrite
  have hrefresh : (w.hideSize = true ∧ w.newReal ≠ w.oldReal ∧ w.firstChunk > 0 ∧ targetCount > 0) ↔
      refreshes w targetCount = true := by
    unfold refreshes
    simp only [Bool.and_eq_true, decide_eq_true_eq, and_assoc]
  refine runs_ite (fun hcond => ?_) fun hcond => ?_
  · rw [hrefresh.mp hcond]
    exact refreshSizeHeader_runs h hb ho (hg hcond.1 hcond.2.1) hid hlen hupd (hpos hcond.2.2.2)
      (fun _ => rfl) (hneed ⟨hcond.1, hcond.2.1, hcond.2.2.1⟩)
  · have hno : refreshes w targetCount = false := by
      rw [← Bool.not_eq_true]
      exact fun h => hcond (hrefresh.mpr h)
    rw [hno, withHeader_false]
    exact runs_pure ⟨h, rfl, hupd⟩

theorem writeData_runs {w : WriteArgs} {targetCount lastChunk : Nat}
    (hb : Base f c₀ base) (ho : Owns f c₀ base) (hg : WriteGrants p c₀ base w targetCount lastChunk)
    (hw : w.Fits lastChunk) (hid : w.id = f) (hlen : w.curLen = base.length)
    (hlast : lastChunk < u64Max) (hin : lastChunk < targetCount) :
    Runs p.permit f c₀ (writeData w targetCount lastChunk)
      (fun r c' => r.1.length = base.length + (targetCount - base.length) ∧
        Sees p f c₀ base c' r.1 r.2
          (written w targetCount lastChunk (contentAt f c₀ base fun _ => none)))
      (fun e _ => base.length + targetCount ≤ u64Max → e ≠ .panic) := by
  unfold writeData
  have hneeds : writeNeeds w targetCount lastChunk =
    (targetCount - w.curLen) + (min (lastChunk + 1) w.curLen - writeFrom w) +
      if w.hideSize = true ∧ w.newReal ≠ w.oldReal ∧ w.firstChunk > 0 then 1 else 0 := rfl
  have hgaps := gapChunks_length hw
  rw [hid, hlen]
  have hstart : Sees (p.first p.grows) f c₀ base c₀ base [] (contentAt f c₀ base fun _ => none) :=
    Sees.start hb (hg.grows 0 (Nat.zero_le _))
  have hext : Extends (p.first p.grows) c₀ c₀.broken (writeNeeds w targetCount lastChunk) := by
    rw [hb.broken]
    exact hg.extend
  refine runs_bind (runs_mono (Sees.extend_runs (p := p.first p.grows) hstart hb (le_refl _) (fun _ => hext) ?_ ?_) ?_ ?_)
  · rw [List.length_nil]
    omega
  · exact fun n hn => hg.grows n (by omega)
  · rintro appended c₁ - ⟨happ, h₁⟩
    have hall : (base ++ appended).length = base.length + (targetCount - w.curLen) := by
      rw [List.length_append, happ, hlen]
    have hgrown : Grown p c₀ (targetCount - w.curLen) :=
      (h₁.relax And.left (fun _ => And.left) (hg.grows _ (by omega))).grown (le_of_eq hall.symm)
    have hchunks := hg.chunks hgrown
    have h₁ : Holds (p.first (· = targetCount - w.curLen)) f c₀ base c₁ ⟨[], []⟩ appended
        (zeroed (contentAt f c₀ base fun _ => none) base.length
          (base.length + (targetCount - base.length))) :=
      h₁.relax id (fun _ => id) (show _ = _ by omega)
    refine runs_bind (runs_mono (coveredRefs_runs (p := p.first _) h₁ ho hid hlen hlast) ?_ fun _ _ _ he _ => he)
    rintro covered c₂ - ⟨rfl, hcov⟩
    refine runs_bind (runs_mono (scrubHole_runs (p := p.first _) h₁ hb ho hchunks hid hlen ?_ ?_) ?_
      fun _ _ _ he _ => he)
    · intro i hi
      obtain ⟨hcur, hfirst, hfrom⟩ := mem_gapChunks hi
      have hle : w.firstChunk ≤ lastChunk := by
        rw [hw.first, hw.last]
        have := hw.pos
        exact Nat.div_le_div_right (by omega)
      exact ⟨hcur, hfrom, by omega⟩
    · omega
    · rintro done c₃ - ⟨h₃, hret, hupd⟩
      have hspan : w.firstChunk ≤ lastChunk := by
        rw [hw.first, hw.last]
        have := hw.pos
        exact Nat.div_le_div_right (by omega)
      have hthrough : chunksThrough w.firstChunk lastChunk =
        List.range' w.firstChunk (lastChunk + 1 - w.firstChunk) := rfl
      have hcount : w.firstChunk + (lastChunk + 1 - w.firstChunk) = lastChunk + 1 := by omega
      rw [hthrough]
      refine runs_bind (runs_mono (writeLoop_runs (p := p.first _) h₃ hb hchunks hw hid hlen (le_refl _) hcount
        (fun _ => hw.bufAt_first.symm) hcov (fun u hu => (mem_gapChunks (hupd u hu)).2.1) ?_
        (by omega) (by rw [hcount]; omega)) ?_ fun _ _ _ he _ => he)
      · intro i hfirst hi hlt
        refine ⟨by omega, ?_, hi⟩
        have hfrom : writeFrom w ≤ w.firstChunk := by
          unfold writeFrom
          rw [hw.first]
          exact Nat.div_le_div_right (by omega)
        omega
      · rintro ⟨done', appended'⟩ c₄ - ⟨h₄, happ', hret', hupd'⟩
        simp only at h₄ happ' hret' hupd'
        rw [hcount] at hret'
        have hupd₄ : ∀ u ∈ done'.updates, u.1 < base.length := by
          intro u hu
          rcases hupd' u hu with hu | hu
          · have := (mem_gapChunks (hupd u hu)).1
            omega
          · exact hu
        have h₄ : Holds (p.grown (targetCount - w.curLen)) f c₀ base c₄ done' appended'
            (changed (patchedPart w) (List.range' w.firstChunk (lastChunk + 1 - w.firstChunk))
              (changed (clearedPart w.oldReal w.offset w.hideSize) (gapChunks w)
                (zeroed (contentAt f c₀ base fun _ => none) base.length
                  (base.length + (targetCount - base.length))))) :=
          Sees.relax h₄ And.left (fun _ => And.left) (show _ = _ by rw [held_length]; omega)
        refine runs_bind (runs_mono (headerAfterWrite_runs (p := p.grown _) h₄ hb ho
          (fun hhide hne => hg.header hhide hne hgrown) hid hlen hupd₄ (by omega) ?_) ?_
          fun _ _ _ he _ => he)
        · intro hcond
          rw [hneeds, if_pos hcond]
          omega
        · rintro ⟨done₅, appended₅⟩ c₅ - ⟨h₅, happ₅, hupd₅⟩
          simp only at h₅ happ₅ hupd₅
          obtain ⟨i, hi, rfl⟩ := ho.now (Sees.frame h₅)
          refine runs_bind (inodeOr_runs hi ?_)
          refine runs_bind (runs_fromExcept ?_ fun e he => absurd he (applyUpdates_ne_error hupd₅))
          intro chunks hchunks
          rw [applyUpdates_eq_ok hchunks]
          have hlength : (applied done₅.updates i.chunks ++ appended₅).length =
              i.chunks.length + (targetCount - i.chunks.length) := by
            rw [held_length]
            omega
          refine runs_pure ⟨hlength, ?_⟩
          unfold written
          rw [hlen, hthrough]
          exact Sees.relax h₅ id (fun _ => id) (hg.grows _ (by omega))
  · intro e c₁ _ he hfits
    exact he (by omega)

end Vfs

end Luksbox
