import Luksbox.Proofs.Addressing
import Luksbox.Proofs.ViewSteps

/-!
# `write` and `truncate` as paths

The loops of the two calls, one lemma for each, in terms of what the file's
chunks contain: scrubbing clears a part of some chunks, the write loop patches
the chunks it covers, and the size header goes into chunk 0. Each lemma says
which refs the call holds afterwards, how many slots it has retired, and what
every chunk of its view contains.

The loops never panic as long as the positions they compute fit a `u64`.
-/

namespace Luksbox

open Lib Relation

/-! ## Contents of a view -/

/-- The view holds `refs`, has retired `retired`, and has `content`. -/
def Sees (p : Plan) (f : FileId) (c₀ : Cfg) (base : List ChunkRef) (c : Cfg)
    (refs : List ChunkRef) (retired : List ChunkId) (content : Nat → Option Chunk) : Prop :=
  ∃ pts, View p f c₀ base c refs retired pts ∧ contentAt f c₀ base pts = content

theorem contentAt_update {f : FileId} {c₀ : Cfg} {base : List ChunkRef}
    {pts : Nat → Option Chunk} {idx : Nat} {pt : Chunk} :
    contentAt f c₀ base (Function.update pts idx (some pt)) =
      Function.update (contentAt f c₀ base pts) idx (some pt) := by
  funext j
  by_cases hj : j = idx
  · subst hj
    unfold contentAt
    rw [Function.update_self, Function.update_self]
  · rw [Function.update_of_ne hj]
    unfold contentAt
    rw [Function.update_of_ne hj]

/-- The contents with zero chunks put in from `a` to `b`. -/
theorem contentAt_zeroed {f : FileId} {c₀ : Cfg} {base : List ChunkRef}
    {pts : Nat → Option Chunk} {a b : Nat} :
    contentAt f c₀ base (zeroed pts a b) = zeroed (contentAt f c₀ base pts) a b := by
  funext j
  unfold contentAt zeroed
  split
  · next h => split at h <;> simp_all
  · next h => split at h <;> simp_all

namespace Sees

variable {p : Plan} {f : FileId} {c₀ c : Cfg} {base refs : List ChunkRef}
  {retired : List ChunkId} {content : Nat → Option Chunk} {touched : Nat → Prop} {need : Nat}

theorem start (hb : Base f c₀ base) (hgrows : p.grows 0) :
    Sees p f c₀ base c₀ base [] (contentAt f c₀ base fun _ => none) :=
  ⟨_, View.start hb hgrows, rfl⟩

theorem relax (h : Sees p f c₀ base c refs retired content) {early : Prop}
    {copies : ChunkId → Prop} {grows : Nat → Prop} (hearly : p.early → early)
    (hcopies : ∀ x, p.copies x → copies x) (hgrows : grows (refs.length - base.length)) :
    Sees { p with early := early, copies := copies, grows := grows } f c₀ base c refs retired
      content := by
  obtain ⟨pts, hv, hcontent⟩ := h
  exact ⟨pts, hv.relax hearly hcopies hgrows, hcontent⟩

theorem frame (h : Sees p f c₀ base c refs retired content) : Frame c₀.vfs c.vfs := by
  obtain ⟨pts, hv, -⟩ := h
  exact Path.frame hv.path

theorem read_runs (h : Sees p f c₀ base c refs retired content) {idx : Nat} {cur : ChunkRef}
    (hcur : refs[idx]? = some cur) :
    Runs p.permit f c (Vfs.readChunk f idx cur)
      (fun pt c' => Sees p f c₀ base c' refs retired content ∧ content idx = some pt)
      (fun e _ => e ≠ .panic) := by
  obtain ⟨pts, hv, rfl⟩ := h
  refine runs_mono (hv.read_runs hcur) ?_ fun _ _ _ he => he
  rintro pt c' - ⟨hv', -, hpt⟩
  exact ⟨⟨pts, hv', rfl⟩, hpt⟩

theorem rewrite_runs (h : Sees p f c₀ base c refs retired content) (hb : Base f c₀ base)
    (hg : Grants p c₀ base touched need) {idx : Nat} {cur : ChunkRef} {pt : Chunk}
    (hneed : refs.length + retired.length < need + base.length)
    (hcur : refs[idx]? = some cur) (ht : idx < base.length → touched idx) :
    Runs p.permit f c (Vfs.rewriteChunk f idx cur pt)
      (fun r c' => Sees p f c₀ base c' (refs.set idx r.1) (retired ++ r.2.toList)
        (Function.update content idx (some pt)))
      (fun e _ => e ≠ .panic) := by
  obtain ⟨pts, hv, rfl⟩ := h
  refine runs_mono (hv.rewrite_runs hb hg hneed hcur ht) ?_ fun _ _ _ he => he
  intro r c' _ hv'
  exact ⟨_, hv', contentAt_update⟩

theorem rewriteInPlace_runs (h : Sees p f c₀ base c refs retired content) (hb : Base f c₀ base)
    {idx : Nat} {cur : ChunkRef} {pt : Chunk} (hcur : refs[idx]? = some cur)
    (hidx : base.length ≤ idx) :
    Runs p.permit f c (Vfs.rewriteInPlace f idx cur pt)
      (fun r c' => Sees p f c₀ base c' (refs.set idx r) retired
        (Function.update content idx (some pt)))
      (fun e _ => e ≠ .panic) := by
  obtain ⟨pts, hv, rfl⟩ := h
  refine runs_mono (hv.rewriteInPlace_runs hb hcur hidx) ?_ fun _ _ _ he => he
  intro r c' _ hv'
  exact ⟨_, hv', contentAt_update⟩

theorem extend_runs {pre : List ChunkRef} {missing : Nat}
    (h : Sees p f c₀ base c pre retired content) (hb : Base f c₀ base)
    (hpre : base.length ≤ pre.length) (hext : 0 < missing → Extends p c₀ c.broken need)
    (hneed : pre.length + missing + retired.length ≤ need + base.length)
    (hgrows : ∀ n, n ≤ pre.length + missing - base.length → p.grows n) :
    Runs p.permit f c (Vfs.extendWithZeros f pre.length missing [])
      (fun new c' => new.length = missing ∧
        Sees p f c₀ base c' (pre ++ new) retired
          (zeroed content pre.length (pre.length + missing)))
      (fun e _ => pre.length + missing ≤ u64Max → e ≠ .panic) := by
  obtain ⟨pts, hv, rfl⟩ := h
  have hv : View p f c₀ base c (pre ++ []) retired pts := by
    rw [List.append_nil]
    exact hv
  refine runs_mono (Vfs.extendWithZeros_runs hv hb hpre hext (by simpa using hneed)
    (by simpa using hgrows)) ?_ ?_
  · rintro new c' - ⟨hlen, -, hv'⟩
    refine ⟨by simpa using hlen, _, hv', ?_⟩
    rw [contentAt_zeroed]
    rfl
  · intro e c' _ he hfits
    exact he (by simpa using hfits)

end Sees

/-- A point of the call at which the file has been extended: the `new` slots that
took are in flight. -/
def Grown (p : Plan) (c₀ : Cfg) (new : Nat) : Prop :=
  ∃ c, Frame c₀.vfs c.vfs ∧ p.Mode c₀ c ∧ new ≤ c.flight.length

theorem Sees.grown {p : Plan} {f : FileId} {c₀ c : Cfg} {base refs : List ChunkRef}
    {retired : List ChunkId} {content : Nat → Option Chunk} {new : Nat}
    (h : Sees p f c₀ base c refs retired content) (hnew : base.length + new ≤ refs.length) :
    Grown p c₀ new := by
  obtain ⟨pts, hview, -⟩ := h
  have hflight := hview.flight_length
  exact ⟨c, Path.frame hview.path, hview.mode, by omega⟩

/-! ## Clearing -/

theorem Chunk.fill_of_le {pt : Chunk} {a b : Nat} (h : b ≤ a) : pt.fill a b = pt := by
  funext i
  unfold Chunk.fill
  rw [if_neg (by omega)]

/-- Clearing zero bytes. -/
theorem Chunk.fill_of_zero {pt : Chunk} {a b : Nat}
    (h : (pt.slice a b).all (· == 0) = true) : pt.fill a b = pt := by
  funext i
  unfold Chunk.fill
  split
  · next hi =>
      have hmem : pt.get i.val ∈ pt.slice a b := by
        refine List.mem_map_of_mem (List.mem_range'_1.mpr ?_)
        omega
      have hzero := List.all_eq_true.mp h _ hmem
      have hget : pt.get i.val = pt i := by
        unfold Chunk.get
        rw [dif_pos i.isLt]
      rw [hget] at hzero
      exact (beq_iff_eq.mp hzero).symm
  · rfl

/-- The chunk with its share of the range `lo..hi` cleared. -/
def clearedPart (lo hi : Nat) (hide : Bool) (j : Nat) (pt : Chunk) : Chunk :=
  pt.fill (partStart j lo hide) (partStop j hi hide)

/-- The contents with `change j` done to each chunk `j` of the list. -/
def changed (change : Nat → Chunk → Chunk) (idxs : List Nat) (content : Nat → Option Chunk)
    (j : Nat) : Option Chunk :=
  if j ∈ idxs then (content j).map (change j) else content j

theorem changed_nil {change : Nat → Chunk → Chunk} {content : Nat → Option Chunk} :
    changed change [] content = content := by
  funext j
  unfold changed
  rw [if_neg List.not_mem_nil]

theorem changed_cons {change : Nat → Chunk → Chunk} {idx : Nat} {idxs : List Nat}
    {content : Nat → Option Chunk} {pt : Chunk} (hidx : idx ∉ idxs)
    (hpt : content idx = some pt) :
    changed change idxs (Function.update content idx (some (change idx pt))) =
      changed change (idx :: idxs) content := by
  funext j
  unfold changed
  by_cases hj : j = idx
  · subst hj
    rw [if_neg hidx, if_pos List.mem_cons_self, Function.update_self, hpt]
    rfl
  · rw [Function.update_of_ne hj]
    simp only [List.mem_cons, hj, false_or]

theorem changed_cons_same {change : Nat → Chunk → Chunk} {idx : Nat} {idxs : List Nat}
    {content : Nat → Option Chunk} (hidx : idx ∉ idxs)
    (hsame : (content idx).map (change idx) = content idx) :
    changed change idxs content = changed change (idx :: idxs) content := by
  funext j
  unfold changed
  by_cases hj : j = idx
  · subst hj
    rw [if_neg hidx, if_pos List.mem_cons_self, hsame]
  · simp only [List.mem_cons, hj, false_or]

namespace Vfs

variable {p : Plan} {f : FileId} {c₀ c : Cfg} {base refs : List ChunkRef}
  {retired : List ChunkId} {content : Nat → Option Chunk} {touched : Nat → Prop} {need : Nat}

/-- The refs after a chunk was rewritten, or was not. -/
def putRef (refs : List ChunkRef) (idx : Nat) :
    Option (ChunkRef × Option ChunkId) → List ChunkRef
  | none => refs
  | some (newRef, _) => refs.set idx newRef

/-- The slot that a rewrite retired. -/
def retiredBy : Option (ChunkRef × Option ChunkId) → List ChunkId
  | none => []
  | some (_, old) => old.toList

theorem retiredBy_length {r : Option (ChunkRef × Option ChunkId)} : (retiredBy r).length ≤ 1 := by
  unfold retiredBy
  split
  · exact Nat.zero_le _
  · next old => cases old <;> simp

theorem putRef_length {idx : Nat} {r : Option (ChunkRef × Option ChunkId)} :
    (putRef refs idx r).length = refs.length := by
  unfold putRef
  split
  · rfl
  · exact List.length_set

/-- The chunk contents after scrubbing `start..stop` of chunk `idx`. -/
theorem scrubChunk_runs (h : Sees p f c₀ base c refs retired content) (hb : Base f c₀ base)
    (hg : Grants p c₀ base touched need) {idx start stop : Nat} {cur : ChunkRef}
    (hneed : refs.length + retired.length < need + base.length)
    (hcur : refs[idx]? = some cur) (ht : touched idx)
    (hslice : start ≤ stop ∧ stop ≤ chunkPlaintextSize) :
    Runs p.permit f c (scrubChunk f idx cur start stop)
      (fun r c' => ∃ pt, content idx = some pt ∧
        Sees p f c₀ base c' (putRef refs idx r) (retired ++ retiredBy r)
          (Function.update content idx (some (pt.fill start stop))))
      (fun e _ => e ≠ .panic) := by
  unfold scrubChunk
  refine runs_bind (runs_mono (h.read_runs hcur) ?_ fun _ _ _ he => he)
  rintro pt c₁ - ⟨h₁, hpt⟩
  rw [checkSlice_ok hslice.1 hslice.2]
  refine runs_bind (runs_fromExcept ?_ nofun)
  intro _ _
  refine runs_ite (fun hzero => ?_) fun _ => ?_
  · refine runs_pure ⟨pt, hpt, ?_⟩
    have hsame : Function.update content idx (some (pt.fill start stop)) = content := by
      rw [Chunk.fill_of_zero hzero, ← hpt, Function.update_eq_self]
    rw [hsame]
    show Sees p f c₀ base c₁ refs (retired ++ []) content
    rw [List.append_nil]
    exact h₁
  · refine runs_bind (runs_mono (h₁.rewrite_runs hb hg hneed hcur fun _ => ht) ?_ fun _ _ _ he => he)
    rintro r c₂ - h₂
    exact runs_pure ⟨pt, hpt, h₂⟩

/-- The hole of a chunk, as `fill` sees it. -/
theorem map_clearedPart_of_le {lo hi j : Nat} {hide : Bool} {o : Option Chunk}
    (h : partStop j hi hide ≤ partStart j lo hide) : o.map (clearedPart lo hi hide j) = o := by
  cases o with
  | none => rfl
  | some pt =>
      show some (pt.fill _ _) = some pt
      rw [Chunk.fill_of_le h]

theorem zeroFillLoop_runs {idxs : List Nat} {lo hi : Nat} {hide : Bool}
    (h : Sees p f c₀ base c refs retired content) (hb : Base f c₀ base)
    (hg : Grants p c₀ base touched need) (hlen : refs.length = base.length)
    (hidxs : ∀ i ∈ idxs, touched i ∧ i < base.length) (hnd : idxs.Nodup)
    (hneed : retired.length + idxs.length ≤ need) :
    Runs p.permit f c (zeroFillLoop f lo hi hide idxs refs retired)
      (fun r c' => (idxs = [] → c'.broken = c.broken) ∧ r.1.length = refs.length ∧
        r.2.length ≤ retired.length + idxs.length ∧
        Sees p f c₀ base c' r.1 r.2 (changed (clearedPart lo hi hide) idxs content))
      (fun e _ => e ≠ .panic) := by
  induction idxs generalizing c refs retired content with
  | nil =>
      refine runs_pure ⟨fun _ => rfl, rfl, le_refl _, ?_⟩
      rw [changed_nil]
      exact h
  | cons idx rest ih =>
      obtain ⟨hnot, hnd⟩ := List.nodup_cons.mp hnd
      obtain ⟨ht, hidx⟩ := hidxs idx List.mem_cons_self
      have hrest : ∀ i ∈ rest, touched i ∧ i < base.length :=
        fun i hi => hidxs i (List.mem_cons_of_mem _ hi)
      rw [List.length_cons] at hneed
      unfold zeroFillLoop
      rcases @holePart_cases idx lo hi hide with herr | ⟨hnone, hle⟩ | ⟨hsome, hlt⟩
      · rw [herr]
        refine runs_bind (runs_fromExcept nofun ?_)
        intro e he
        injection he with he
        rw [← he]
        exact nofun
      · -- the range misses this chunk
        rw [hnone]
        refine runs_bind (runs_fromExcept ?_ nofun)
        intro o ho
        injection ho with ho
        subst ho
        refine runs_mono (ih h hlen hrest hnd (by omega)) ?_ fun _ _ _ he => he
        rintro r c' - ⟨-, hl, hr, hs⟩
        refine ⟨nofun, hl, by rw [List.length_cons]; omega, ?_⟩
        rw [← changed_cons_same hnot (map_clearedPart_of_le hle)]
        exact hs
      · rw [hsome]
        refine runs_bind (runs_fromExcept ?_ nofun)
        intro o ho
        injection ho with ho
        subst ho
        refine runs_bind (runs_fromExcept ?_ fun e he => ?_)
        · intro cur hcur
          have hscrub := scrubChunk_runs h hb hg (by omega) (index_eq_ok hcur) ht
            ⟨hlt.le, partStop_le⟩
          refine runs_bind (runs_mono hscrub ?_ fun _ _ _ he => he)
          rintro r c₁ - ⟨pt, hpt, h₁⟩
          have hr := @retiredBy_length r
          have hl := @putRef_length refs idx r
          have hrun := ih h₁ (hl.trans hlen) hrest hnd (by rw [List.length_append]; omega)
          have hpost : Runs p.permit f c₁
              (zeroFillLoop f lo hi hide rest (putRef refs idx r) (retired ++ retiredBy r))
              (fun r c' => (idx :: rest = [] → c'.broken = c.broken) ∧
                r.1.length = refs.length ∧
                r.2.length ≤ retired.length + (idx :: rest).length ∧
                Sees p f c₀ base c' r.1 r.2
                  (changed (clearedPart lo hi hide) (idx :: rest) content))
              (fun e _ => e ≠ .panic) := by
            refine runs_mono hrun ?_ fun _ _ _ he => he
            rintro r' c' - ⟨-, hl', hr', hs'⟩
            rw [List.length_append] at hr'
            refine ⟨nofun, hl'.trans hl, by rw [List.length_cons]; omega, ?_⟩
            rw [← changed_cons hnot hpt]
            exact hs'
          cases r with
          | none =>
              rw [show retired ++ retiredBy none = retired from List.append_nil _] at hpost
              exact hpost
          | some r => exact hpost
        · have := index_error he
          omega

/-- The chunks a range to be cleared reaches, of the `len` that are there. -/
def clearedChunks (lo hi : Nat) (hide : Bool) (len : Nat) : List Nat :=
  if lo ≥ hi ∨ len = 0 then []
  else chunksThrough ((lo + headerLen hide) / chunkPlaintextSize)
    (min ((hi - 1 + headerLen hide) / chunkPlaintextSize) (len - 1))

theorem chunksThrough_nodup {a b : Nat} : (chunksThrough a b).Nodup :=
  List.nodup_range'

theorem mem_chunksThrough {a b i : Nat} : i ∈ chunksThrough a b ↔ a ≤ i ∧ i ≤ b := by
  unfold chunksThrough
  rw [List.mem_range'_1]
  omega

theorem mem_clearedChunks {lo hi len i : Nat} {hide : Bool}
    (h : i ∈ clearedChunks lo hi hide len) : i < len := by
  unfold clearedChunks at h
  split at h
  · cases h
  · rw [mem_chunksThrough] at h
    omega

theorem clearedChunks_nodup {lo hi len : Nat} {hide : Bool} :
    (clearedChunks lo hi hide len).Nodup := by
  unfold clearedChunks
  split
  · exact List.nodup_nil
  · exact chunksThrough_nodup

theorem zeroFillExistingRange_runs {lo hi : Nat} {hide : Bool}
    (h : Sees p f c₀ base c refs [] content) (hb : Base f c₀ base)
    (hg : Grants p c₀ base touched need) (hlen : refs.length = base.length)
    (ht : ∀ i ∈ clearedChunks lo hi hide base.length, touched i)
    (hneed : (clearedChunks lo hi hide base.length).length ≤ need) :
    Runs p.permit f c (zeroFillExistingRange f refs lo hi hide)
      (fun r c' => (clearedChunks lo hi hide base.length = [] → c'.broken = c.broken) ∧
        r.1.length = refs.length ∧
        r.2.length ≤ (clearedChunks lo hi hide base.length).length ∧
        Sees p f c₀ base c' r.1 r.2
          (changed (clearedPart lo hi hide) (clearedChunks lo hi hide base.length) content))
      (fun e _ => e ≠ .panic) := by
  unfold zeroFillExistingRange
  have hmem := fun i (hi : i ∈ clearedChunks lo hi hide base.length) =>
    And.intro (ht i hi) (mem_clearedChunks hi)
  refine runs_ite (fun hnone => ?_) fun hsome => ?_
  · have hnil : clearedChunks lo hi hide base.length = [] := by
      unfold clearedChunks
      rw [← hlen, if_pos (hnone.imp id List.length_eq_zero_iff.mpr)]
    refine runs_pure ⟨fun _ => rfl, rfl, Nat.zero_le _, ?_⟩
    rw [hnil, changed_nil]
    exact h
  · have hpos : 0 < refs.length := by
      rw [List.length_pos_iff]
      exact fun hnil => hsome (Or.inr hnil)
    have hlt : lo < hi := by
      by_contra hge
      exact hsome (Or.inl (Nat.not_lt.mp hge))
    have hidxs : clearedChunks lo hi hide base.length =
        chunksThrough ((lo + headerLen hide) / chunkPlaintextSize)
          (min ((hi - 1 + headerLen hide) / chunkPlaintextSize) (base.length - 1)) := by
      unfold clearedChunks
      rw [if_neg (by omega)]
    refine runs_bind (runs_fromExcept ?_ fun e he => by rw [fileToChunk_error he]; exact nofun)
    rintro ⟨first, pos⟩ hfirst
    obtain ⟨hfirst, -⟩ := fileToChunk_eq_ok hfirst
    injection hfirst with hfirst hpos'
    rw [subU_of_le (by omega)]
    refine runs_bind (runs_fromExcept ?_ nofun)
    intro lastByte hlb
    injection hlb with hlb
    refine runs_bind (runs_fromExcept ?_ fun e he => by rw [fileToChunk_error he]; exact nofun)
    rintro ⟨last, pos₂⟩ hlast
    obtain ⟨hlast, -⟩ := fileToChunk_eq_ok hlast
    injection hlast with hlast hpos₂
    rw [subU_of_le (by omega)]
    refine runs_bind (runs_fromExcept ?_ nofun)
    intro lastChunk hlc
    injection hlc with hlc
    subst hfirst hlb hlast hlc
    rw [hlen, ← hidxs]
    refine runs_mono (zeroFillLoop_runs h hb hg hlen hmem clearedChunks_nodup
      (by rw [List.length_nil]; omega)) ?_ fun _ _ _ he => he
    rintro r c' - ⟨hbr, hl, hr, hs⟩
    rw [List.length_nil, Nat.zero_add] at hr
    exact ⟨hbr, hl.trans hlen, hr, hs⟩

/-! ## Truncate -/

/-- The contents with the size header of chunk 0 set. -/
def withHeader (hide : Bool) (size : Nat) (content : Nat → Option Chunk) (j : Nat) :
    Option Chunk :=
  if hide = true ∧ j = 0 then (content j).map fun pt => installSizeHeader pt size else content j

theorem withHeader_update {size : Nat} {pt : Chunk} (hpt : content 0 = some pt) :
    Function.update content 0 (some (installSizeHeader pt size)) =
      withHeader true size content := by
  funext j
  unfold withHeader
  by_cases hj : j = 0
  · rw [hj, Function.update_self, if_pos ⟨rfl, rfl⟩, hpt]
    rfl
  · rw [Function.update_of_ne hj, if_neg (fun h => hj h.2)]

theorem withHeader_false {size : Nat} : withHeader false size content = content := by
  funext j
  exact if_neg (fun h => nomatch h.1)

/-- The contents that `truncate` leaves in the chunks it keeps and adds. -/
def truncated (oldReal newSize newChunkCount : Nat) (hide : Bool) (len : Nat)
    (content : Nat → Option Chunk) : Nat → Option Chunk :=
  withHeader hide newSize
    (zeroed (changed (clearedPart oldReal newSize hide) (clearedChunks oldReal newSize hide len)
      content) len (len + (newChunkCount - len)))

/-- The chunks that `truncate` rewrites, of the `len` it keeps. -/
def truncateTouches (oldReal newSize : Nat) (hide : Bool) (len i : Nat) : Prop :=
  i < len ∧ (i ∈ clearedChunks oldReal newSize hide len ∨ (hide = true ∧ i = 0))

/-- How many slots `truncate` may take. -/
def truncateNeeds (oldReal newSize newChunkCount : Nat) (hide : Bool) (len : Nat) : Nat :=
  (clearedChunks oldReal newSize hide len).length + (newChunkCount - len) +
    if hide then 1 else 0

/-- And how many up to its last rewrite. -/
def truncateTakes (oldReal newSize newChunkCount : Nat) (hide : Bool) (len : Nat) : Nat :=
  (clearedChunks oldReal newSize hide len).length +
    if hide then newChunkCount - len + 1 else 0

theorem truncateTakes_le {oldReal newSize newChunkCount len : Nat} {hide : Bool} :
    truncateTakes oldReal newSize newChunkCount hide len ≤
      truncateNeeds oldReal newSize newChunkCount hide len := by
  unfold truncateTakes truncateNeeds
  split
  · omega
  · omega

theorem truncateHeader_runs {newSize : Nat} (h : Sees p f c₀ base c refs retired content)
    (hb : Base f c₀ base) (hg : Grants p c₀ base touched need) (ht : 0 < base.length → touched 0)
    (hneed : refs.length + retired.length < need + base.length) (hempty : refs = [] → content 0 = none) :
    Runs p.permit f c (truncateHeader f newSize refs)
      (fun r c' => r.1.length = refs.length ∧
        Sees p f c₀ base c' r.1 (retired ++ r.2) (withHeader true newSize content))
      (fun e _ => e ≠ .panic) := by
  unfold truncateHeader
  cases refs with
  | nil =>
      refine runs_pure ⟨rfl, ?_⟩
      have hsame : withHeader true newSize content = content := by
        funext j
        unfold withHeader
        split
        · next hj => rw [hj.2, hempty rfl]; rfl
        · rfl
      rw [List.append_nil, hsame]
      exact h
  | cons chunk0 rest =>
      have hcur : (chunk0 :: rest)[0]? = some chunk0 := rfl
      refine runs_bind (runs_mono (h.read_runs hcur) ?_ fun _ _ _ he => he)
      rintro pt c₁ - ⟨h₁, hpt⟩
      refine runs_bind (runs_mono (h₁.rewrite_runs hb hg hneed hcur ht) ?_ fun _ _ _ he => he)
      rintro ⟨new0, old⟩ c₂ - h₂
      rw [withHeader_update hpt] at h₂
      exact runs_pure ⟨List.length_set, h₂⟩

theorem contentAt_none {j : Nat} (hj : base.length ≤ j) :
    contentAt f c₀ base (fun _ => none) j = none := by
  unfold contentAt
  rw [List.getElem?_eq_none_iff.mpr hj]
  rfl

/-- What is granted to `truncate`: for the chunks it clears, for the flush its
extension may need (with nothing overwritten if it clears none), and for the size
header, once the file has been extended. -/
structure TruncateGrants (p : Plan) (c₀ : Cfg) (base : List ChunkRef)
    (oldReal newSize newChunkCount : Nat) (hide : Bool) : Prop where
  grows : ∀ n, n ≤ newChunkCount - base.length → p.grows n
  cleared : Grants (p.first (· = 0)) c₀ base (· ∈ clearedChunks oldReal newSize hide base.length)
    (clearedChunks oldReal newSize hide base.length).length
  extend : base.length < newChunkCount → ∀ broken,
    (clearedChunks oldReal newSize hide base.length = [] → broken = []) →
    Extends (p.first p.grows) c₀ broken
      (truncateNeeds oldReal newSize newChunkCount hide base.length)
  header : hide = true → Grown p c₀ (newChunkCount - base.length) →
    Grants (p.grown (newChunkCount - base.length)) c₀ base (· = 0)
      (truncateTakes oldReal newSize newChunkCount hide base.length)

/-- All of it from what is granted for all of the chunks. -/
theorem TruncateGrants.of_chunks {oldReal newSize newChunkCount : Nat} {hide : Bool}
    (hgrows : ∀ n, n ≤ newChunkCount - base.length → p.grows n)
    (h : ∀ early copies, (p.early → p.sooner → early) →
      (∀ x, p.copies x → p.covers x → copies x) → ∀ grows,
      Grants { p with early := early, copies := copies, grows := grows } c₀ base
      (truncateTouches oldReal newSize hide base.length)
      (truncateTakes oldReal newSize newChunkCount hide base.length))
    (hext : ∀ broken, Extends (p.first p.grows) c₀ broken
      (truncateNeeds oldReal newSize newChunkCount hide base.length)) :
    TruncateGrants p c₀ base oldReal newSize newChunkCount hide where
  grows := hgrows
  cleared := (h _ _ And.intro (fun _ => And.intro) _).mono (fun _ _ hr hc => ⟨(List.getElem?_eq_some_iff.mp hr).1, Or.inl hc⟩)
    (Nat.le_add_right _ _)
  extend := fun _ broken _ => hext broken
  header := fun hhide _ => (h _ _ (fun he _ => he) (fun _ hx _ => hx) _).mono
    (fun _ _ hr hz => ⟨(List.getElem?_eq_some_iff.mp hr).1, Or.inr ⟨hhide, hz⟩⟩) (le_refl _)

theorem clearedChunks_of_ge {lo hi len : Nat} {hide : Bool} (h : hi ≤ lo) :
    clearedChunks lo hi hide len = [] := by
  unfold clearedChunks
  rw [if_pos (Or.inl h)]

theorem truncateData_runs {oldReal newSize newChunkCount : Nat} {hide : Bool}
    (hb : Base f c₀ base) (hg : TruncateGrants p c₀ base oldReal newSize newChunkCount hide) :
    Runs p.permit f c₀ (truncateData f oldReal newSize newChunkCount hide base)
      (fun r c' => r.1.length = base.length + (newChunkCount - base.length) ∧
        Sees p f c₀ base c' r.1 r.2 (truncated oldReal newSize newChunkCount hide base.length
          (contentAt f c₀ base fun _ => none)))
      (fun e _ => base.length + newChunkCount ≤ u64Max → e ≠ .panic) := by
  unfold truncateData
  have hneeds : truncateNeeds oldReal newSize newChunkCount hide base.length =
    (clearedChunks oldReal newSize hide base.length).length + (newChunkCount - base.length) +
      if hide then 1 else 0 := rfl
  have htakes : truncateTakes oldReal newSize newChunkCount hide base.length =
    (clearedChunks oldReal newSize hide base.length).length +
      if hide then newChunkCount - base.length + 1 else 0 := rfl
  -- the zero fill, or nothing
  have hfill : Runs p.permit f c₀ (fillGrown f oldReal newSize hide base)
      (fun r c' => (clearedChunks oldReal newSize hide base.length = [] →
          c'.broken = c₀.broken) ∧ r.1.length = base.length ∧
        r.2.length ≤ (clearedChunks oldReal newSize hide base.length).length ∧
        Sees (p.first (· = 0)) f c₀ base c' r.1 r.2 (changed (clearedPart oldReal newSize hide)
          (clearedChunks oldReal newSize hide base.length) (contentAt f c₀ base fun _ => none)))
      (fun e _ => e ≠ .panic) := by
    refine runs_ite (fun _ => ?_) fun hle => ?_
    · refine zeroFillExistingRange_runs (Sees.start hb rfl) hb hg.cleared rfl ?_ ?_
      · exact fun i hi => hi
      · omega
    · rw [clearedChunks_of_ge (Nat.not_lt.mp hle), changed_nil]
      exact runs_pure ⟨fun _ => rfl, rfl, le_refl _, Sees.start hb rfl⟩
  refine runs_bind (runs_mono hfill ?_ fun _ _ _ he _ => he)
  rintro ⟨chunks, retired⟩ c₁ - ⟨hbr, hlen, hret, h₁⟩
  simp only at hlen hret h₁
  have h₁ : Sees (p.first p.grows) f c₀ base c₁ chunks retired
      (changed (clearedPart oldReal newSize hide)
        (clearedChunks oldReal newSize hide base.length) (contentAt f c₀ base fun _ => none)) :=
    h₁.relax id (fun _ => id) (hg.grows _ (by omega))
  refine runs_bind (runs_mono (Sees.extend_runs (p := p.first p.grows) h₁ hb (by omega)
    (fun h => hg.extend (by omega) _ fun hnil => (hbr hnil).trans hb.broken) ?_ ?_) ?_ ?_)
  · rw [hlen]
    omega
  · exact fun n hn => hg.grows n (by omega)
  · rintro new c₂ - ⟨hnew, h₂⟩
    rw [hlen] at hnew h₂
    have hall : (chunks ++ new).length = base.length + (newChunkCount - base.length) := by
      rw [List.length_append, hlen, hnew]
    cases hide with
    | false =>
        refine runs_bind (runs_pure (runs_pure ⟨hall, ?_⟩))
        rw [List.append_nil]
        unfold truncated
        rw [withHeader_false]
        exact h₂.relax And.left (fun _ => And.left) (hg.grows _ (by omega))
    | true =>
        have hsees : Sees (p.grown (newChunkCount - base.length)) f c₀ base c₂ (chunks ++ new)
            retired _ := h₂.relax And.left (fun _ => And.left) (show _ = _ by omega)
        have hgrown : Grown p c₀ (newChunkCount - base.length) :=
          hsees.grown (le_of_eq hall.symm)
        refine runs_bind (runs_mono (truncateHeader_runs (p := p.grown _) hsees hb
          (hg.header rfl hgrown) (fun _ => rfl) ?_ ?_) ?_ fun _ _ _ he _ => he)
        · rw [hall, htakes, if_pos rfl]
          omega
        · -- no chunk at all
          intro hnil
          rw [hnil, List.length_nil] at hall
          unfold zeroed
          rw [if_neg (by omega)]
          unfold changed
          rw [contentAt_none (by omega)]
          split <;> rfl
        · rintro ⟨chunks', retired'⟩ c₃ - ⟨hlen', h₃⟩
          have hall' : chunks'.length = base.length + (newChunkCount - base.length) :=
            hlen'.trans hall
          exact runs_pure ⟨hall', h₃.relax id (fun _ => id) (hg.grows _ (by omega))⟩
  · intro e c₂ _ he hfits
    refine he ?_
    rw [hlen]
    omega

end Vfs

end Luksbox
