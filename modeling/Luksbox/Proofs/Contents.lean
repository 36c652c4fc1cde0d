import Luksbox.Proofs.Commits
import Luksbox.Proofs.FileBytes

/-!
# What the files contain

`Vfs.contents` reads a file off the state: the bytes of its chunks up to its
length. A path of small steps leaves the contents of every file alone unless it
overwrites one of the file's own slots, and a call overwrites only slots of the
file it works on; at its end that file has the bytes of `Proofs/FileBytes.lean`.
-/

namespace Luksbox

open Lib Lib.ByteFile Relation

namespace Vfs

variable {s s' : Vfs} {f g : FileId}

/-- The bytes of a file. -/
def contents (s : Vfs) (f : FileId) : Option (List UInt8) :=
  (s.tree.inodes.get? f).bind fun i =>
    if i.kind = .file then (s.sizeOf f).map (fileBytes (s.chunkAt f i.chunks) s.hideSize 0) else none

theorem contents_of_get? {i : Inode} {n : Nat} (hi : s.tree.inodes.get? f = some i)
    (hk : i.kind = .file) (hn : s.sizeOf f = some n) :
    s.contents f = some (fileBytes (s.chunkAt f i.chunks) s.hideSize 0 n) := by
  unfold contents
  rw [hi, Option.bind_some, if_pos hk, hn]
  rfl

theorem exists_of_contents {bs : List UInt8} (h : s.contents f = some bs) :
    ∃ i n, s.tree.inodes.get? f = some i ∧ i.kind = .file ∧ s.sizeOf f = some n ∧
      bs = fileBytes (s.chunkAt f i.chunks) s.hideSize 0 n := by
  unfold contents at h
  obtain ⟨i, hi, h⟩ := Option.bind_eq_some_iff.mp h
  split at h
  · next hk =>
      obtain ⟨n, hn, rfl⟩ := Option.map_eq_some_iff.mp h
      exact ⟨i, n, hi, hk, hn, rfl⟩
  · cases h

theorem contents_none (h : s.tree.inodes.get? f = none) : s.contents f = none := by
  unfold contents
  rw [h]
  rfl

/-- The slots under a file's refs decide what its chunks open to. -/
theorem chunkAt_congr {chunks : List ChunkRef} (hkey : s'.container.fileKey f = s.container.fileKey f)
    (h : ∀ r ∈ chunks, s'.container.slots r.id = s.container.slots r.id) :
    s'.chunkAt f chunks = s.chunkAt f chunks := by
  funext idx
  unfold chunkAt opens
  cases hr : chunks[idx]? with
  | none => rfl
  | some r =>
      show s'.container.slots r.id _ _ = s.container.slots r.id _ _
      rw [h r (List.mem_of_getElem? hr), hkey]

theorem contents_congr {i i' : Inode} (hi : s.tree.inodes.get? f = some i)
    (hi' : s'.tree.inodes.get? f = some i') (hkind : i'.kind = i.kind)
    (hchunks : i'.chunks = i.chunks) (hsize : s'.sizeOf f = s.sizeOf f)
    (hhide : s'.hideSize = s.hideSize) (hkey : s'.container.fileKey f = s.container.fileKey f)
    (hslots : ∀ x ∈ i.dataIds, s'.container.slots x = s.container.slots x) :
    s'.contents f = s.contents f := by
  have hat : s'.chunkAt f i.chunks = s.chunkAt f i.chunks :=
    chunkAt_congr hkey fun r hr => hslots r.id (List.mem_map_of_mem hr)
  unfold contents
  rw [hi, hi', Option.bind_some, Option.bind_some, hkind, hchunks, hsize, hhide, hat]

/-- The part of a file that counts lies in chunks below `bound`. -/
theorem fileBytes_congr {content content' : Nat → Option Chunk} {hide : Bool} {n bound : Nat}
    (hlast : 0 < n → (n - 1 + headerLen hide) / chunkPlaintextSize < bound)
    (h : ∀ k, k < bound → content' k = content k) :
    fileBytes content' hide 0 n = fileBytes content hide 0 n := by
  unfold fileBytes
  refine List.map_congr_left fun pos hpos => flatAt_congr (h _ ?_)
  rw [List.mem_range'_1] at hpos
  refine (Nat.div_le_div_right ?_).trans_lt (hlast (by omega))
  omega

end Vfs

/-- The only inode of a fresh tree. -/
theorem DirectoryTree.eq_newRoot {f : FileId} {i : Inode}
    (h : DirectoryTree.new.inodes.get? f = some i) : i = DirectoryTree.newRoot := by
  unfold DirectoryTree.new at h
  rw [OrdMap.get?_insert] at h
  split at h
  · exact (Option.some.inj h).symm
  · cases h

/-! ## Along a path -/

section Paths

variable {P : Permit} {f g : FileId} {c c' : Cfg}

/-- A chunk's slot that was not overwritten in place by the end of the path. -/
theorem Path.slot_kept (h : Path P f c c') (hl : Ledger c) {i : Inode} {x : ChunkId}
    (hi : c.vfs.tree.inodes.get? g = some i) (hx : x ∈ i.dataIds) (hb : x ∉ c'.broken) :
    x ∉ c.broken ∧ c'.vfs.container.slots x = c.vfs.container.slots x := by
  induction h with
  | refl => exact ⟨hb, rfl⟩
  | tail hp hs ih =>
      obtain ⟨j, hj, hbare⟩ := (Path.frame hp).inode hi
      have hxj : x ∈ j.dataIds := by
        unfold Inode.dataIds at hx ⊢
        rw [Inode.bare_chunks hbare]
        exact hx
      obtain ⟨hb₁, hslot⟩ := hs.slot_kept ((hl.path hp).not_flight hj hxj).2 hb
      obtain ⟨hb₀, hslot₀⟩ := ih hb₁
      exact ⟨hb₀, hslot.trans hslot₀⟩

/-- Nothing in `broken` is a chunk of `g`. -/
def Cfg.Spares (c : Cfg) (g : FileId) : Prop :=
  ∀ i, c.vfs.tree.inodes.get? g = some i → ∀ x ∈ i.dataIds, x ∉ c.broken

theorem Cfg.spares_of_nil (h : c.broken = []) : c.Spares g := by
  intro i _ x _
  rw [h]
  exact List.not_mem_nil

/-- A call breaks chunks of its own file only. -/
theorem Path.spares (h : Path P f c c') (hl : Ledger c) (hb : c.broken = []) (hgf : g ≠ f) :
    c'.Spares g := by
  intro i hi x hx hmem
  have hown : c'.BreaksOwn f := Path.breaksOwn h (by
    intro y hy
    rw [hb] at hy
    cases hy)
  obtain ⟨j, hj, hxj⟩ := hown x hmem
  exact hgf ((hl.path h).one_file hj hxj hi hx)

theorem Cfg.Spares.before (h : c'.Spares g) (hp : Path P f c c') {i : Inode}
    (hi : c.vfs.tree.inodes.get? g = some i) {x : ChunkId} (hx : x ∈ i.dataIds) :
    x ∉ c'.broken := by
  obtain ⟨j, hj, hbare⟩ := (Path.frame hp).inode hi
  refine h j hj x ?_
  unfold Inode.dataIds at hx ⊢
  rw [Inode.bare_chunks hbare]
  exact hx

theorem Path.sizeOf_kept (h : Path P f c c') (hl : Ledger c) (hsp : c'.Spares g) :
    c'.vfs.sizeOf g = c.vfs.sizeOf g := by
  induction h with
  | refl => rfl
  | @tail c₁ c₂ hp hs ih =>
      have hslots : ∀ i, c₁.vfs.tree.inodes.get? g = some i → ∀ x ∈ i.dataIds,
          x ∉ c₁.broken ∧ c₂.vfs.container.slots x = c₁.vfs.container.slots x := fun i hi x hx =>
        hs.slot_kept ((hl.path hp).not_flight hi hx).2 (hsp.before (ReflTransGen.single hs) hi hx)
      refine Eq.trans ?_ (ih fun i hi x hx => (hslots i hi x hx).1)
      rcases hs.sized with hsized | ⟨n, hn, hv⟩
      · exact Vfs.sizeOf_congr (Vfs.sized_of_mapVals hsized) hs.frame.hideSize hs.frame.fileKey
          fun i hi x hx => (hslots i hi x hx).2
      · by_cases hgf : g = f
        · rw [hgf, hn, hv]
          exact Vfs.sizeOf_cached hn
        · refine Vfs.sizeOf_congr ?_ hs.frame.hideSize hs.frame.fileKey
            fun i hi x hx => (hslots i hi x hx).2
          rw [hv]
          show ((c₁.vfs.tree.inodes.adjust f _).get? g).map _ = _
          rw [OrdMap.get?_adjust, if_neg hgf]

theorem Path.contents_kept (h : Path P f c c') (hl : Ledger c) (hsp : c'.Spares g) :
    c'.vfs.contents g = c.vfs.contents g := by
  have hframe := Path.frame h
  cases hi : c.vfs.tree.inodes.get? g with
  | none =>
      have hnone : c'.vfs.tree.inodes.get? g = none := by
        cases hi' : c'.vfs.tree.inodes.get? g with
        | none => rfl
        | some i' =>
            obtain ⟨i, hback, -⟩ := hframe.inode_back hi'
            rw [hi] at hback
            cases hback
      rw [Vfs.contents_none hi, Vfs.contents_none hnone]
  | some i =>
      obtain ⟨i', hi', hbare⟩ := hframe.inode hi
      exact Vfs.contents_congr hi hi' (Inode.bare_kind hbare) (Inode.bare_chunks hbare)
        (Path.sizeOf_kept h hl hsp) hframe.hideSize hframe.fileKey
        fun x hx => (Path.slot_kept h hl hi hx (hsp.before h hi hx)).2

theorem Path.intactBut (h : Path P f c c') (hl : Ledger c) (hi : Vfs.IntactBut c.broken c.vfs) :
    Vfs.IntactBut c'.broken c'.vfs := by
  induction h with
  | refl => exact hi
  | tail hp hs ih => exact hs.intact (hl.path hp) ih

end Paths

/-! ## The end of a call -/

namespace Vfs

variable {s s' : Vfs} {f g : FileId}

/-- Another file than the one that got new refs. -/
theorem get?_replaced_of_ne {refs : List ChunkRef} {newReal : Nat} {freed : List ChunkId}
    (hgf : g ≠ f) : (s.replaced f refs newReal freed).tree.inodes.get? g = s.tree.inodes.get? g :=
  OrdMap.get?_adjust_of_ne hgf

theorem sizeOf_replaced_of_ne {refs : List ChunkRef} {newReal : Nat} {freed : List ChunkId}
    (hgf : g ≠ f) : (s.replaced f refs newReal freed).sizeOf g = s.sizeOf g := by
  refine sizeOf_congr (congrArg (Option.map Inode.sized) (get?_replaced_of_ne hgf)) rfl rfl ?_
  intro _ _ _ _
  rfl

theorem contents_replaced_of_ne {refs : List ChunkRef} {newReal : Nat} {freed : List ChunkId}
    (hgf : g ≠ f) : (s.replaced f refs newReal freed).contents g = s.contents g := by
  have hget := @get?_replaced_of_ne s f g refs newReal freed hgf
  cases hi : s.tree.inodes.get? g with
  | none => rw [contents_none hi, contents_none (hget.trans hi)]
  | some i =>
      exact contents_congr hi (hget.trans hi) rfl rfl (sizeOf_replaced_of_ne hgf) rfl rfl
        fun _ _ => rfl

/-- And the one that did. -/
theorem get?_replaced {refs : List ChunkRef} {newReal : Nat} {freed : List ChunkId} {i : Inode}
    (hi : s.tree.inodes.get? f = some i) :
    (s.replaced f refs newReal freed).tree.inodes.get? f = some { i with
      chunks := refs
      size := if s.hideSize then refs.length * chunkPlaintextSize else newReal
      cachedRealSize := if s.hideSize then some newReal else i.cachedRealSize
      mtimeNs := s.container.env.nowNs } := by
  show (OrdMap.adjust _ f _).get? f = _
  rw [OrdMap.get?_adjust_self, hi]
  rfl

theorem sizeOf_replaced {refs : List ChunkRef} {newReal : Nat} {freed : List ChunkId} {i : Inode}
    (hi : s.tree.inodes.get? f = some i) (hk : i.kind = .file) :
    (s.replaced f refs newReal freed).sizeOf f = some newReal := by
  have hhide : (s.replaced f refs newReal freed).hideSize = s.hideSize := rfl
  unfold sizeOf
  rw [get?_replaced hi, Option.bind_some]
  unfold inodeSize
  rw [if_neg (not_not.mpr hk), hhide]
  cases hh : s.hideSize with
  | false => rfl
  | true => rfl

theorem contents_replaced {refs : List ChunkRef} {newReal : Nat} {freed : List ChunkId} {i : Inode}
    (hi : s.tree.inodes.get? f = some i) (hk : i.kind = .file) :
    (s.replaced f refs newReal freed).contents f =
      some (fileBytes (s.chunkAt f refs) s.hideSize 0 newReal) :=
  contents_of_get? (get?_replaced hi) hk (sizeOf_replaced hi hk)

/-- Where a call begins its files are those of the state it was called in. -/
theorem Begun.contents {P : Permit} {c₀ : Cfg} {oldReal : Nat} (hb : Begun P f s c₀ oldReal)
    (hl : Ledger ⟨[], [], s⟩) : c₀.vfs.contents g = s.contents g :=
  Path.contents_kept hb.path hl (Cfg.spares_of_nil hb.broken)

theorem Begun.intact {P : Permit} {c₀ : Cfg} {oldReal : Nat} (hb : Begun P f s c₀ oldReal)
    (hl : Ledger ⟨[], [], s⟩) (h : s.Intact) : c₀.vfs.Intact := by
  have hc := Path.intactBut hb.path hl (intactBut_nil.mpr h)
  rw [hb.broken] at hc
  exact intactBut_nil.mp hc

/-- The chunks of the new refs are those the view has. -/
theorem Sees.chunkAt {p : Plan} {c₀ c : Cfg} {base refs : List ChunkRef} {retired : List ChunkId}
    {content : Nat → Option Chunk} (h : Sees p f c₀ base c refs retired content) {k : Nat}
    (hk : k < refs.length) : c.vfs.chunkAt f refs k = content k := by
  obtain ⟨pts, hview, rfl⟩ := h
  have hr : refs[k]? = some refs[k] := List.getElem?_eq_getElem hk
  unfold Vfs.chunkAt
  rw [hr]
  exact hview.opens_eq hr

/-- The calls' starting point, seen through the view. -/
theorem contentAt_start {c₀ : Cfg} {base : List ChunkRef} :
    (contentAt f c₀ base fun _ => none) = c₀.vfs.chunkAt f base := rfl

theorem chunkAt_ne_none {i : Inode} (h : s.Intact) (hi : s.tree.inodes.get? f = some i) {k : Nat}
    (hk : k < i.chunks.length) : s.chunkAt f i.chunks k ≠ none := by
  have hr : i.chunks[k]? = some i.chunks[k] := List.getElem?_eq_getElem hk
  unfold Vfs.chunkAt
  rw [hr]
  exact h f i k _ hi hr

theorem chunkAt_none {chunks : List ChunkRef} {k : Nat} (hk : chunks.length ≤ k) :
    s.chunkAt f chunks k = none := by
  unfold Vfs.chunkAt
  rw [List.getElem?_eq_none hk]
  rfl

/-- What a call leaves of all files, given the bytes of its own. -/
theorem contents_final {p : Plan} {c₀ c : Cfg} {base refs : List ChunkRef}
    {retired : List ChunkId} {content : Nat → Option Chunk} {i : Inode} {oldReal newReal : Nat}
    {freed : List ChunkId} {bs : List UInt8} (hl : Ledger ⟨[], [], s⟩)
    (hb : Begun p.permit f s c₀ oldReal) (hi : c₀.vfs.tree.inodes.get? f = some i)
    (hk : i.kind = .file) (hsees : Sees p f c₀ base c refs retired content)
    (hlast : 0 < newReal → (newReal - 1 + headerLen s.hideSize) / chunkPlaintextSize < refs.length)
    (hbytes : fileBytes content s.hideSize 0 newReal = bs) :
    (c.vfs.replaced f refs newReal freed).contents =
      Function.update s.contents f (some bs) := by
  obtain ⟨pts, hview, hcontent⟩ := hsees
  have hpath := hview.path
  have hl₀ := hl.path hb.path
  funext g
  by_cases hgf : g = f
  · subst hgf
    obtain ⟨i', hi', hbare⟩ := (Path.frame hpath).inode hi
    have hhide : c.vfs.hideSize = s.hideSize :=
      (Path.frame hpath).hideSize.trans (Path.frame hb.path).hideSize
    rw [Function.update_self, contents_replaced hi' (Inode.bare_kind hbare ▸ hk), hhide, ← hbytes]
    congr 1
    exact fileBytes_congr hlast fun k hk => Sees.chunkAt ⟨pts, hview, hcontent⟩ hk
  · rw [Function.update_of_ne hgf, contents_replaced_of_ne hgf,
      Path.contents_kept hpath hl₀ (Path.spares hpath hl₀ hb.broken hgf), hb.contents hl]

/-- What the file had when the call began. -/
theorem Begun.contents_own {P : Permit} {c₀ : Cfg} {oldReal : Nat} {i : Inode}
    (hb : Begun P f s c₀ oldReal) (hl : Ledger ⟨[], [], s⟩)
    (hi : c₀.vfs.tree.inodes.get? f = some i) (hk : i.kind = .file) :
    s.contents f = some (fileBytes (c₀.vfs.chunkAt f i.chunks) s.hideSize 0 oldReal) := by
  rw [← hb.contents hl, contents_of_get? hi hk hb.sizeNow, (Path.frame hb.path).hideSize]

/-- The last byte is in a chunk of the file. -/
theorem last_lt_of_padded {n count : Nat} {hide padding : Bool} (hn : n + headerLen hide ≤ u64Max)
    (h : paddedChunkCount (requiredChunks n hide) padding = .ok count) (hpos : 0 < n) :
    (n - 1 + headerLen hide) / chunkPlaintextSize < count := by
  refine lt_of_lt_of_le ?_ (le_paddedChunkCount h)
  unfold requiredChunks
  rw [if_neg (by omega)]
  refine Nat.lt_succ_of_le (Nat.div_le_div_right ?_)
  unfold headerLen at hn ⊢
  cases hide with
  | false =>
      simp only [Bool.false_eq_true, if_false]
      omega
  | true =>
      simp only [if_true] at hn ⊢
      omega

/-- A size that the calls accept leaves room for the header. -/
theorem small_in_range {n : Nat} {hide : Bool} (h : n ≤ maxFileSize) :
    n + headerLen hide ≤ u64Max := by
  have hmax : maxFileSize + sizeHeaderLen ≤ u64Max := by decide
  have := @headerLen_le hide
  omega

theorem grown_in_range {n m : Nat} {hide : Bool} (hn : n + headerLen hide ≤ u64Max)
    (hm : m ≤ maxFileSize) : max n m + headerLen hide ≤ u64Max := by
  have := @small_in_range m hide hm
  omega

theorem written_contents {p : Plan} {offset : Nat} {buf : List UInt8} {c₀ : Cfg} {oldReal : Nat}
    {i : Inode} {count : Nat} {c : Cfg} {refs : List ChunkRef} {retired : List ChunkId}
    (hl : Ledger ⟨[], [], s⟩) (h : s.Intact) (hold : oldReal + headerLen s.hideSize ≤ u64Max)
    (hw : Written p f s offset buf c₀ oldReal i count c refs retired s') :
    ∃ bs, s.contents f = some bs ∧
      s'.contents = Function.update s.contents f (some (overwrite bs offset buf)) := by
  refine ⟨_, hw.begun.contents_own hl hw.inode hw.file, ?_⟩
  have h₀ := hw.begun.intact hl h
  have hcap := grown_in_range hold hw.small
  rw [hw.final]
  refine contents_final hl hw.begun hw.inode hw.file hw.sees (fun hpos => ?_) ?_
  · rw [hw.length]
    exact (last_lt_of_padded hcap hw.count_eq hpos).trans_le (le_max_right _ _)
  · rw [contentAt_start]
    exact fileBytes_written (argsOf_fits hw.nonempty hw.small) rfl
      (lastOf_lt hw.nonempty hw.small hw.count_eq) (fun k hk => chunkAt_ne_none h₀ hw.inode hk)
      fun k hk => chunkAt_none hk

theorem truncated_contents {p : Plan} {newSize : Nat} {c₀ : Cfg} {oldReal : Nat} {i : Inode}
    {count : Nat} {c : Cfg} {refs : List ChunkRef} {retired : List ChunkId}
    (hl : Ledger ⟨[], [], s⟩)
    (hw : Truncated p f s newSize c₀ oldReal i count c refs retired s') :
    ∃ bs, s.contents f = some bs ∧
      s'.contents = Function.update s.contents f (some (resize bs newSize)) := by
  refine ⟨_, hw.begun.contents_own hl hw.inode hw.file, ?_⟩
  have hlast := fun hpos => last_lt_of_padded (small_in_range hw.small) hw.count_eq hpos
  rw [hw.final]
  refine contents_final hl hw.begun hw.inode hw.file hw.sees (fun hpos => ?_) ?_
  · rw [hw.length]
    exact hlast hpos
  · rw [contentAt_start]
    refine fileBytes_truncated hlast (fun k hk => ?_) fun k hk hcount => ?_
    · -- a chunk that is kept
      unfold Vfs.chunkAt
      rw [List.length_take] at hk
      rw [List.getElem?_take, if_pos (by omega)]
    · rw [List.length_take] at hk
      exact chunkAt_none (by omega)

end Vfs

/-! ## Edits of the namespace -/

/-- A file without data is empty. -/
theorem Vfs.inodeSize_new {s : Vfs} {g : FileId} {i : Inode} (h : i.data.IsNew) :
    s.inodeSize g i = some 0 := by
  unfold Vfs.inodeSize
  by_cases hk : i.kind ≠ .file
  · rw [if_pos hk]
  rw [if_neg hk]
  split
  · exact congrArg some (h.size (not_not.mp hk))
  · have hcache : i.cachedRealSize = none := h.cachedRealSize
    have hchunks : i.chunks = [] := h.chunks
    rw [hcache]
    unfold Vfs.headerSize
    rw [hchunks]
    rfl

namespace DataEdit

variable {s s' : Vfs} {g : FileId}

/-- The data of an inode decides its size. -/
theorem sizeOf_of_data (hd : DataEdit s s')
    (h : (s'.tree.inodes.get? g).map Inode.data = (s.tree.inodes.get? g).map Inode.data) :
    s'.sizeOf g = s.sizeOf g := by
  have hcontainer : s'.container = s.container := by rw [hd.rest]
  have hhide : s'.hideSize = s.hideSize := by
    unfold Vfs.hideSize
    rw [hcontainer]
  unfold Vfs.sizeOf
  cases hi : s.tree.inodes.get? g with
  | none =>
      rw [hi] at h
      rw [Option.map_eq_none_iff.mp h]
      rfl
  | some i =>
      rw [hi] at h
      obtain ⟨i', hi', hdata⟩ := Option.map_eq_some_iff.mp h
      have hkind : i'.kind = i.kind := congrArg FileData.kind hdata
      have hfixed : i'.size = i.size := congrArg FileData.size hdata
      have hcache : i'.cachedRealSize = i.cachedRealSize := congrArg FileData.cachedRealSize hdata
      have hheader : s'.headerSize g i' = s.headerSize g i := by
        refine Vfs.headerSize_congr (congrArg FileData.chunks hdata) (by rw [hcontainer])
          fun _ _ => ?_
        rw [hcontainer]
      rw [hi', Option.bind_some, Option.bind_some]
      unfold Vfs.inodeSize
      rw [hkind, hhide, hfixed, hcache, hheader]

/-- And its file's contents. -/
theorem contents_of_data (hd : DataEdit s s')
    (h : (s'.tree.inodes.get? g).map Inode.data = (s.tree.inodes.get? g).map Inode.data) :
    s'.contents g = s.contents g := by
  have hcontainer : s'.container = s.container := by rw [hd.rest]
  have hsize := hd.sizeOf_of_data h
  cases hi : s.tree.inodes.get? g with
  | none =>
      rw [hi] at h
      rw [Vfs.contents_none hi, Vfs.contents_none (Option.map_eq_none_iff.mp h)]
  | some i =>
      rw [hi] at h
      obtain ⟨i', hi', hdata⟩ := Option.map_eq_some_iff.mp h
      have hhide : s'.hideSize = s.hideSize := by
        unfold Vfs.hideSize
        rw [hcontainer]
      refine Vfs.contents_congr hi hi' (congrArg FileData.kind hdata)
        (congrArg FileData.chunks hdata) hsize hhide (by rw [hcontainer]) fun _ _ => ?_
      rw [hcontainer]

/-- An inode of the new state has the data it had, or none yet. -/
theorem data_cases (hd : DataEdit s s') {i' : Inode} (hi' : s'.tree.inodes.get? g = some i') :
    (s'.tree.inodes.get? g).map Inode.data = (s.tree.inodes.get? g).map Inode.data ∨
      (g = s.tree.nextFileId ∧ s.tree.inodes.get? g = none ∧ i'.data.IsNew) := by
  have hget : (s'.tree.inodes.mapVals Inode.data).get? g = some i'.data := by
    rw [OrdMap.get?_mapVals, hi']
    rfl
  rw [← OrdMap.get?_mapVals, ← OrdMap.get?_mapVals]
  cases hd.change with
  | keep inodes pending => exact .inl (by rw [inodes])
  | enter d fresh new inodes pending =>
      rw [inodes, OrdMap.get?_insert] at hget ⊢
      split at hget
      · next hg =>
          injection hget with hget
          exact .inr ⟨hg, hg ▸ fresh, hget ▸ new⟩
      · next hg =>
          rw [if_neg hg]
          exact .inl rfl
  | drop id old hold inodes pending =>
      rw [inodes, OrdMap.get?_erase] at hget ⊢
      split at hget
      · cases hget
      · next hg =>
          rw [if_neg hg]
          exact .inl rfl

/-- No file is touched: one that is still there is as it was. -/
theorem contents_kept (hd : DataEdit s s') {i i' : Inode} (hi : s.tree.inodes.get? g = some i)
    (hi' : s'.tree.inodes.get? g = some i') : s'.contents g = s.contents g := by
  rcases hd.data_cases hi' with hdata | ⟨-, hnone, -⟩
  · exact hd.contents_of_data hdata
  · rw [hi] at hnone
    cases hnone

end DataEdit

end Luksbox
