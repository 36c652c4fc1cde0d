import Luksbox.Proofs.FlushPath

/-!
# Sizes along a path

The length of a file is in its inode or in the header of its first chunk. A
path that overwrites no chunk leaves it alone: the slots of data chunks are
guarded, and the only thing a step writes into the inode that matters here is
the size itself, once it has been looked up.
-/

namespace Luksbox

open Lib Relation

/-- An inode without its list blocks, which have no say in its size. -/
def Inode.sized (i : Inode) : Inode := { i with externalListBlocks := [] }

namespace Vfs

variable {s s' : Vfs} {g : FileId}

theorem headerSize_congr {i i' : Inode} (hc : i'.chunks = i.chunks)
    (hkey : s'.container.fileKey g = s.container.fileKey g)
    (hslots : ∀ x ∈ i.dataIds, s'.container.slots x = s.container.slots x) :
    s'.headerSize g i' = s.headerSize g i := by
  unfold headerSize
  rw [hc]
  cases hchunks : i.chunks with
  | nil => rfl
  | cons chunk0 rest =>
      have hmem : chunk0.id ∈ i.dataIds := by
        unfold Inode.dataIds
        rw [hchunks]
        exact List.mem_cons_self
      simp only [opens]
      rw [hkey, hslots _ hmem]

theorem sizeOf_congr
    (hi : (s'.tree.inodes.get? g).map Inode.sized = (s.tree.inodes.get? g).map Inode.sized)
    (hhide : s'.hideSize = s.hideSize) (hkey : s'.container.fileKey g = s.container.fileKey g)
    (hslots : ∀ i, s.tree.inodes.get? g = some i → ∀ x ∈ i.dataIds,
      s'.container.slots x = s.container.slots x) : s'.sizeOf g = s.sizeOf g := by
  unfold sizeOf
  cases hg : s.tree.inodes.get? g with
  | none =>
      rw [hg] at hi
      rw [Option.map_eq_none_iff.mp hi]
      rfl
  | some i =>
      rw [hg] at hi
      obtain ⟨i', hi', hsized⟩ := Option.map_eq_some_iff.mp hi
      rw [hi']
      show s'.inodeSize g i' = s.inodeSize g i
      have hkind : i'.kind = i.kind := by
        show i'.sized.kind = i.sized.kind
        rw [hsized]
      have hsize : i'.size = i.size := by
        show i'.sized.size = i.sized.size
        rw [hsized]
      have hcache : i'.cachedRealSize = i.cachedRealSize := by
        show i'.sized.cachedRealSize = i.sized.cachedRealSize
        rw [hsized]
      have hchunks : i'.chunks = i.chunks := by
        show i'.sized.chunks = i.sized.chunks
        rw [hsized]
      unfold inodeSize
      rw [hkind, hhide, hsize, hcache, headerSize_congr hchunks hkey (hslots i hg)]

/-- Having looked the size up does not change it. -/
theorem sizeOf_cached {f : FileId} {n : Nat} (h : s.sizeOf f = some n) :
    (s.mapInode f fun i => { i with cachedRealSize := some n }).sizeOf f = some n := by
  unfold sizeOf at h
  obtain ⟨i, hi, hn⟩ := Option.bind_eq_some_iff.mp h
  have hget : (s.mapInode f fun i => { i with cachedRealSize := some n }).tree.inodes.get? f =
      some { i with cachedRealSize := some n } := by
    show (s.tree.inodes.adjust f _).get? f = _
    rw [OrdMap.adjust_eq_insert hi, OrdMap.get?_insert_self]
  unfold sizeOf
  rw [hget]
  unfold inodeSize at hn
  show (s.mapInode f _).inodeSize f { i with cachedRealSize := some n } = some n
  unfold inodeSize
  simp only
  split
  · next hk =>
      rw [if_pos hk] at hn
      exact hn
  · next hk =>
      rw [if_neg hk] at hn
      have hhide : (s.mapInode f fun i => { i with cachedRealSize := some n }).hideSize =
        s.hideSize := rfl
      rw [hhide]
      split
      · next hh =>
          rw [if_pos hh] at hn
          exact hn
      · rfl

theorem sized_of_mapVals
    (h : s'.tree.inodes.mapVals Inode.sized = s.tree.inodes.mapVals Inode.sized) :
    (s'.tree.inodes.get? g).map Inode.sized = (s.tree.inodes.get? g).map Inode.sized := by
  rw [← OrdMap.get?_mapVals, ← OrdMap.get?_mapVals, h]

end Vfs

/-- Every step but the lookup of a size keeps the inodes up to their list blocks. -/
theorem Micro.sized {P : Permit} {f : FileId} {c c' : Cfg} (h : Micro P f c c') :
    c'.vfs.tree.inodes.mapVals Inode.sized = c.vfs.tree.inodes.mapVals Inode.sized ∨
      ∃ n, c.vfs.sizeOf f = some n ∧
        c'.vfs = c.vfs.mapInode f fun i => { i with cachedRealSize := some n } := by
  cases h with
  | env e => exact Or.inl rfl
  | sealed x => exact Or.inl rfl
  | gen hg => exact Or.inl rfl
  | @take L B s id t ht =>
      left
      show t.inodes.mapVals _ = _
      rcases allocChunkId_cases ht with ⟨-, ht⟩ | ⟨-, -, -, ht⟩
      · rw [ht]
      · rw [ht]
  | store off slot written hid => exact Or.inl rfl
  | inPlace off slot written hi hid hp => exact Or.inl rfl
  | give ids hids => exact Or.inl rfl
  | cache n hsize => exact Or.inr ⟨n, hsize, rfl⟩
  | drain hi => exact Or.inl (OrdMap.mapVals_adjust_of_eq fun _ _ => rfl)
  | chain refs hi hnone hids => exact Or.inl (OrdMap.mapVals_adjust_of_eq fun _ _ => rfl)
  | floor => exact Or.inl rfl
  | upgradeHeader =>
      left
      unfold Vfs.upgradeHeader
      split <;> rfl
  | upgradeToV4 =>
      left
      unfold Vfs.upgradeToV4
      split <;> rfl
  | publish hb hl => exact Or.inl (by rw [hl.published.tree])

/-- A slot of a data chunk is in no other place. -/
theorem Ledger.not_flight {c : Cfg} (h : Ledger c) {g : FileId} {i : Inode}
    (hi : c.vfs.tree.inodes.get? g = some i) {x : ChunkId} (hx : x ∈ i.dataIds) :
    Guarded c.vfs x ∧ x ∉ c.flight := by
  have hpos : 0 < c.vfs.tree.inodes.tally Inode.dataIds x := by
    rw [OrdMap.tally_of_get? hi]
    have := List.count_pos_iff.mpr hx
    omega
  refine ⟨h.guarded (Or.inr hpos), ?_⟩
  have hone := h.once x
  unfold Cfg.held at hone
  rw [refIds_tally] at hone
  rw [← List.count_eq_zero]
  omega

theorem Micro.sizeOf {P : Permit} (hP : ∀ id, ¬ P.inPlace id) {f g : FileId} {c c' : Cfg}
    (hl : Ledger c) (h : Micro P f c c') : c'.vfs.sizeOf g = c.vfs.sizeOf g := by
  have hslots : ∀ i, c.vfs.tree.inodes.get? g = some i → ∀ x ∈ i.dataIds,
      c'.vfs.container.slots x = c.vfs.container.slots x := by
    intro i hi x hx
    obtain ⟨hg, hno⟩ := hl.not_flight hi hx
    exact (hg.micro hP h hno).2.2
  rcases h.sized with hsized | ⟨n, hn, hv⟩
  · exact Vfs.sizeOf_congr (Vfs.sized_of_mapVals hsized) h.frame.hideSize h.frame.fileKey hslots
  · by_cases hgf : g = f
    · rw [hgf, hn, hv]
      exact Vfs.sizeOf_cached hn
    · refine Vfs.sizeOf_congr ?_ h.frame.hideSize h.frame.fileKey hslots
      rw [hv]
      show ((c.vfs.tree.inodes.adjust f _).get? g).map _ = _
      rw [OrdMap.get?_adjust, if_neg hgf]

theorem Path.sizeOf {P : Permit} (hP : ∀ id, ¬ P.inPlace id) {f g : FileId} {c c' : Cfg}
    (hl : Ledger c) (h : Path P f c c') : c'.vfs.sizeOf g = c.vfs.sizeOf g := by
  induction h with
  | refl => rfl
  | tail hp hs ih => exact (Micro.sizeOf hP (hl.path hp) hs).trans ih

/-- A flush changes no size. -/
theorem Vfs.flush_sizeOf {s : Vfs} (hl : Ledger ⟨[], [], s⟩) {g : FileId} :
    wp flush (fun _ s' => s'.sizeOf g = s.sizeOf g) (fun _ s' => s'.sizeOf g = s.sizeOf g) s := by
  have hruns := @Vfs.flush_runs ⟨fun _ => False, True⟩ 0 ⟨[], [], s⟩ fun _ => Or.inl rfl
  exact wp_of_runs hruns (fun _ _ hp _ => Path.sizeOf (fun _ => id) hl hp)
    fun _ _ hp _ => Path.sizeOf (fun _ => id) hl hp

end Luksbox
