import Luksbox.Proofs.Micro
import Luksbox.Proofs.NamespaceRuns
import Luksbox.Proofs.Walk

/-!
# The metadata pre-flight

Before `write` and `truncate` take a slot they ask whether the metadata would
still fit its region. The answer is an estimate: it serialises rows of the LBM3
shape, with `(0, 1)` for every chunk ref that does not exist yet, the free list
without the slots waiting in `pending_free`, and adds a constant.

What the next flush writes can be told exactly from the state before. The
allocator hands out the free slots from the end of its list and then the slots
past the end, so the refs of the new chunks and of the list blocks are known;
so is which chains are rewritten, and with it the slots these release. The
file here computes the length of that payload, compares it part by part with
the estimate, and shows that the pre-flight can be trusted exactly when what it
leaves out fits in its slack and the room behind it.
-/

namespace Luksbox

open Lib

/-! ## What the allocator hands out -/

namespace DirectoryTree

/-- The slot of the `k`-th allocation from here. -/
def slotAt (t : DirectoryTree) (k : Nat) : ChunkId :=
  (t.freeChunks.reverse[k]?).getD (t.nextChunkId + (k - t.freeChunks.length))

/-- The ref of the `k`-th allocation of a slot and a generation. -/
def refAt (t : DirectoryTree) (k : Nat) : ChunkRef := ⟨t.slotAt k, t.nextChunkGen + k⟩

def refsFrom (t : DirectoryTree) (k n : Nat) : List ChunkRef := (List.range' k n).map t.refAt

/-- The tree once `k` slots and generations have been taken. -/
def taken (t : DirectoryTree) (k : Nat) : DirectoryTree :=
  { t with
    freeChunks := t.freeChunks.take (t.freeChunks.length - k)
    nextChunkId := t.nextChunkId + (k - t.freeChunks.length)
    nextChunkGen := t.nextChunkGen + k }

theorem taken_zero {t : DirectoryTree} : t.taken 0 = t := by
  unfold taken
  simp

theorem taken_taken {t : DirectoryTree} {j k : Nat} : (t.taken j).taken k = t.taken (j + k) := by
  unfold taken
  simp only [List.length_take, List.take_take, mk.injEq, true_and, and_true]
  have hpast : j - t.freeChunks.length + (k - min (t.freeChunks.length - j) t.freeChunks.length) =
      j + k - t.freeChunks.length := by omega
  refine ⟨?_, Nat.add_assoc _ _ _, ?_⟩
  · rw [Nat.add_assoc, hpast]
  · congr 1
    omega

theorem slotAt_taken {t : DirectoryTree} {j k : Nat} : (t.taken j).slotAt k = t.slotAt (j + k) := by
  unfold taken slotAt
  simp only [List.reverse_take, List.length_take, List.getElem?_drop]
  by_cases hj : j ≤ t.freeChunks.length
  · have hlen : t.freeChunks.length - (t.freeChunks.length - j) + k = j + k := by omega
    have hpast : j - t.freeChunks.length +
        (k - min (t.freeChunks.length - j) t.freeChunks.length) =
        j + k - t.freeChunks.length := by omega
    rw [hlen, Nat.add_assoc, hpast]
  · have hlen : t.freeChunks.reverse.length = t.freeChunks.length := List.length_reverse
    rw [List.getElem?_eq_none (by omega), List.getElem?_eq_none (by omega)]
    have hpast : j - t.freeChunks.length +
        (k - min (t.freeChunks.length - j) t.freeChunks.length) =
        j + k - t.freeChunks.length := by omega
    rw [Option.getD_none, Option.getD_none, Nat.add_assoc, hpast]

theorem refAt_taken {t : DirectoryTree} {j k : Nat} : (t.taken j).refAt k = t.refAt (j + k) := by
  unfold refAt
  rw [slotAt_taken]
  show (⟨_, t.nextChunkGen + j + k⟩ : ChunkRef) = _
  rw [Nat.add_assoc]

theorem refsFrom_taken {t : DirectoryTree} {j k n : Nat} :
    (t.taken j).refsFrom k n = t.refsFrom (j + k) n := by
  unfold refsFrom
  rw [← List.map_add_range', List.map_map]
  exact List.map_congr_left fun i _ => refAt_taken

theorem refsFrom_succ {t : DirectoryTree} {k n : Nat} :
    t.refsFrom k (n + 1) = t.refAt k :: t.refsFrom (k + 1) n := rfl

/-- One slot and one generation. -/
theorem taken_one {t t₁ t₂ : DirectoryTree} {id g : Nat} (hid : t.allocChunkId = some (id, t₁))
    (hgen : t₁.allocChunkGen = some (g, t₂)) : (⟨id, g⟩ : ChunkRef) = t.refAt 0 ∧ t₂ = t.taken 1 := by
  unfold allocChunkGen at hgen
  split at hgen
  · cases hgen
  simp only [Option.some.injEq, Prod.mk.injEq] at hgen
  obtain ⟨rfl, rfl⟩ := hgen
  unfold allocChunkId at hid
  split at hid
  next last hlast =>
    simp only [Option.some.injEq, Prod.mk.injEq] at hid
    obtain ⟨rfl, rfl⟩ := hid
    obtain ⟨init, hfree⟩ := List.getLast?_eq_some_iff.mp hlast
    unfold refAt slotAt taken
    rw [hfree]
    simp
  next hnone =>
    split at hid
    · cases hid
    simp only [Option.some.injEq, Prod.mk.injEq] at hid
    obtain ⟨rfl, rfl⟩ := hid
    unfold refAt slotAt taken
    rw [List.getLast?_eq_none_iff.mp hnone]
    simp

end DirectoryTree

namespace Vfs

/-! ## Growing a file, and the metadata of the next flush -/

/-- Give file `id` that many newly allocated chunks, as `write` and `truncate`
leave the inode. -/
def addChunks (id : FileId) (count newReal : Nat) : VfsM Unit := do
  let inode ← inodeOr .panic id
  let s ← get
  let new ← allocBlockRefs count []
  commitInode id (inode.chunks ++ new) newReal s.hideSize []

/-- `flush` up to the metadata it is going to write. -/
def metadataToCommit : VfsM Metadata := do
  modify fun s => { s with cowFloorGen := s.tree.nextChunkGen }
  let s ← get
  fromExcept (validateMetadataTree s.tree s.dataOffset s.hideSize)
  let _ ← allocChunkGen
  modify upgradeHeader
  modify upgradeToV4
  encodeMetadata

theorem commitMetadata_eq : commitMetadata = metadataToCommit >>= publishMetadata := by
  unfold commitMetadata metadataToCommit
  simp only [bind_assoc]

/-- The file's inode once it has the new chunks. -/
def grownInode (s : Vfs) (count newReal : Nat) (i : Inode) : Inode :=
  { i with
    chunks := i.chunks ++ s.tree.refsFrom 0 count
    size := if s.hideSize then (i.chunks.length + count) * chunkPlaintextSize else newReal
    cachedRealSize := if s.hideSize then some newReal else i.cachedRealSize
    mtimeNs := s.container.env.nowNs }

def grown (s : Vfs) (id : FileId) (count newReal : Nat) : Vfs :=
  { s with
    tree := { s.tree.taken count with
      inodes := s.tree.inodes.adjust id (s.grownInode count newReal) }
    dirty := true
    chunksDirty := insert id s.chunksDirty }

/-- What a flush has made of the state when it starts to serialise. -/
def flushing (s : Vfs) : Vfs :=
  upgradeToV4 (upgradeHeader { s with
    cowFloorGen := s.tree.nextChunkGen
    tree := { s.tree with nextChunkGen := s.tree.nextChunkGen + 1 } })

theorem allocBlockRefs_exact {n : Nat} {refs : List ChunkRef} {s : Vfs} :
    wp (allocBlockRefs n refs)
      (fun out s' => out = refs ++ s.tree.refsFrom 0 n ∧ s' = { s with tree := s.tree.taken n })
      (fun _ _ => True) s := by
  induction n generalizing refs s with
  | zero =>
      refine ⟨(List.append_nil refs).symm, ?_⟩
      rw [DirectoryTree.taken_zero]
  | succ n ih =>
      unfold allocBlockRefs
      rw [wp_bind]
      refine wp_alloc.mpr ⟨fun id t₁ hid => ?_, fun _ => trivial⟩
      rw [wp_bind]
      refine wp_alloc.mpr ⟨fun g t₂ hgen => ?_, fun _ => trivial⟩
      obtain ⟨href, rfl⟩ := DirectoryTree.taken_one hid hgen
      refine wp_mono ih ?_ fun _ _ _ => trivial
      rintro out s' ⟨rfl, rfl⟩
      refine ⟨?_, ?_⟩
      · rw [href, List.append_assoc, DirectoryTree.refsFrom_succ]
        simp only
        rw [DirectoryTree.refsFrom_taken]
        rfl
      · simp only
        rw [DirectoryTree.taken_taken, Nat.add_comm]

theorem addChunks_exact {id : FileId} {count newReal : Nat} {s : Vfs} :
    wp (addChunks id count newReal) (fun _ s' => s' = s.grown id count newReal)
      (fun _ _ => True) s := by
  unfold addChunks
  rw [wp_bind]
  refine wp_inodeOr.mpr ⟨fun i hi => ?_, fun _ => trivial⟩
  rw [wp_bind, wp_get, wp_bind]
  refine wp_mono allocBlockRefs_exact ?_ fun _ _ _ => trivial
  rintro new s₁ ⟨rfl, rfl⟩
  unfold commitInode
  rw [wp_bind, wp_fromExcept]
  refine ⟨fun size hsize => ?_, fun _ _ => trivial⟩
  rw [wp_bind, wp_nowNs, wp_bind]
  refine wp_updateInode.mpr ⟨fun _ _ => ?_, fun _ => trivial⟩
  rw [wp_modify]
  have hlen : ([] ++ s.tree.refsFrom 0 count).length = count := by
    simp [DirectoryTree.refsFrom]
  have hgrown : (if s.hideSize then (i.chunks.length + count) * chunkPlaintextSize else newReal) =
      size := by
    cases hhide : s.hideSize with
    | false =>
        rw [hhide] at hsize
        injection hsize
    | true =>
        rw [hhide] at hsize
        rw [if_pos rfl, List.length_append, hlen] at hsize
        unfold mulU at hsize
        by_cases hmax : (i.chunks.length + count) * chunkPlaintextSize > u64Max
        · rw [if_pos hmax] at hsize
          cases hsize
        · rw [if_neg hmax] at hsize
          injection hsize
  unfold grown mapInode
  simp only [List.append_nil]
  congr 2
  show s.tree.inodes.adjust id _ = s.tree.inodes.adjust id _
  rw [OrdMap.adjust_eq_insert hi, OrdMap.adjust_eq_insert hi]
  unfold grownInode
  rw [hgrown]
  rfl

/-! ## What spilling does to the counters -/

/-- Whether the flush gives up the inode's list blocks. -/
def dropsChain (s : Vfs) (x : FileId) (i : Inode) : Bool :=
  decide (s.format ≠ .v2) && (reusableChain s x i (i.needsExternal s.format)).isNone

/-- List blocks the flush allocates for the inode. -/
def newBlocks (s : Vfs) (x : FileId) (i : Inode) : Nat :=
  if s.dropsChain x i ∧ i.needsExternal s.format then
    (i.chunks.length + chunkListEntriesPerBlock - 1) / chunkListEntriesPerBlock
  else 0

/-- Slots of the list blocks the flush releases. -/
def releasedBlocks (s : Vfs) (x : FileId) (i : Inode) : List ChunkId :=
  if s.dropsChain x i then i.externalListBlocks.map ChunkRef.id else []

/-- The row of the inode, if `k` allocations come before its own. -/
def spilledRow (s : Vfs) (k : Nat) (x : FileId) (i : Inode) : InodeV3OnDisk :=
  if i.needsExternal s.format then
    i.toV3OnDisk [] (some ((reusableChain s x i true).getD (s.tree.refAt k), i.chunks.length))
  else i.toV3OnDisk i.chunks none

def spilledRows (s : Vfs) : Nat → List (FileId × Inode) → List (FileId × InodeV3OnDisk)
  | _, [] => []
  | k, (x, i) :: rest => (x, s.spilledRow k x i) :: s.spilledRows (k + s.newBlocks x i) rest

def blocksOf (s : Vfs) (l : List (FileId × Inode)) : Nat :=
  (l.map fun p => s.newBlocks p.1 p.2).sum

def releasedOf (s : Vfs) (l : List (FileId × Inode)) : List ChunkId :=
  l.flatMap fun p => s.releasedBlocks p.1 p.2

end Vfs

/-- An inode without its list blocks, the only field spilling changes. -/
def Inode.unlisted (i : Inode) : Inode := { i with externalListBlocks := [] }

/-- From `s`, spilling has taken `k` slots and generations and released `r`. -/
structure SpilledBy (s s' : Vfs) (k : Nat) (r : List ChunkId) : Prop where
  tree : s'.tree = { s.tree.taken k with inodes := s'.tree.inodes }
  inodes : s'.tree.inodes.mapVals Inode.unlisted = s.tree.inodes.mapVals Inode.unlisted
  pending : s'.pendingFree = s.pendingFree ++ r
  format : s'.format = s.format
  chunksDirty : s'.chunksDirty = s.chunksDirty
  maxVaultSize : s'.maxVaultSize = s.maxVaultSize

namespace SpilledBy

variable {s s₁ s₂ : Vfs} {k k' : Nat} {r r' : List ChunkId}

theorem refl : SpilledBy s s 0 [] := by
  refine ⟨?_, rfl, (List.append_nil _).symm, rfl, rfl, rfl⟩
  rw [DirectoryTree.taken_zero]

theorem refAt (h : SpilledBy s s₁ k r) {j : Nat} : s₁.tree.refAt j = s.tree.refAt (k + j) := by
  rw [← DirectoryTree.refAt_taken, h.tree]
  rfl

theorem trans (h : SpilledBy s s₁ k r) (h' : SpilledBy s₁ s₂ k' r') :
    SpilledBy s s₂ (k + k') (r ++ r') where
  tree := by
    have htaken : s₁.tree.taken k' =
        { s.tree.taken (k + k') with inodes := s₁.tree.inodes } := by
      rw [← DirectoryTree.taken_taken, h.tree]
      rfl
    rw [h'.tree, htaken]
  inodes := h'.inodes.trans h.inodes
  pending := by rw [h'.pending, h.pending, List.append_assoc]
  format := h'.format.trans h.format
  chunksDirty := h'.chunksDirty.trans h.chunksDirty
  maxVaultSize := h'.maxVaultSize.trans h.maxVaultSize

theorem reusableChain (h : SpilledBy s s₁ k r) {x : FileId} {i : Inode} {needs : Bool} :
    Vfs.reusableChain s₁ x i needs = Vfs.reusableChain s x i needs := by
  unfold Vfs.reusableChain
  rw [h.chunksDirty]

theorem dropsChain (h : SpilledBy s s₁ k r) {x : FileId} {i : Inode} :
    s₁.dropsChain x i = s.dropsChain x i := by
  unfold Vfs.dropsChain
  rw [h.reusableChain, h.format]

theorem newBlocks (h : SpilledBy s s₁ k r) {x : FileId} {i : Inode} :
    s₁.newBlocks x i = s.newBlocks x i := by
  unfold Vfs.newBlocks
  rw [h.dropsChain, h.format]

theorem releasedBlocks (h : SpilledBy s s₁ k r) {x : FileId} {i : Inode} :
    s₁.releasedBlocks x i = s.releasedBlocks x i := by
  unfold Vfs.releasedBlocks
  rw [h.dropsChain]

theorem spilledRow (h : SpilledBy s s₁ k r) {x : FileId} {i : Inode} :
    s₁.spilledRow 0 x i = s.spilledRow k x i := by
  unfold Vfs.spilledRow
  rw [h.reusableChain, h.format, h.refAt, Nat.add_zero]

end SpilledBy

namespace Vfs

variable {s : Vfs}

theorem writeListBlocks_exact {fileId : FileId} {entries : List ChunkRef} {idx : Nat}
    {blocks : List ChunkRef} :
    wp (writeListBlocks fileId entries idx blocks)
      (fun _ s' => ∃ c, s' = { s with container := c }) (fun _ _ => True) s := by
  induction blocks generalizing idx s with
  | nil => exact ⟨s.container, rfl⟩
  | cons block rest ih =>
      unfold writeListBlocks
      rw [wp_bind, wp_fromExcept]
      refine ⟨fun packed _ => ?_, fun _ _ => trivial⟩
      rw [wp_bind, wp_onContainer]
      refine wp_intro (fun _ c _ => ?_) fun _ _ _ => trivial
      refine wp_mono ih ?_ fun _ _ _ => trivial
      rintro - s' ⟨c', rfl⟩
      exact ⟨c', rfl⟩

theorem writeExternalChainFor_exact {fileId : FileId} {entries : List ChunkRef}
    (hne : 0 < entries.length) :
    wp (writeExternalChainFor fileId entries)
      (fun r s' => r.1 = s.tree.refAt 0 ∧ r.2.1 = entries.length ∧ ∃ c, s' = { s with
        tree := s.tree.taken
          ((entries.length + chunkListEntriesPerBlock - 1) / chunkListEntriesPerBlock)
        container := c })
      (fun _ _ => True) s := by
  unfold writeExternalChainFor
  simp only
  rw [wp_bind]
  refine wp_mono allocBlockRefs_exact ?_ fun _ _ _ => trivial
  rintro blocks s₁ ⟨rfl, rfl⟩
  rw [wp_bind]
  refine wp_mono writeListBlocks_exact ?_ fun _ _ _ => trivial
  rintro - s₂ ⟨c, rfl⟩
  rw [wp_bind, wp_fromExcept]
  refine ⟨fun head hhead => ?_, fun _ _ => trivial⟩
  have hcount : 0 < (entries.length + chunkListEntriesPerBlock - 1) / chunkListEntriesPerBlock := by
    unfold chunkListEntriesPerBlock
    omega
  refine ⟨?_, rfl, c, rfl⟩
  obtain ⟨n, hn⟩ : ∃ n, (entries.length + chunkListEntriesPerBlock - 1) /
      chunkListEntriesPerBlock = n + 1 := ⟨_, (Nat.succ_pred_eq_of_pos hcount).symm⟩
  rw [hn, DirectoryTree.refsFrom_succ] at hhead
  have hfirst : (.ok (s.tree.refAt 0) : Except Failure ChunkRef) = .ok head := hhead
  injection hfirst with hfirst
  exact hfirst.symm

theorem drainExternals_exact {x : FileId} {i : Inode} (hi : s.tree.inodes.get? x = some i) :
    wp (drainExternals x)
      (fun _ s' => s' = { s with
        tree := { s.tree with inodes := s.tree.inodes.adjust x Inode.unlisted }
        pendingFree := s.pendingFree ++ i.externalListBlocks.map ChunkRef.id })
      (fun _ _ => True) s := by
  unfold drainExternals
  rw [wp_bind]
  refine wp_inodeOr.mpr ⟨fun j hj => ?_, fun _ => trivial⟩
  rw [hi] at hj
  injection hj with hj
  subst hj
  rw [wp_bind]
  refine wp_updateInode.mpr ⟨fun _ _ => ?_, fun _ => trivial⟩
  rfl

/-- One inode spilled. -/
theorem spillInode_exact {x : FileId} {i : Inode} (hi : s.tree.inodes.get? x = some i)
    (hf : s.format ≠ .v2) :
    wp (spillInode x)
      (fun od s' => od = s.spilledRow 0 x i ∧
        SpilledBy s s' (s.newBlocks x i) (s.releasedBlocks x i) ∧
        ∀ y, y ≠ x → s'.tree.inodes.get? y = s.tree.inodes.get? y)
      (fun _ _ => True) s := by
  unfold spillInode
  rw [wp_bind, wp_get, wp_bind]
  refine wp_inodeOr.mpr ⟨fun j hj => ?_, fun _ => trivial⟩
  rw [hi] at hj
  injection hj with hj
  subst hj
  have hneeds : (decide (i.kind = .file) &&
      decide (i.chunks.length > s.format.inlineChunkThreshold)) = i.needsExternal s.format := rfl
  simp only [hneeds]
  have hdrops : s.dropsChain x i = (reusableChain s x i (i.needsExternal s.format)).isNone := by
    unfold dropsChain
    rw [decide_eq_true hf, Bool.true_and]
  cases hreuse : reusableChain s x i (i.needsExternal s.format) with
  | some head =>
      -- the chain is kept, so nothing is taken and nothing is released
      rw [hreuse] at hdrops
      have hneed : i.needsExternal s.format = true := by
        unfold reusableChain at hreuse
        split at hreuse
        next hcond => exact hcond.1
        next => cases hreuse
      refine ⟨?_, ?_, fun _ _ => rfl⟩
      · unfold spilledRow
        rw [if_pos hneed, ← hneed, hreuse]
        rfl
      · have hnew : s.newBlocks x i = 0 := by
          unfold newBlocks
          rw [hdrops]
          rfl
        have hreleased : s.releasedBlocks x i = [] := by
          unfold releasedBlocks
          rw [hdrops]
          rfl
        rw [hnew, hreleased]
        exact SpilledBy.refl
  | none =>
      rw [hreuse] at hdrops
      have hreleased : s.releasedBlocks x i = i.externalListBlocks.map ChunkRef.id := by
        unfold releasedBlocks
        rw [hdrops]
        rfl
      simp only
      rw [wp_bind]
      refine wp_mono (drainExternals_exact hi) ?_ fun _ _ _ => trivial
      rintro - s₁ rfl
      rw [wp_ite]
      refine ⟨fun hneed => ?_, fun hneed => ?_⟩
      · have hlen : 0 < i.chunks.length := by
          unfold Inode.needsExternal at hneed
          simp only [Bool.and_eq_true, decide_eq_true_eq] at hneed
          omega
        have hnew : s.newBlocks x i =
            (i.chunks.length + chunkListEntriesPerBlock - 1) / chunkListEntriesPerBlock := by
          unfold newBlocks
          rw [if_pos ⟨hdrops, hneed⟩]
        rw [wp_bind]
        refine wp_mono (writeExternalChainFor_exact hlen) ?_ fun _ _ _ => trivial
        rintro ⟨head, count, refs⟩ s₂ ⟨hhead, hcount, c, rfl⟩
        simp only at hhead hcount
        subst hhead hcount
        simp only
        rw [wp_bind]
        refine wp_updateInode.mpr ⟨fun _ _ => ?_, fun _ => trivial⟩
        rw [wp_pure]
        refine ⟨?_, ?_, fun y hy => ?_⟩
        · unfold spilledRow
          rw [if_pos hneed, ← hneed, hreuse]
          rfl
        · rw [hnew, hreleased]
          refine ⟨rfl, ?_, rfl, rfl, rfl, rfl⟩
          show ((s.tree.inodes.adjust x _).adjust x _).mapVals _ = _
          rw [OrdMap.adjust_adjust]
          exact OrdMap.mapVals_adjust_of_eq fun _ _ => rfl
        · show ((s.tree.inodes.adjust x _).adjust x _).get? y = _
          rw [OrdMap.get?_adjust_of_ne hy, OrdMap.get?_adjust_of_ne hy]
      · have hneed : i.needsExternal s.format = false := by simpa using hneed
        have hnew : s.newBlocks x i = 0 := by
          unfold newBlocks
          rw [if_neg (by rw [hneed]; simp)]
        rw [wp_pure]
        refine ⟨?_, ?_, fun y hy => ?_⟩
        · unfold spilledRow
          rw [if_neg (by rw [hneed]; simp)]
        · rw [hnew, hreleased]
          refine ⟨?_, OrdMap.mapVals_adjust_of_eq fun _ _ => rfl, rfl, rfl, rfl, rfl⟩
          simp only
          rw [DirectoryTree.taken_zero]
        · exact OrdMap.get?_adjust_of_ne hy

/-- The rows of `todo` come after the rows that are there. -/
theorem spillInodes_exact {s₀ : Vfs} (hf : s₀.format ≠ .v2) {todo : List (FileId × Inode)}
    {k : Nat} {r : List ChunkId} {onDisk : OrdMap FileId InodeV3OnDisk} (hs : SpilledBy s₀ s k r)
    (htodo : ∀ p ∈ todo, s.tree.inodes.get? p.1 = some p.2)
    (hsorted : todo.Pairwise fun p q => p.1 < q.1)
    (hpast : ∀ p ∈ onDisk.entries, ∀ q ∈ todo, p.1 < q.1) :
    wp (spillInodes (todo.map Prod.fst) onDisk)
      (fun onDisk' s' => onDisk'.entries = onDisk.entries ++ s₀.spilledRows k todo ∧
        SpilledBy s₀ s' (k + s₀.blocksOf todo) (r ++ s₀.releasedOf todo))
      (fun _ _ => True) s := by
  induction todo generalizing s k r onDisk with
  | nil =>
      refine ⟨(List.append_nil _).symm, ?_⟩
      unfold releasedOf
      rw [List.flatMap_nil, List.append_nil]
      exact hs
  | cons p rest ih =>
      obtain ⟨x, i⟩ := p
      rw [List.pairwise_cons] at hsorted
      obtain ⟨hfirst, hsorted⟩ := hsorted
      unfold spillInodes
      simp only [List.map_cons]
      rw [wp_bind]
      have hi : s.tree.inodes.get? x = some i := htodo (x, i) List.mem_cons_self
      refine wp_mono (spillInode_exact hi (by rw [hs.format]; exact hf)) ?_ fun _ _ _ => trivial
      rintro od s₁ ⟨rfl, hstep, hothers⟩
      have hentries : (onDisk.insert x (s.spilledRow 0 x i)).entries =
          onDisk.entries ++ [(x, s₀.spilledRow k x i)] := by
        rw [hs.spilledRow]
        exact OrdMap.insertIn_past fun p hp => hpast p hp (x, i) List.mem_cons_self
      have hs₁ := hs.trans hstep
      rw [hs.newBlocks, hs.releasedBlocks] at hs₁
      refine wp_mono (ih hs₁ ?_ hsorted ?_) ?_ fun _ _ _ => trivial
      · intro q hq
        rw [hothers q.1 (ne_of_gt (hfirst q hq))]
        exact htodo q (List.mem_cons_of_mem _ hq)
      · intro p hp q hq
        rw [hentries] at hp
        rcases List.mem_append.mp hp with hp | hp
        · exact hpast p hp q (List.mem_cons_of_mem _ hq)
        · rw [List.mem_singleton.mp hp]
          exact hfirst q hq
      · rintro onDisk' s' ⟨hrows, hs'⟩
        refine ⟨?_, ?_⟩
        · rw [hrows, hentries, List.append_assoc]
          rfl
        · rw [List.append_assoc, Nat.add_assoc] at hs'
          exact hs'

theorem spillToV3OnDisk_exact (hf : s.format ≠ .v2) :
    wp spillToV3OnDisk
      (fun v3 s' => v3 = s'.tree.toV3OnDisk v3.inodes ∧
        v3.inodes.entries = s.spilledRows 0 s.tree.inodes.entries ∧
        SpilledBy s s' (s.blocksOf s.tree.inodes.entries) (s.releasedOf s.tree.inodes.entries))
      (fun _ _ => True) s := by
  unfold spillToV3OnDisk
  rw [wp_bind, wp_get, wp_bind]
  have hall : ∀ p ∈ s.tree.inodes.entries, s.tree.inodes.get? p.1 = some p.2 :=
    fun p hp => OrdMap.get?_eq_some_iff.mpr hp
  refine wp_mono (spillInodes_exact hf SpilledBy.refl hall s.tree.inodes.sorted nofun) ?_
    fun _ _ _ => trivial
  rintro onDisk s' ⟨hrows, hs'⟩
  rw [wp_bind, wp_get, wp_pure]
  rw [Nat.zero_add, List.nil_append] at hs'
  exact ⟨rfl, hrows, hs'⟩

/-! ## The length of the payload -/

/-- Bytes of a row that only LBM4 and later have. -/
def v4ExtraLen (i : Inode) : Nat :=
  Postcard.varintLen i.mode + Postcard.varintLen i.linkCount
    + Postcard.optLen Postcard.strLen i.symlinkTarget

def writtenRowLen (s : Vfs) (k : Nat) (x : FileId) (i : Inode) : Nat :=
  Postcard.varintLen x + match s.format with
    | .v2 => Postcard.inodeLen i
    | .v3 => Postcard.inodeV3Len (s.spilledRow k x i)
    | .v4 | .v5 => Postcard.inodeV3Len (s.spilledRow k x i) + v4ExtraLen i

def writtenRowsLen (s : Vfs) : Nat → List (FileId × Inode) → Nat
  | _, [] => 0
  | k, (x, i) :: rest => s.writtenRowLen k x i + s.writtenRowsLen (k + s.newBlocks x i) rest

/-- The counters and the free list as the flush writes them. -/
def writtenHeadLen (s : Vfs) : Nat :=
  let t := s.tree.taken (s.blocksOf s.tree.inodes.entries)
  Postcard.treeHeadLen t.root t.nextFileId t.nextChunkId t.nextChunkGen
    (t.freeChunks ++ (s.pendingFree ++ s.releasedOf s.tree.inodes.entries))

def writtenSettingsLen (s : Vfs) : Nat :=
  if s.format = .v5 ∧ s.maxVaultSize ≠ 0 then Postcard.varintLen s.maxVaultSize else 0

def writtenLen (s : Vfs) : Nat :=
  s.writtenHeadLen
    + (Postcard.varintLen s.tree.inodes.entries.length + s.writtenRowsLen 0 s.tree.inodes.entries)
    + s.writtenSettingsLen

theorem spilledRows_length {k : Nat} {l : List (FileId × Inode)} :
    (s.spilledRows k l).length = l.length := by
  induction l generalizing k with
  | nil => rfl
  | cons p rest ih =>
      unfold spilledRows
      rw [List.length_cons, List.length_cons, ih]

/-- A sum of the rows of the spilled tree, one by one. -/
theorem sum_spilledRows {len : FileId × InodeV3OnDisk → Nat} {k : Nat} {l : List (FileId × Inode)}
    (h : ∀ p ∈ l, ∀ j, len (p.1, s.spilledRow j p.1 p.2) = s.writtenRowLen j p.1 p.2) :
    ((s.spilledRows k l).map len).sum = s.writtenRowsLen k l := by
  induction l generalizing k with
  | nil => rfl
  | cons p rest ih =>
      obtain ⟨x, i⟩ := p
      unfold spilledRows writtenRowsLen
      rw [List.map_cons, List.sum_cons, h (x, i) List.mem_cons_self,
        ih fun q hq => h q (List.mem_cons_of_mem _ hq)]

theorem inodeV4Len_toV4OnDisk {od : InodeV3OnDisk} {i : Inode} :
    Postcard.inodeV4Len (od.toV4OnDisk i) = Postcard.inodeV3Len od + v4ExtraLen i := by
  unfold Postcard.inodeV4Len Postcard.inodeV3Len v4ExtraLen InodeV3OnDisk.toV4OnDisk
  simp only
  omega

/-- Spilling leaves what LBM4 adds to a row as it was. -/
theorem v4ExtraLen_spilled {s' : Vfs} {k : Nat} {r : List ChunkId} (h : SpilledBy s s' k r)
    {x : FileId} {i : Inode} (hi : s.tree.inodes.get? x = some i) :
    v4ExtraLen ((s'.tree.inodes.get? x).getD default) = v4ExtraLen i := by
  have hget := congrArg (·.get? x) h.inodes
  simp only [OrdMap.get?_mapVals, hi, Option.map_some] at hget
  obtain ⟨i', hi', heq⟩ := Option.map_eq_some_iff.mp hget
  rw [hi', Option.getD_some]
  have hsame : v4ExtraLen i'.unlisted = v4ExtraLen i.unlisted := by rw [heq]
  exact hsame

theorem treeV3Len_spilled {v3 : DirectoryTreeV3OnDisk} {s' : Vfs} (hf : s.format = .v3)
    (hv3 : v3 = s'.tree.toV3OnDisk v3.inodes)
    (hrows : v3.inodes.entries = s.spilledRows 0 s.tree.inodes.entries)
    (hs : SpilledBy s s' (s.blocksOf s.tree.inodes.entries) (s.releasedOf s.tree.inodes.entries)) :
    Postcard.treeV3Len { v3 with freeChunks := v3.freeChunks ++ s'.pendingFree } = s.writtenLen := by
  have hset : s.writtenSettingsLen = 0 := by
    unfold writtenSettingsLen
    rw [if_neg (by rw [hf]; exact fun h => nomatch h.1)]
  unfold writtenLen writtenHeadLen Postcard.treeV3Len Postcard.seqLen
  rw [hset, hrows, spilledRows_length, sum_spilledRows, hs.pending]
  · rw [hv3, hs.tree]
    rfl
  · intro p _ j
    unfold writtenRowLen
    rw [hf]

theorem treeV4Len_spilled {v3 : DirectoryTreeV3OnDisk} {s' : Vfs}
    (hf : s.format = .v4 ∨ s.format = .v5) (hv3 : v3 = s'.tree.toV3OnDisk v3.inodes)
    (hrows : v3.inodes.entries = s.spilledRows 0 s.tree.inodes.entries)
    (hs : SpilledBy s s' (s.blocksOf s.tree.inodes.entries) (s.releasedOf s.tree.inodes.entries)) :
    Postcard.treeV4Len {
      root := v3.root
      nextFileId := v3.nextFileId
      nextChunkId := v3.nextChunkId
      nextChunkGen := v3.nextChunkGen
      freeChunks := v3.freeChunks ++ s'.pendingFree
      inodes := v3.inodes.mapWithKey fun id od =>
        od.toV4OnDisk ((s'.tree.inodes.get? id).getD default) } + s.writtenSettingsLen =
      s.writtenLen := by
  unfold writtenLen writtenHeadLen Postcard.treeV4Len Postcard.seqLen OrdMap.mapWithKey
  simp only
  rw [List.length_map, List.map_map, hrows, spilledRows_length, sum_spilledRows, hs.pending]
  · rw [hv3, hs.tree]
    rfl
  · intro p hp j
    have hi : s.tree.inodes.get? p.1 = some p.2 := OrdMap.get?_eq_some_iff.mpr hp
    unfold writtenRowLen
    simp only [Function.comp_apply]
    rw [inodeV4Len_toV4OnDisk, v4ExtraLen_spilled hs hi]
    rcases hf with hf | hf <;> rw [hf]

theorem spillToV4OnDisk_exact (hf : s.format = .v4 ∨ s.format = .v5) :
    wp spillToV4OnDisk
      (fun v4 s' => Postcard.treeV4Len { v4 with freeChunks := v4.freeChunks ++ s'.pendingFree }
          + s.writtenSettingsLen = s.writtenLen ∧
        s'.maxVaultSize = s.maxVaultSize)
      (fun _ _ => True) s := by
  have hne : s.format ≠ .v2 := by
    rcases hf with hf | hf <;> (rw [hf]; nofun)
  unfold spillToV4OnDisk
  rw [wp_bind]
  refine wp_mono (spillToV3OnDisk_exact hne) ?_ fun _ _ _ => trivial
  rintro v3 s' ⟨hv3, hrows, hs'⟩
  rw [wp_bind, wp_get, wp_ite]
  refine ⟨fun _ => trivial, fun _ => ?_⟩
  rw [wp_pure]
  exact ⟨treeV4Len_spilled hf hv3 hrows hs', hs'.maxVaultSize⟩

/-- LBM2 writes no list blocks. -/
theorem blocksOf_v2 (hf : s.format = .v2) {l : List (FileId × Inode)} :
    s.blocksOf l = 0 ∧ s.releasedOf l = [] := by
  have hdrops : ∀ x i, s.dropsChain x i = false := by
    intro x i
    unfold dropsChain
    rw [hf]
    rfl
  refine ⟨?_, ?_⟩
  · unfold blocksOf newBlocks
    simp [hdrops]
  · unfold releasedOf releasedBlocks
    simp [hdrops]

theorem writtenRowsLen_v2 (hf : s.format = .v2) {k : Nat} {l : List (FileId × Inode)} :
    s.writtenRowsLen k l =
      (l.map fun p => Postcard.varintLen p.1 + Postcard.inodeLen p.2).sum := by
  induction l generalizing k with
  | nil => rfl
  | cons p rest ih =>
      unfold writtenRowsLen writtenRowLen
      rw [hf, ih, List.map_cons, List.sum_cons]

theorem treeLen_v2 (hf : s.format = .v2) :
    Postcard.treeLen ({ s.tree with freeChunks := s.tree.freeChunks ++ s.pendingFree } :
      DirectoryTree).skipFields = s.writtenLen := by
  obtain ⟨hblocks, hreleased⟩ := blocksOf_v2 hf (l := s.tree.inodes.entries)
  have hset : s.writtenSettingsLen = 0 := by
    unfold writtenSettingsLen
    rw [if_neg (by rw [hf]; exact fun h => nomatch h.1)]
  unfold writtenLen writtenHeadLen
  rw [hblocks, hreleased, hset, writtenRowsLen_v2 hf, DirectoryTree.taken_zero, List.append_nil]
  unfold Postcard.treeLen DirectoryTree.skipFields Postcard.seqLen OrdMap.mapVals
  simp only [List.length_map, List.map_map]
  rfl

/-- The payload that a flush of this state serialises. -/
theorem encodeMetadata_exact :
    wp encodeMetadata
      (fun blob _ => blob.payloadLen = s.writtenLen ∧ blob.len = metadataMagicLen + blob.payloadLen)
      (fun _ _ => True) s := by
  have hcheck : ∀ {len : Nat} {s' : Vfs} {Q : Unit → Vfs → Prop}, Q () s' →
      wp (checkPayload len) Q (fun _ _ => True) s' := by
    intro len s' Q hQ
    unfold checkPayload
    rw [wp_ite]
    exact ⟨fun _ => trivial, fun _ => hQ⟩
  unfold encodeMetadata
  rw [wp_bind, wp_get]
  cases hf : s.format with
  | v5 =>
      simp only
      rw [wp_bind]
      refine wp_mono (spillToV4OnDisk_exact (.inr hf)) ?_ fun _ _ _ => trivial
      rintro v4 s' ⟨hlen, hmax⟩
      rw [wp_bind, wp_get, wp_bind]
      refine hcheck ?_
      rw [wp_pure, hmax]
      unfold writtenSettingsLen at hlen
      by_cases hzero : s.maxVaultSize = 0
      · rw [if_neg (fun h => h.2 hzero)] at hlen
        rw [if_pos hzero]
        exact ⟨hlen, rfl⟩
      · rw [if_pos ⟨hf, hzero⟩] at hlen
        rw [if_neg hzero]
        exact ⟨hlen, rfl⟩
  | v4 =>
      simp only
      rw [wp_bind]
      refine wp_mono (spillToV4OnDisk_exact (.inl hf)) ?_ fun _ _ _ => trivial
      rintro v4 s' ⟨hlen, -⟩
      rw [wp_bind, wp_get, wp_bind]
      refine hcheck ?_
      unfold writtenSettingsLen at hlen
      rw [if_neg (by rw [hf]; exact fun h => nomatch h.1)] at hlen
      exact ⟨hlen, rfl⟩
  | v3 =>
      simp only
      rw [wp_bind]
      refine wp_mono (spillToV3OnDisk_exact (by rw [hf]; nofun)) ?_ fun _ _ _ => trivial
      rintro v3 s' ⟨hv3, hrows, hs'⟩
      rw [wp_bind, wp_get, wp_bind]
      refine hcheck ?_
      exact ⟨treeV3Len_spilled hf hv3 hrows hs', rfl⟩
  | v2 =>
      simp only
      rw [wp_bind]
      refine hcheck ?_
      exact ⟨treeLen_v2 hf, rfl⟩

theorem metadataToCommit_exact :
    wp metadataToCommit
      (fun blob _ => blob.payloadLen = s.flushing.writtenLen ∧
        blob.len = metadataMagicLen + blob.payloadLen)
      (fun _ _ => True) s := by
  unfold metadataToCommit
  rw [wp_bind, wp_modify, wp_bind, wp_get, wp_bind, wp_fromExcept]
  refine ⟨fun _ _ => ?_, fun _ _ => trivial⟩
  rw [wp_bind]
  refine wp_alloc.mpr ⟨fun g t ht => ?_, fun _ => trivial⟩
  have htree : t = { s.tree with nextChunkGen := s.tree.nextChunkGen + 1 } := by
    unfold DirectoryTree.allocChunkGen at ht
    split at ht
    · cases ht
    simp only [Option.some.injEq, Prod.mk.injEq] at ht
    exact ht.2.symm
  subst htree
  rw [wp_bind, wp_modify, wp_bind, wp_modify]
  exact encodeMetadata_exact

/-! ## What the pre-flight counts and what it leaves out -/

def refsLen (l : List ChunkRef) : Nat := (l.map Postcard.chunkRefLen).sum

/-- What a ref takes beyond the two bytes of the placeholder. -/
def refExtra (r : ChunkRef) : Nat :=
  (Postcard.varintLen r.id - 1) + (Postcard.varintLen r.generation - 1)

/-- A file of `count` chunks does not keep its list in its row. -/
def spillsAt (format : MetadataFormat) (i : Inode) (count : Nat) : Bool :=
  decide (i.kind = .file) && decide (count > format.inlineChunkThreshold)

/-- The chunk list of a row as the pre-flight counts it: two bytes for a new
chunk or the head of a chain, and nothing new in LBM2. -/
def countedListLen (format : MetadataFormat) (i : Inode) (count : Nat) : Nat :=
  let total := min (i.chunks.length + count) u64Max
  if format = .v2 then Postcard.varintLen i.chunks.length + refsLen i.chunks
  else if spillsAt format i total then 4 + Postcard.varintLen total
  else Postcard.varintLen (i.chunks.length + count) + refsLen i.chunks + 2 * count + 1

/-- The numbers and the names of a row. -/
def plainRowLen (x : FileId) (i : Inode) (size mtimeNs : Nat) : Nat :=
  Postcard.varintLen x + Postcard.varintLen i.id + Postcard.varintLen i.parent
    + Postcard.kindLen i.kind + Postcard.varintLen size + Postcard.varintLen mtimeNs
    + Postcard.childrenLen i.children

def countedRowLen (s : Vfs) (id : FileId) (count : Nat) (x : FileId) (i : Inode) : Nat :=
  plainRowLen x i i.size i.mtimeNs + countedListLen s.format i (if x = id then count else 0)

def headLen (s : Vfs) : Nat :=
  Postcard.treeHeadLen s.tree.root s.tree.nextFileId s.tree.nextChunkId s.tree.nextChunkGen
    s.tree.freeChunks

/-- The bytes of the tree that the pre-flight counts: counters, free slots,
numbers, names and the refs there are. -/
def countedLen (s : Vfs) (id : FileId) (count : Nat) : Nat :=
  s.headLen + (Postcard.varintLen s.tree.inodes.entries.length
    + (s.tree.inodes.entries.map fun p => s.countedRowLen id count p.1 p.2).sum)

def slack (s : Vfs) (count : Nat) : Nat := if s.format = .v2 then count * 12 else 4096

/-- What the region has left behind the counted bytes and the slack. -/
def spare (s : Vfs) (id : FileId) (count : Nat) : Nat :=
  payloadBudgetFor s.container.header.metadataSize - (s.countedLen id count + s.slack count)

/-- What the counters and the free list grow by when `taken` slots and
generations are handed out and the slots `freed` become free. -/
def headLeftOut (s : Vfs) (taken : Nat) (freed : List ChunkId) : Int :=
  let t := s.tree
  let kept := t.freeChunks.length - taken
  ((Postcard.varintLen (t.nextChunkId + (taken - t.freeChunks.length)) : Int)
      - Postcard.varintLen t.nextChunkId)
    + (Postcard.varintLen (t.nextChunkGen + 1 + taken) - Postcard.varintLen t.nextChunkGen)
    + (Postcard.varintLen (kept + freed.length) - Postcard.varintLen t.freeChunks.length)
    + ((freed.map Postcard.varintLen).sum - ((t.freeChunks.drop kept).map Postcard.varintLen).sum)

/-- What the chunk list takes beyond what is counted for it, if these chunks are
new and it is written in `format'`: what the new refs, or the head of the
chain, are longer than placeholders. An upgrade of the format can also move a
list out of its row. -/
def listLeftOut (format format' : MetadataFormat) (i : Inode) (new : List ChunkRef) (head : ChunkRef) :
    Int :=
  let count := i.chunks.length + new.length
  if format = .v2 then
    ((Postcard.varintLen count : Int) - Postcard.varintLen i.chunks.length)
      + if format' = .v2 then (refsLen new : Int)
        else if spillsAt format' i count then 2 + (Postcard.chunkRefLen head : Int) - refsLen i.chunks
        else refsLen new + 1
  else if spillsAt format' i count then
    if spillsAt format i count then
      (refExtra head : Int)
        + ((Postcard.varintLen count : Int) - Postcard.varintLen (min count u64Max))
    else 1 + (Postcard.chunkRefLen head : Int) - refsLen i.chunks - 2 * new.length
  else ((new.map refExtra).sum : Nat)

/-- What LBM4 and later add to a row: mode, link count and symlink target. -/
def extraLeftOut (format' : MetadataFormat) (i : Inode) : Nat :=
  match format' with
  | .v2 | .v3 => 0
  | .v4 | .v5 => v4ExtraLen i

/-- What the row takes beyond what is counted for it, if `k` slots have been
handed out to list blocks before. -/
def rowLeftOut (s s' : Vfs) (id : FileId) (count newReal k : Nat) (x : FileId) (i : Inode) : Int :=
  let grown := if x = id then s.grownInode count newReal i else i
  ((Postcard.varintLen grown.size : Int) - Postcard.varintLen i.size)
    + (Postcard.varintLen grown.mtimeNs - Postcard.varintLen i.mtimeNs)
    + listLeftOut s.format s'.format i (if x = id then s.tree.refsFrom 0 count else [])
        ((reusableChain s' x grown true).getD (s'.tree.refAt k))
    + extraLeftOut s'.format i

def rowsLeftOut (s s' : Vfs) (id : FileId) (count newReal : Nat) :
    Nat → List (FileId × Inode) → Int
  | _, [] => 0
  | k, (x, i) :: rest =>
      s.rowLeftOut s' id count newReal k x i
        + rowsLeftOut s s' id count newReal
            (k + s'.newBlocks x (if x = id then s.grownInode count newReal i else i)) rest

/-- The bytes of the next flush that the pre-flight does not count. -/
def leftOut (s : Vfs) (id : FileId) (count newReal : Nat) : Int :=
  let s' := (s.grown id count newReal).flushing
  let l := s'.tree.inodes.entries
  s.headLeftOut (count + s'.blocksOf l) (s.pendingFree ++ s'.releasedOf l)
    + s.rowsLeftOut s' id count newReal 0 s.tree.inodes.entries + s'.writtenSettingsLen

theorem flushing_inodes : s.flushing.tree.inodes = s.tree.inodes := by
  unfold flushing upgradeToV4 upgradeHeader upgradeV1HeaderInMemory markAllChunksDirty
  split <;> split <;> rfl

theorem flushing_pendingFree : s.flushing.pendingFree = s.pendingFree := by
  unfold flushing upgradeToV4 upgradeHeader upgradeV1HeaderInMemory markAllChunksDirty
  split <;> split <;> rfl

theorem flushing_tree :
    s.flushing.tree = { s.tree with nextChunkGen := s.tree.nextChunkGen + 1 } := by
  unfold flushing upgradeToV4 upgradeHeader upgradeV1HeaderInMemory markAllChunksDirty
  split <;> split <;> rfl

theorem chunkRefLen_eq {r : ChunkRef} : Postcard.chunkRefLen r = refExtra r + 2 := by
  unfold Postcard.chunkRefLen refExtra Postcard.varintLen
  omega

theorem refsLen_eq {l : List ChunkRef} : refsLen l = (l.map refExtra).sum + 2 * l.length := by
  induction l with
  | nil => rfl
  | cons r rest ih =>
      unfold refsLen at ih ⊢
      simp only [List.map_cons, List.sum_cons, List.length_cons, ih, chunkRefLen_eq]
      omega

/-- The chunk list of a row as a flush writes it. -/
def writtenListLen (format : MetadataFormat) (i : Inode) (head : ChunkRef) : Nat :=
  if format = .v2 then Postcard.seqLen Postcard.chunkRefLen i.chunks
  else if i.needsExternal format then
    2 + (Postcard.chunkRefLen head + Postcard.varintLen i.chunks.length)
  else Postcard.seqLen Postcard.chunkRefLen i.chunks + 1

theorem writtenRowLen_eq {k : Nat} {x : FileId} {i : Inode} :
    s.writtenRowLen k x i = plainRowLen x i i.size i.mtimeNs
      + writtenListLen s.format i ((reusableChain s x i true).getD (s.tree.refAt k))
      + extraLeftOut s.format i := by
  have hv3 : ∀ format, s.format = format → format ≠ .v2 →
      Postcard.varintLen x + Postcard.inodeV3Len (s.spilledRow k x i) =
        plainRowLen x i i.size i.mtimeNs
          + writtenListLen format i ((reusableChain s x i true).getD (s.tree.refAt k)) := by
    rintro format rfl hne
    unfold writtenListLen spilledRow plainRowLen Postcard.inodeV3Len Inode.toV3OnDisk
    rw [if_neg hne]
    split
    · unfold Postcard.optLen Postcard.seqLen
      simp only [List.length_nil, List.map_nil, List.sum_nil]
      have hzero : Postcard.varintLen 0 = 1 := by decide
      omega
    · unfold Postcard.optLen
      simp only
      omega
  unfold writtenRowLen extraLeftOut
  cases hf : s.format with
  | v2 =>
      unfold writtenListLen plainRowLen Postcard.inodeLen
      simp only [if_true]
      omega
  | v3 =>
      have := hv3 .v3 hf nofun
      simp only
      omega
  | v4 =>
      have := hv3 .v4 hf nofun
      simp only
      omega
  | v5 =>
      have := hv3 .v5 hf nofun
      simp only
      omega

/-- A later format puts a list into a chain if this one does. -/
structure Upgrades (format format' : MetadataFormat) : Prop where
  stays : format ≠ .v2 → format' ≠ .v2
  spills : ∀ (i : Inode) n, format ≠ .v2 → spillsAt format i n = true → spillsAt format' i n = true

theorem spillsAt_min {format : MetadataFormat} {i : Inode} {n : Nat} :
    spillsAt format i (min n u64Max) = spillsAt format i n := by
  have hlt : format.inlineChunkThreshold < u64Max := by cases format <;> decide
  unfold spillsAt
  congr 1
  rw [decide_eq_decide]
  omega

theorem writtenListLen_eq {format format' : MetadataFormat} (hup : Upgrades format format')
    {i grown : Inode} {new : List ChunkRef} {head : ChunkRef} (hkind : grown.kind = i.kind)
    (hchunks : grown.chunks = i.chunks ++ new) :
    (writtenListLen format' grown head : Int)
      = countedListLen format i new.length + listLeftOut format format' i new head := by
  have hspills : grown.needsExternal format' = spillsAt format' i (i.chunks.length + new.length) := by
    unfold Inode.needsExternal spillsAt
    rw [hkind, hchunks, List.length_append]
  have hlist : Postcard.seqLen Postcard.chunkRefLen grown.chunks =
      Postcard.varintLen (i.chunks.length + new.length) + (refsLen i.chunks + refsLen new) := by
    unfold Postcard.seqLen refsLen
    rw [hchunks, List.length_append, List.map_append, List.sum_append]
  have hlen : grown.chunks.length = i.chunks.length + new.length := by
    rw [hchunks, List.length_append]
  have hhead := @chunkRefLen_eq head
  have hnew := @refsLen_eq new
  unfold writtenListLen countedListLen listLeftOut
  rw [hspills, hlist, hlen]
  simp only [spillsAt_min]
  by_cases hf : format = .v2
  · rw [if_pos hf, if_pos hf]
    by_cases hto : format' = .v2
    · rw [if_pos hto, if_pos hto]
      omega
    · rw [if_neg hto, if_neg hto]
      split
      · omega
      · omega
  · rw [if_neg (hup.stays hf), if_neg hf, if_neg hf]
    by_cases hto : spillsAt format' i (i.chunks.length + new.length) = true
    · rw [if_pos hto, if_pos hto]
      split
      · omega
      · omega
    · rw [if_neg hto, if_neg hto, if_neg fun h => hto (hup.spills i _ hf h)]
      omega

theorem upgrades_flushing {s₀ : Vfs} (hf : s₀.format = s.format) :
    Upgrades s.format s₀.flushing.format := by
  have hcases : s₀.flushing.format = s.format ∨ s₀.flushing.format = .v5
      ∨ (s.format = .v2 ∨ s.format = .v3) ∧ s₀.flushing.format = .v4 := by
    unfold flushing upgradeToV4 upgradeHeader upgradeV1HeaderInMemory markAllChunksDirty
    split
    · split
      · next h => simp at h
      · exact .inr (.inl rfl)
    · split
      · next h => exact .inr (.inr ⟨hf ▸ h.1, rfl⟩)
      · exact .inl hf
  refine ⟨fun hne => ?_, fun i n hne hspills => ?_⟩
  · rcases hcases with h | h | ⟨-, h⟩
    · rw [h]
      exact hne
    · rw [h]
      exact nofun
    · rw [h]
      exact nofun
  · unfold spillsAt at hspills ⊢
    rw [Bool.and_eq_true, decide_eq_true_eq, decide_eq_true_eq] at hspills ⊢
    refine ⟨hspills.1, ?_⟩
    have hless : s₀.flushing.format.inlineChunkThreshold ≤ s.format.inlineChunkThreshold := by
      rcases hcases with h | h | ⟨hold, h⟩
      · rw [h]
      · rw [h]
        cases s.format <;> decide
      · rw [h]
        rcases hold with hold | hold <;> rw [hold] <;> decide
    omega

/-- One row: what is counted for it and what is left out. -/
theorem writtenRowLen_leftOut {s' : Vfs} (hup : Upgrades s.format s'.format) {id : FileId}
    {count newReal k : Nat} {x : FileId} {i : Inode} :
    (s'.writtenRowLen k x (if x = id then s.grownInode count newReal i else i) : Int) =
      s.countedRowLen id count x i + s.rowLeftOut s' id count newReal k x i := by
  have hsame : ∀ size chunks cached mtime : _, ∀ g : Inode, g = { i with
      size := size, chunks := chunks, cachedRealSize := cached, mtimeNs := mtime } →
      plainRowLen x g g.size g.mtimeNs = plainRowLen x i g.size g.mtimeNs
        ∧ extraLeftOut s'.format g = extraLeftOut s'.format i := by
    rintro size chunks cached mtime g rfl
    exact ⟨rfl, rfl⟩
  rw [writtenRowLen_eq]
  unfold rowLeftOut countedRowLen
  by_cases hx : x = id
  · simp only [if_pos hx]
    have hlen : (s.tree.refsFrom 0 count).length = count := by
      unfold DirectoryTree.refsFrom
      rw [List.length_map, List.length_range']
    have hlist := @writtenListLen_eq _ _ hup i (s.grownInode count newReal i)
      (s.tree.refsFrom 0 count)
      ((reusableChain s' x (s.grownInode count newReal i) true).getD (s'.tree.refAt k)) rfl rfl
    rw [hlen] at hlist
    obtain ⟨hplain, hextra⟩ := hsame _ _ _ _ (s.grownInode count newReal i) rfl
    rw [hplain, hextra]
    unfold plainRowLen
    omega
  · simp only [if_neg hx]
    have hlist := @writtenListLen_eq _ _ hup i i []
      ((reusableChain s' x i true).getD (s'.tree.refAt k)) rfl (List.append_nil _).symm
    rw [List.length_nil] at hlist
    unfold plainRowLen
    omega

theorem writtenRowsLen_grown {s' : Vfs} (hup : Upgrades s.format s'.format) {id : FileId}
    {count newReal k : Nat} {l : List (FileId × Inode)} :
    (s'.writtenRowsLen k (l.map fun p =>
        (p.1, if p.1 = id then s.grownInode count newReal p.2 else p.2)) : Int) =
      (l.map fun p => s.countedRowLen id count p.1 p.2).sum
        + s.rowsLeftOut s' id count newReal k l := by
  induction l generalizing k with
  | nil => rfl
  | cons p rest ih =>
      obtain ⟨x, i⟩ := p
      simp only [List.map_cons, List.sum_cons, writtenRowsLen, rowsLeftOut]
      have hrow := @writtenRowLen_leftOut s s' hup id count newReal k x i
      simp only [Int.natCast_add]
      rw [ih]
      omega

theorem writtenHeadLen_grown {id : FileId} {count newReal blocks : Nat} {freed : List ChunkId}
    {s' : Vfs} (hs' : s' = (s.grown id count newReal).flushing)
    (hblocks : s'.blocksOf s'.tree.inodes.entries = blocks)
    (hfreed : s.pendingFree ++ s'.releasedOf s'.tree.inodes.entries = freed) :
    (s'.writtenHeadLen : Int) = s.headLen + s.headLeftOut (count + blocks) freed := by
  have hpending : s'.pendingFree = s.pendingFree := by
    rw [hs', flushing_pendingFree]
    rfl
  have htaken : s'.tree.taken blocks = { s.tree.taken (count + blocks) with
      inodes := s'.tree.inodes, nextChunkGen := s.tree.nextChunkGen + 1 + (count + blocks) } := by
    have htree : s'.tree = { s.tree.taken count with
        inodes := s'.tree.inodes, nextChunkGen := s.tree.nextChunkGen + count + 1 } := by
      rw [hs', flushing_tree]
      rfl
    have htwice := @DirectoryTree.taken_taken s.tree count blocks
    rw [htree]
    unfold DirectoryTree.taken at htwice ⊢
    simp only [DirectoryTree.mk.injEq] at htwice ⊢
    obtain ⟨-, -, hnext, -, hfree, -⟩ := htwice
    exact ⟨trivial, trivial, hnext, by omega, hfree, trivial⟩
  unfold writtenHeadLen headLen headLeftOut
  rw [hblocks, hpending, hfreed, htaken]
  unfold DirectoryTree.taken Postcard.treeHeadLen Postcard.seqLen
  simp only [List.map_append, List.sum_append, List.length_append, List.length_take]
  have hsum := List.sum_take_add_sum_drop (s.tree.freeChunks.map Postcard.varintLen)
    (s.tree.freeChunks.length - (count + blocks))
  rw [← List.map_take, ← List.map_drop] at hsum
  rw [Nat.min_eq_left (Nat.sub_le _ _)]
  omega

theorem writtenLen_grown {id : FileId} {count newReal : Nat} :
    ((s.grown id count newReal).flushing.writtenLen : Int) =
      s.countedLen id count + s.leftOut id count newReal := by
  have hentries : (s.grown id count newReal).flushing.tree.inodes.entries =
      s.tree.inodes.entries.map fun p =>
        (p.1, if p.1 = id then s.grownInode count newReal p.2 else p.2) := by
    rw [flushing_inodes]
    show (s.tree.inodes.adjust id (s.grownInode count newReal)).entries = _
    rw [OrdMap.adjust_eq_mapWithKey]
    rfl
  have hhead := @writtenHeadLen_grown s id count newReal _ _ _ rfl rfl rfl
  have hrows := @writtenRowsLen_grown s _
    (@upgrades_flushing s (s.grown id count newReal) rfl) id count newReal 0 s.tree.inodes.entries
  rw [← hentries] at hrows
  have hcount : (s.grown id count newReal).flushing.tree.inodes.entries.length =
      s.tree.inodes.entries.length := by rw [hentries, List.length_map]
  unfold writtenLen countedLen leftOut
  simp only
  rw [hcount]
  simp only [Int.natCast_add]
  omega

/-- The row the pre-flight serialises. -/
theorem varintLen_add_project {format : MetadataFormat} (hf : format ≠ .v2) {x : FileId}
    {i : Inode} {n : Nat} :
    Postcard.varintLen x + Postcard.inodeV3Len (projectInode format n i)
      = plainRowLen x i i.size i.mtimeNs + countedListLen format i n := by
  have hnil : Postcard.seqLen Postcard.chunkRefLen [] = 1 := by decide
  have htwo : Postcard.chunkRefLen ⟨0, 1⟩ = 2 := by decide
  have hrefs : Postcard.seqLen Postcard.chunkRefLen (i.chunks ++ List.replicate n ⟨0, 1⟩) =
      Postcard.varintLen (i.chunks.length + n) + refsLen i.chunks + 2 * n := by
    unfold Postcard.seqLen refsLen
    rw [List.length_append, List.length_replicate, List.map_append, List.map_replicate,
      List.sum_append, List.sum_replicate_nat, htwo]
    omega
  have hspills : ∀ total, spillsAt format i total = true ↔
      i.kind = .file ∧ total > format.inlineChunkThreshold := by
    intro total
    unfold spillsAt
    rw [Bool.and_eq_true, decide_eq_true_eq, decide_eq_true_eq]
  unfold plainRowLen countedListLen projectInode
  simp only [if_neg hf, hspills]
  split
  · unfold Postcard.inodeV3Len Postcard.optLen Inode.toV3OnDisk
    simp only [hnil, htwo]
    omega
  · unfold Postcard.inodeV3Len Postcard.optLen Inode.toV3OnDisk
    simp only [hrefs]
    omega

theorem treeV3Len_projected (hf : s.format ≠ .v2) {id : FileId} {count : Nat} :
    Postcard.treeV3Len (s.tree.toV3OnDisk (s.tree.inodes.mapWithKey fun x inode =>
      projectInode s.format (if x = id then count else 0) inode)) = s.countedLen id count := by
  unfold countedLen headLen Postcard.treeV3Len Postcard.seqLen OrdMap.mapWithKey
    DirectoryTree.toV3OnDisk
  simp only [List.length_map, List.map_map]
  congr 3
  apply List.map_congr_left
  intro p _
  exact varintLen_add_project hf

theorem countedLen_pos {id : FileId} {count : Nat} : 0 < s.countedLen id count := by
  unfold countedLen Postcard.varintLen
  omega

/-- The pre-flight lets a growth pass only if the estimate and its slack fit. -/
theorem countedLen_of_check {id : FileId} {count : Nat}
    (hsize : s.container.header.metadataSize ≤ u64Max)
    (hok : s.checkMetadataBudgetForChunks id count = .ok ()) :
    s.countedLen id count + s.slack count ≤
      payloadBudgetFor s.container.header.metadataSize := by
  have hbudget : payloadBudgetFor s.container.header.metadataSize < u64Max := by
    unfold payloadBudgetFor metadataOverhead metadataMagicLen u64Max at *
    omega
  unfold checkMetadataBudgetForChunks at hok
  unfold slack
  by_cases hf : s.format = .v2
  · rw [hf] at hok
    simp only at hok
    split at hok
    · cases hok
    next hle =>
    have hest : s.countedLen id count = Postcard.treeLen s.tree := by
      unfold countedLen headLen Postcard.treeLen Postcard.seqLen
      congr 3
      refine List.map_congr_left fun p _ => ?_
      unfold countedRowLen plainRowLen countedListLen Postcard.inodeLen Postcard.seqLen refsLen
      rw [if_pos hf]
      omega
    rw [hest, if_pos hf]
    omega
  · have hest := @treeV3Len_projected s hf id count
    rw [if_neg hf]
    split at hok
    · next hv2 => exact absurd hv2 hf
    · next =>
        simp only at hok
        split at hok
        · cases hok
        next hle =>
        rw [hest] at hle
        omega

/-! ## The flush behind it -/

/-- The error the pre-flight is there to prevent. -/
def tooLarge : Failure := .err (.format .metadataTooLarge)

theorem writeMetadata_fits {m : Metadata} {c : Container}
    (hfit : m.len + metadataOverhead ≤ c.header.metadataSize) :
    wp (Container.writeMetadata m) (fun _ _ => True) (fun e _ => e ≠ tooLarge) c := by
  have hio : Container.ioError ≠ tooLarge := nofun
  -- every step after the length check fails with an I/O error, if it fails
  have hrest : ∀ c₁ : Container, wp (do Container.writeLive m; Container.syncAll; Container.ioCall)
      (fun _ _ => True) (fun e _ => e ≠ tooLarge) c₁ := by
    intro c₁
    have hsync : ∀ c₂ : Container, wp (do Container.syncAll; Container.ioCall)
        (fun _ _ => True) (fun e _ => e ≠ tooLarge) c₂ := by
      intro c₂
      rw [wp_bind]
      refine Container.syncAll_spec (fun io => ?_) (fun _ => hio) (fun _ => hio)
      exact Container.ioCall_spec (fun _ => trivial) (fun _ => hio)
    unfold Container.writeLive
    rw [wp_bind, wp_bind]
    refine Container.nextFault_spec fun fault io => ?_
    cases fault with
    | ok => exact hsync _
    | before => exact hio
    | torn left written => exact hio
    | after => exact hio
  unfold Container.writeMetadata
  rw [wp_bind, wp_get, wp_ite]
  refine ⟨fun hbig => absurd hfit (Nat.not_le.mpr hbig), fun _ => ?_⟩
  split
  · rw [wp_bind]
    unfold Container.writeMetadataMirror
    rw [wp_bind]
    refine Container.nextFault_spec fun fault io => ?_
    cases fault with
    | ok => exact hrest _
    | before => exact hio
    | torn left written => exact hio
    | after => exact hio
  · exact hrest _

theorem publishMetadata_fits {blob : Metadata}
    (hfit : blob.len + metadataOverhead ≤ s.container.header.metadataSize) :
    wp (publishMetadata blob) (fun _ _ => True) (fun e _ => e ≠ tooLarge) s := by
  have hio : Container.ioError ≠ tooLarge := nofun
  unfold publishMetadata
  rw [wp_bind, wp_onContainer]
  refine Container.syncAll_spec (fun io => ?_) (fun _ => hio) (fun _ => hio)
  rw [wp_bind, wp_modify, wp_bind, wp_onContainer]
  refine wp_mono (writeMetadata_fits hfit) ?_ fun _ _ he => he
  intro _ c _
  rw [wp_bind, wp_modify, wp_bind, wp_modify, wp_bind, wp_onContainer]
  unfold Container.clearMetadataRecoveredFlag
  rw [wp_modify, wp_bind, wp_get, wp_bind]
  refine wp_fromExcept.mpr ⟨fun _ _ => ?_, fun e he => ?_⟩
  · rw [wp_bind, wp_onContainer]
    unfold Container.writeAnchor
    rw [wp_bind, wp_get]
    split
    · exact trivial
    · rw [wp_bind]
      exact Container.ioCall_spec (fun _ => trivial) (fun _ => hio)
  · unfold capacityPercent at he
    split at he
    · injection he with he
      rw [← he]
      nofun
    · cases he

/-- Serialising leaves the size of the region alone. -/
theorem metadataToCommit_metadataSize {size : Nat} :
    Keeps (fun s : Vfs => s.container.header.metadataSize = size) metadataToCommit := by
  have hq : Unhurt fun s : Vfs => s.container.header.metadataSize = size := by
    intro s s' hquiet h
    rw [hquiet.container]
    exact h
  refine Keeps.bind (Keeps.modify fun _ h => h) fun _ => Keeps.bind Keeps.get fun _ => ?_
  refine Keeps.bind Keeps.fromExcept fun _ => ?_
  refine Keeps.bind (allocChunkGen_keeps hq.unmoved) fun _ => ?_
  refine Keeps.bind (Keeps.modify fun s h => ?_) fun _ => ?_
  · unfold upgradeHeader upgradeV1HeaderInMemory markAllChunksDirty
    split <;> exact h
  refine Keeps.bind (Keeps.modify fun s h => ?_) fun _ => ?_
  · unfold upgradeToV4 markAllChunksDirty
    split <;> exact h
  · exact encodeMetadata_keeps hq.unmoved fun _ _ => writeExternalChainFor_keeps hq _ _

theorem metadataSize_of_metadataToCommit {s₂ : Vfs} {blob : Metadata}
    (hrun : metadataToCommit s = .ok blob s₂) :
    s₂.container.header.metadataSize = s.container.header.metadataSize := by
  have hkept := wp_ok (metadataToCommit_metadataSize s rfl) hrun
  exact hkept

/-- What a flush of a dirty state does with the metadata it has serialised. -/
theorem flush_of_metadataToCommit {s₂ : Vfs} {blob : Metadata} (hdirty : s.dirty = true)
    (hrun : metadataToCommit s = .ok blob s₂) :
    flush s = publishMetadata blob s₂ ∨
      s.toleratedInodes ≠ [] ∧ flush s = .error (.err .readOnlyMount) s := by
  unfold flush
  rw [bind_ok (show (get : VfsM Vfs) s = .ok s s from rfl)]
  by_cases hbad : s.toleratedInodes ≠ []
  · rw [if_pos hbad, if_pos hdirty]
    exact .inr ⟨hbad, rfl⟩
  · rw [if_neg hbad, if_neg (fun h => by rw [hdirty] at h; exact nomatch h.1), commitMetadata_eq]
    exact .inl (bind_ok hrun)

theorem metadataToCommit_eq (hvalid : validateMetadataTree s.tree s.dataOffset s.hideSize = .ok ())
    (hgen : s.tree.nextChunkGen < u64Max) :
    metadataToCommit s = encodeMetadata s.flushing := by
  have halloc : s.tree.allocChunkGen =
      some (s.tree.nextChunkGen, { s.tree with nextChunkGen := s.tree.nextChunkGen + 1 }) :=
    if_neg (by omega)
  unfold metadataToCommit
  rw [bind_ok (show (modify _ : VfsM PUnit) s = .ok () _ from rfl),
    bind_ok (show (get : VfsM Vfs) _ = .ok _ _ from rfl)]
  have hcheck : (fromExcept (validateMetadataTree s.tree s.dataOffset s.hideSize) : VfsM Unit)
      { s with cowFloorGen := s.tree.nextChunkGen } =
      .ok () { s with cowFloorGen := s.tree.nextChunkGen } := by
    rw [hvalid]
    rfl
  have hnext : allocChunkGen { s with cowFloorGen := s.tree.nextChunkGen } =
      .ok s.tree.nextChunkGen { s with
        cowFloorGen := s.tree.nextChunkGen
        tree := { s.tree with nextChunkGen := s.tree.nextChunkGen + 1 } } := by
    unfold allocChunkGen alloc
    rw [bind_ok (show (get : VfsM Vfs) _ = .ok _ _ from rfl)]
    simp only
    rw [halloc]
    rfl
  refine (bind_ok hcheck).trans ?_
  exact (bind_ok hnext).trans rfl

/-- The rows without what LBM4 adds to them, and what it adds. -/
theorem writtenRowsLen_v5 (hf : s.format = .v5) {k : Nat} {l : List (FileId × Inode)} :
    s.writtenRowsLen k l =
      ((s.spilledRows k l).map fun p => Postcard.varintLen p.1 + Postcard.inodeV3Len p.2).sum
        + (l.map fun p => v4ExtraLen p.2).sum := by
  induction l generalizing k with
  | nil => rfl
  | cons p rest ih =>
      obtain ⟨x, i⟩ := p
      unfold writtenRowsLen spilledRows writtenRowLen
      rw [hf, ih]
      simp only [List.map_cons, List.sum_cons]
      omega

theorem writtenLen_bounds (hf : s.format = .v5) {low high rows head : Nat}
    (hlow : low ≤ (s.tree.inodes.entries.map fun p => v4ExtraLen p.2).sum)
    (hhigh : (s.tree.inodes.entries.map fun p => v4ExtraLen p.2).sum ≤ high)
    (hrows : ((s.spilledRows 0 s.tree.inodes.entries).map fun p =>
      Postcard.varintLen p.1 + Postcard.inodeV3Len p.2).sum ≤ rows)
    (hhead : s.writtenHeadLen + Postcard.varintLen s.tree.inodes.entries.length
      + s.writtenSettingsLen ≤ head) :
    low ≤ s.writtenLen ∧ s.writtenLen ≤ high + rows + head := by
  unfold writtenLen
  rw [writtenRowsLen_v5 hf]
  omega

theorem encodeMetadata_returns (hf : s.format = .v5) {v4 : DirectoryTreeV4OnDisk} {s' : Vfs}
    (hspill : spillToV4OnDisk s = .ok v4 s') (hlen : s.writtenLen ≤ metadataDecodeLimitBytes) :
    ∃ blob, encodeMetadata s = .ok blob s' := by
  obtain ⟨hexact, -⟩ := wp_ok (spillToV4OnDisk_exact (.inr hf)) hspill
  have hcheck : checkPayload (Postcard.treeV4Len
      { v4 with freeChunks := v4.freeChunks ++ s'.pendingFree }) s' = .ok () s' := by
    unfold checkPayload
    rw [if_neg (by omega)]
    rfl
  unfold encodeMetadata
  rw [bind_ok (show (get : VfsM Vfs) s = .ok s s from rfl), hf]
  simp only
  rw [bind_ok hspill, bind_ok (show (get : VfsM Vfs) s' = .ok s' s' from rfl), bind_ok hcheck]
  exact ⟨_, rfl⟩

theorem publishMetadata_tooLarge {blob : Metadata} (hio : s.container.env.io = [])
    (hbig : s.container.header.metadataSize < blob.len + metadataOverhead) :
    ∃ s', publishMetadata blob s = .error tooLarge s' := by
  have hfault : Container.nextFault s.container = .ok .ok s.container := by
    unfold Container.nextFault
    rw [hio]
  have hsync : Container.syncAll s.container = .ok () s.container.synced := by
    unfold Container.syncAll
    rw [bind_ok hfault]
    rfl
  have hcall : onContainer Container.syncDataArea s =
      .ok () { s with container := s.container.synced } := by
    unfold onContainer zoom Container.syncDataArea
    rw [hsync]
  have hwrite : ∀ c : Container, c.header = s.container.header →
      Container.writeMetadata blob c = .error tooLarge c := by
    intro c hc
    unfold Container.writeMetadata
    rw [bind_ok (show (get : ContainerM Container) c = .ok c c from rfl), if_pos (by rw [hc]; exact hbig)]
    rfl
  have hrefused : onContainer (Container.writeMetadata blob)
      (beginCommit blob { s with container := s.container.synced }) =
      .error tooLarge (beginCommit blob { s with container := s.container.synced }) := by
    unfold onContainer zoom
    rw [hwrite (beginCommit blob { s with container := s.container.synced }).container rfl]
  unfold publishMetadata
  rw [bind_ok hcall, bind_ok (show (modify (beginCommit blob) : VfsM PUnit) _ = .ok () _ from rfl)]
  refine ⟨beginCommit blob { s with container := s.container.synced }, ?_⟩
  show EStateM.bind _ _ _ = _
  unfold EStateM.bind
  rw [hrefused]

end Vfs

/-- A growth that the pre-flight let pass leaves metadata that fits its region,
and a flush that does not find it too large, exactly when the bytes the estimate
leaves out are no more than its slack and what the region has to spare. -/
theorem preflight_sound_iff {s : Vfs} {id : FileId} {count newReal : Nat}
    (hsize : s.container.header.metadataSize ≤ u64Max)
    (hok : s.checkMetadataBudgetForChunks id count = .ok ()) {s₁ : Vfs}
    (hadd : Vfs.addChunks id count newReal s = .ok () s₁) {blob : Metadata} {s₂ : Vfs}
    (hrun : Vfs.metadataToCommit s₁ = .ok blob s₂) :
    (blob.len + metadataOverhead ≤ s₂.container.header.metadataSize ∧
        ∀ s₃, Vfs.flush s₁ ≠ .error (.err (.format .metadataTooLarge)) s₃) ↔
      s.leftOut id count newReal ≤ s.slack count + s.spare id count := by
  have hgrown : s₁ = s.grown id count newReal :=
    wp_ok (Q := fun _ s' => s' = s.grown id count newReal) Vfs.addChunks_exact hadd
  have hheader : s₂.container.header.metadataSize = s.container.header.metadataSize := by
    rw [Vfs.metadataSize_of_metadataToCommit hrun, hgrown]
    rfl
  obtain ⟨hpayload, hlen⟩ := wp_ok Vfs.metadataToCommit_exact hrun
  rw [hgrown] at hpayload
  have hgap : (blob.payloadLen : Int) = s.countedLen id count + s.leftOut id count newReal := by
    rw [hpayload]
    exact Vfs.writtenLen_grown
  have hest := Vfs.countedLen_of_check hsize hok
  have hfits : blob.len + metadataOverhead ≤ s.container.header.metadataSize ↔
      s.leftOut id count newReal ≤ s.slack count + s.spare id count := by
    have hpos := @Vfs.countedLen_pos s id count
    unfold Vfs.spare
    unfold payloadBudgetFor metadataOverhead metadataMagicLen at *
    omega
  rw [hheader]
  refine ⟨fun h => hfits.mp h.1, fun h => ⟨hfits.mpr h, fun s₃ hflush => ?_⟩⟩
  have hdirty : s₁.dirty = true := by
    rw [hgrown]
    rfl
  rcases Vfs.flush_of_metadataToCommit hdirty hrun with hpub | ⟨-, hread⟩
  · have hfit : blob.len + metadataOverhead ≤ s₂.container.header.metadataSize := by
      rw [hheader]
      exact hfits.mpr h
    exact wp_error (Vfs.publishMetadata_fits hfit) (hpub ▸ hflush) rfl
  · rw [hread] at hflush
    injection hflush with he
    cases he

/-- Whether a run returns to a state with no fault ahead. -/
def Vfs.returnsQuietly {α : Type} : EStateM.Result Failure Vfs α → Bool
  | .ok _ s => s.container.env.io.isEmpty
  | .error _ _ => false

theorem Vfs.exists_of_returnsQuietly {α : Type} {r : EStateM.Result Failure Vfs α}
    (h : returnsQuietly r = true) : ∃ a s, r = .ok a s ∧ s.container.env.io = [] := by
  cases r with
  | ok a s => exact ⟨a, s, rfl, List.isEmpty_iff.mp h⟩
  | error e s => cases h

theorem ok_of_isOk {r : Except Failure Unit} (h : r.isOk = true) : r = .ok () := by
  cases r with
  | ok a => rfl
  | error e => cases h

/-- A new vault with a metadata region of 64 KiB. -/
def smallVfs : Vfs := Vfs.fresh (Container.created ⟨2, false, false, 65536, 131072⟩ false 5 7) .v5

/-- The vault with an empty file. -/
def fileVfs : Vfs := smallVfs.run [(Op.create 1 "f" 0o644).quiet]

theorem preflight_sound_iff_file :
    ∃ s₁ blob s₂, fileVfs.checkMetadataBudgetForChunks 2 1 = .ok () ∧
      Vfs.addChunks 2 1 1 fileVfs = .ok () s₁ ∧ Vfs.metadataToCommit s₁ = .ok blob s₂ ∧
      blob.len + metadataOverhead ≤ s₂.container.header.metadataSize ∧
      ∀ s₃, Vfs.flush s₁ ≠ .error (.err (.format .metadataTooLarge)) s₃ := by
  have hok : fileVfs.checkMetadataBudgetForChunks 2 1 = .ok () := ok_of_isOk (by decide +kernel)
  obtain ⟨u, s₁, hadd, -⟩ := Vfs.exists_of_returnsQuietly
    (show Vfs.returnsQuietly (Vfs.addChunks 2 1 1 fileVfs) = true by decide +kernel)
  have hgrown : s₁ = fileVfs.grown 2 1 1 :=
    wp_ok (Q := fun _ s' => s' = fileVfs.grown 2 1 1) Vfs.addChunks_exact hadd
  subst hgrown
  obtain ⟨blob, s₂, hrun, -⟩ := Vfs.exists_of_returnsQuietly
    (show Vfs.returnsQuietly (Vfs.metadataToCommit (fileVfs.grown 2 1 1)) = true by decide +kernel)
  refine ⟨fileVfs.grown 2 1 1, blob, s₂, hok, hadd, hrun, ?_⟩
  exact (preflight_sound_iff (by decide +kernel) hok hadd hrun).mpr (by decide +kernel)

/-! ## Targets the estimate does not see -/

/-- The inode with another symlink target, if it is a symlink. -/
def Inode.retarget (target : String) (len : Nat) (i : Inode) : Inode :=
  { i with
    size := if i.kind = .symlink then len else i.size
    symlinkTarget := i.symlinkTarget.map fun _ => target }

def DirectoryTree.retarget (target : String) (len : Nat) (t : DirectoryTree) : DirectoryTree :=
  { t with inodes := t.inodes.mapVals (Inode.retarget target len) }

section Retarget

variable {t : DirectoryTree} {target : String} {len : Nat}

theorem get?_retarget {x : FileId} : (t.retarget target len).inodes.get? x =
    (t.inodes.get? x).map (Inode.retarget target len) := OrdMap.get?_mapVals

theorem entries_retarget : (t.retarget target len).inodes.entries =
    t.inodes.entries.map fun p => (p.1, p.2.retarget target len) := rfl

theorem childIds_retarget : (t.retarget target len).inodes.childIds = t.inodes.childIds := by
  unfold DirectoryTree.retarget Inodes.childIds
  rw [OrdMap.values_mapVals, List.flatMap_map]
  rfl

theorem refIds_retarget : (t.retarget target len).inodes.refIds = t.inodes.refIds := by
  unfold DirectoryTree.retarget Inodes.refIds
  rw [OrdMap.values_mapVals, List.flatMap_map]
  rfl

theorem edge_retarget {d c : FileId} (h : t.inodes.Edge d c) :
    (t.retarget target len).inodes.Edge d c := by
  obtain ⟨n, i, hi, hn⟩ := h
  refine ⟨n, i.retarget target len, ?_, hn⟩
  rw [get?_retarget, hi]
  rfl

theorem size_retarget {i : Inode} (hk : i.kind ≠ .symlink) :
    (i.retarget target len).size = i.size := if_neg hk

theorem InodeOk.retarget {dataOffset : Nat} {hideSize : Bool} {x : FileId} {i : Inode}
    (h : InodeOk t dataOffset hideSize x i) (hsafe : isSafeSymlinkTarget target = true) :
    InodeOk (t.retarget target len) dataOffset hideSize x (i.retarget target len) where
  ident := h.ident
  bound := h.bound
  parent := by
    have hparent := h.parent
    unfold parentRefused at hparent ⊢
    rw [get?_retarget, Option.map_map]
    exact hparent
  entries := by
    intro e he
    obtain ⟨hname, hroot, child, hchild⟩ := h.entries e he
    refine ⟨hname, hroot, child.retarget target len, ?_⟩
    rw [get?_retarget, hchild]
    rfl
  refs := h.refs
  leaf := h.leaf
  noData := h.noData
  dirSize := by
    intro hk
    have hk : i.kind = .directory := hk
    rw [size_retarget (by rw [hk]; nofun)]
    exact h.dirSize hk
  noTarget := by
    intro hk
    show i.symlinkTarget.map _ = none
    rw [h.noTarget hk]
    rfl
  target := by
    intro hk
    obtain ⟨u, hu, -⟩ := h.target hk
    refine ⟨target, ?_, hsafe⟩
    show i.symlinkTarget.map _ = some target
    rw [hu]
    rfl
  link := h.link
  linked := h.linked
  fileSize := by
    intro hk
    have hk : i.kind = .file := hk
    have hsize := h.fileSize hk
    unfold FileSizeOk at hsize ⊢
    rw [size_retarget (by rw [hk]; nofun)]
    exact hsize

/-- The validator asks of a target only whether it is safe. -/
theorem Valid.retarget {dataOffset : Nat} {hideSize : Bool} (h : Valid t dataOffset hideSize)
    (hsafe : isSafeSymlinkTarget target = true) :
    Valid (t.retarget target len) dataOffset hideSize := by
  have hget : ∀ {x i}, (t.retarget target len).inodes.get? x = some i →
      ∃ j, t.inodes.get? x = some j ∧ i = j.retarget target len := by
    intro x i hi
    rw [get?_retarget] at hi
    obtain ⟨j, hj, rfl⟩ := Option.map_eq_some_iff.mp hi
    exact ⟨j, hj, rfl⟩
  refine ⟨h.counters, ?_, ?_, ?_, ?_, ?_, ?_, ?_, h.freeNodup⟩
  · have hroot := h.root
    unfold validateRoot at hroot ⊢
    rw [get?_retarget]
    cases hr : t.inodes.get? rootId with
    | none =>
        rw [hr] at hroot
        cases hroot
    | some r =>
        rw [hr] at hroot
        exact hroot
  · intro x i hi
    obtain ⟨j, hj, rfl⟩ := hget hi
    exact (h.inodes x j hj).retarget hsafe
  · rw [childIds_retarget]
    rintro x hx ⟨i, hi, hk⟩
    obtain ⟨j, hj, rfl⟩ := hget hi
    exact h.dirs x hx ⟨j, hj, hk⟩
  · rw [refIds_retarget]
    exact h.refs
  · intro x i hi
    obtain ⟨j, hj, rfl⟩ := hget hi
    rw [childIds_retarget]
    exact h.counts x j hj
  · intro x i hi
    obtain ⟨j, hj, -⟩ := hget hi
    exact Relation.ReflTransGen.mono (fun _ _ => edge_retarget) _ _ (h.reach x j hj)
  · intro x hx
    rw [refIds_retarget]
    exact h.free x hx

/-- Growing a file and giving the symlinks other targets commute. -/
theorem grown_retarget {s : Vfs} {id : FileId} {count newReal : Nat}
    (hfile : ∀ i, s.tree.inodes.get? id = some i → i.kind ≠ .symlink) :
    (({ s with tree := s.tree.retarget target len } : Vfs).grown id count newReal).tree =
      (s.grown id count newReal).tree.retarget target len := by
  have hinodes : ((s.tree.retarget target len).inodes.adjust id (s.grownInode count newReal)) =
      (s.tree.inodes.adjust id (s.grownInode count newReal)).mapVals (Inode.retarget target len) := by
    apply OrdMap.ext_get?
    intro x
    rw [OrdMap.get?_adjust, OrdMap.get?_mapVals, OrdMap.get?_adjust, get?_retarget]
    split
    next hx =>
      subst hx
      cases hi : s.tree.inodes.get? x with
      | none => rfl
      | some i =>
          have hk : i.kind ≠ .symlink := hfile i hi
          simp only [Option.map_some, Option.some.injEq]
          unfold Vfs.grownInode Inode.retarget
          simp only [if_neg hk]
    next => rfl
  unfold Vfs.grown DirectoryTree.retarget
  simp only
  rw [← hinodes]
  rfl

end Retarget

theorem utf8ByteSize_replicate {n : Nat} :
    (String.ofList (List.replicate n 'a')).utf8ByteSize = n := by
  induction n with
  | zero => rfl
  | succ n ih =>
      rw [List.replicate_succ', String.ofList_append, String.utf8ByteSize_append, ih]
      rfl

theorem splitComponents_replicate {n : Nat} :
    splitComponents (List.replicate n 'a') = [List.replicate n 'a'] := by
  induction n with
  | zero => rfl
  | succ n ih =>
      rw [List.replicate_succ]
      unfold splitComponents
      rw [if_neg (by decide), ih]

theorem isSafeSymlinkTarget_replicate {n : Nat} (hpos : 2 < n) (hmax : n ≤ maxSymlinkTargetLen) :
    isSafeSymlinkTarget (String.ofList (List.replicate n 'a')) = true := by
  obtain ⟨m, rfl⟩ : ∃ m, n = m + 3 := ⟨n - 3, by omega⟩
  have hne : (String.ofList (List.replicate (m + 3) 'a')).isEmpty = false := by
    rw [Bool.eq_false_iff]
    intro h
    have := String.isEmpty_iff.mp h
    have hz := congrArg String.utf8ByteSize this
    rw [utf8ByteSize_replicate] at hz
    exact absurd hz (by simp)
  unfold isSafeSymlinkTarget hasChar
  rw [hne, utf8ByteSize_replicate, String.toList_ofList, splitComponents_replicate]
  have hnul : (List.replicate (m + 3) 'a').contains '\x00' = false := by
    rw [Bool.eq_false_iff]
    intro h
    have := List.contains_iff_mem.mp h
    rw [List.mem_replicate] at this
    exact absurd this.2 (by decide)
  rw [hnul, if_neg (by simp), if_neg (by omega), List.replicate_succ, List.replicate_succ]
  simp [List.replicate_succ]

/-- A target of the largest length allowed. -/
def longTarget : String := String.ofList (List.replicate 4096 'a')

/-- An empty file and sixteen symlinks. -/
def linkCalls : List Call :=
  (Op.create 1 "f" 0o644).quiet ::
    (["a", "b", "c", "d", "e", "g", "h", "i", "j", "k", "l", "m", "n", "o", "p", "q"].map fun name =>
      (Op.symlink 1 name "t").quiet)

def linksTree : DirectoryTree := (smallVfs.run linkCalls).tree

/-- The vault opened again, with targets of one byte. -/
def shortVfs : Vfs := { smallVfs with tree := linksTree }

/-- The vault with targets that are as long as they can be. -/
def linkedVfs : Vfs := { shortVfs with tree := shortVfs.tree.retarget longTarget 4096 }

theorem longTarget_size : longTarget.utf8ByteSize = 4096 := utf8ByteSize_replicate

theorem longTarget_safe : isSafeSymlinkTarget longTarget = true :=
  isSafeSymlinkTarget_replicate (by decide) (by decide)

/-- What the targets add to the rows of a tree. -/
theorem sum_v4ExtraLen_retarget {target : String} {len : Nat} {l : List (FileId × Inode)} :
    (l.map fun p => Vfs.v4ExtraLen (p.2.retarget target len)).sum =
      (l.map fun p => Postcard.varintLen p.2.mode + Postcard.varintLen p.2.linkCount + 1).sum
        + l.countP (fun p => p.2.symlinkTarget.isSome) * Postcard.strLen target := by
  induction l with
  | nil => simp
  | cons p rest ih =>
      simp only [List.map_cons, List.sum_cons, List.countP_cons, ih]
      unfold Vfs.v4ExtraLen Inode.retarget
      cases p.2.symlinkTarget with
      | none => simp [Postcard.optLen]; omega
      | some u => simp [Postcard.optLen, Nat.add_mul]; omega

/-- What the vault with the short targets evaluates to. -/
theorem shortVfs_evaluates :
    (shortVfs.tree.inodes.get? 2).map Inode.kind = some .file ∧
      (validateMetadataTree shortVfs.tree 131072 false).isOk = true ∧
      shortVfs.tree.inodes.childIds.length ≤ u32Max ∧
      (shortVfs.grown 2 1 1).tree.inodes.entries.countP
        (fun p => p.2.symlinkTarget.isSome) = 16 ∧
      ((shortVfs.grown 2 1 1).tree.inodes.entries.map fun p =>
        Postcard.varintLen p.2.mode + Postcard.varintLen p.2.linkCount + 1).sum ≤ 1000 := by
  decide +kernel

theorem linkedVfs_grown_tree :
    (linkedVfs.grown 2 1 1).tree = (shortVfs.grown 2 1 1).tree.retarget longTarget 4096 := by
  have hkind := shortVfs_evaluates.1
  unfold linkedVfs
  apply grown_retarget
  intro i hi
  rw [hi] at hkind
  injection hkind with hkind
  rw [hkind]
  nofun

theorem linkedVfs_starts : Starts linkedVfs := by
  obtain ⟨-, hok, hlen, -⟩ := shortVfs_evaluates
  refine .inr ⟨?_, fun id => ?_⟩
  · have hvalid : validateMetadataTree shortVfs.tree 131072 false = .ok () := ok_of_isOk hok
    exact validate_iff.mpr ((validate_iff.mp hvalid).retarget longTarget_safe)
  · unfold Inodes.entryCount
    show (shortVfs.tree.retarget longTarget 4096).inodes.childIds.count id ≤ u32Max
    rw [childIds_retarget]
    exact List.count_le_length.trans hlen

theorem linkedVfs_entries :
    (linkedVfs.grown 2 1 1).flushing.tree.inodes.entries =
      (shortVfs.grown 2 1 1).tree.inodes.entries.map fun p =>
        (p.1, p.2.retarget longTarget 4096) := by
  rw [Vfs.flushing_inodes, linkedVfs_grown_tree, entries_retarget]

theorem strLen_of_size {target : String} {n : Nat} (h : target.utf8ByteSize = n) :
    Postcard.strLen target = Postcard.varintLen n + n := by
  unfold Postcard.strLen
  rw [h]

theorem strLen_longTarget : Postcard.strLen longTarget = 4098 :=
  (strLen_of_size longTarget_size).trans (by decide)

/-- The sixteen targets, and little else. -/
theorem linkedVfs_extra :
    16 * 4098 ≤ ((linkedVfs.grown 2 1 1).flushing.tree.inodes.entries.map fun p =>
      Vfs.v4ExtraLen p.2).sum ∧
    ((linkedVfs.grown 2 1 1).flushing.tree.inodes.entries.map fun p =>
      Vfs.v4ExtraLen p.2).sum ≤ 16 * 4098 + 1000 := by
  obtain ⟨-, -, -, hcount, hmodes⟩ := shortVfs_evaluates
  have hsum := @sum_v4ExtraLen_retarget longTarget 4096 (shortVfs.grown 2 1 1).tree.inodes.entries
  rw [linkedVfs_entries, List.map_map]
  simp only [Function.comp_def]
  rw [hsum, hcount, strLen_longTarget]
  omega

/-- The rest of the payload, and its format. -/
theorem linkedVfs_evaluates :
    (((linkedVfs.grown 2 1 1).flushing.spilledRows 0
      (linkedVfs.grown 2 1 1).flushing.tree.inodes.entries).map fun p =>
        Postcard.varintLen p.1 + Postcard.inodeV3Len p.2).sum ≤ 10000 ∧
      (linkedVfs.grown 2 1 1).flushing.writtenHeadLen +
        Postcard.varintLen (linkedVfs.grown 2 1 1).flushing.tree.inodes.entries.length +
        (linkedVfs.grown 2 1 1).flushing.writtenSettingsLen ≤ 1000 ∧
      (linkedVfs.grown 2 1 1).flushing.format = .v5 := by
  decide +kernel

/-- The payload of the next flush. -/
theorem linkedVfs_writtenLen :
    16 * 4098 ≤ (linkedVfs.grown 2 1 1).flushing.writtenLen ∧
      (linkedVfs.grown 2 1 1).flushing.writtenLen ≤ 16 * 4098 + 1000 + 10000 + 1000 := by
  obtain ⟨hrows, hhead, hformat⟩ := linkedVfs_evaluates
  exact Vfs.writtenLen_bounds hformat linkedVfs_extra.1 linkedVfs_extra.2 hrows hhead

/-- The symlinks of an opened vault have targets that fill its metadata region.
The pre-flight does not see them, lets the file grow by a chunk, and the next
flush finds the metadata too large. -/
theorem long_targets_pass_preflight :
    Starts linkedVfs ∧ linkedVfs.checkMetadataBudgetForChunks 2 1 = .ok () ∧
      ∃ s₁ s₂, Vfs.addChunks 2 1 1 linkedVfs = .ok () s₁ ∧
        Vfs.flush s₁ = .error (.err (.format .metadataTooLarge)) s₂ := by
  refine ⟨linkedVfs_starts, ok_of_isOk (by decide +kernel), ?_⟩
  obtain ⟨u, s₁, hadd, -⟩ := Vfs.exists_of_returnsQuietly
    (show Vfs.returnsQuietly (Vfs.addChunks 2 1 1 linkedVfs) = true by decide +kernel)
  have hgrown : s₁ = linkedVfs.grown 2 1 1 :=
    wp_ok (Q := fun _ s' => s' = linkedVfs.grown 2 1 1) Vfs.addChunks_exact hadd
  subst hgrown
  have hshort : validateMetadataTree (shortVfs.grown 2 1 1).tree 131072 false = .ok () :=
    ok_of_isOk (by decide +kernel)
  have hvalid : validateMetadataTree (linkedVfs.grown 2 1 1).tree 131072 false = .ok () := by
    rw [linkedVfs_grown_tree]
    exact validate_iff.mpr ((validate_iff.mp hshort).retarget longTarget_safe)
  obtain ⟨v4, s₂, hspill, hio⟩ := Vfs.exists_of_returnsQuietly
    (show Vfs.returnsQuietly (Vfs.spillToV4OnDisk (linkedVfs.grown 2 1 1).flushing) = true by
      decide +kernel)
  obtain ⟨blob, hblob⟩ := Vfs.encodeMetadata_returns linkedVfs_evaluates.2.2 hspill
    (linkedVfs_writtenLen.2.trans (by decide))
  have hrun : Vfs.metadataToCommit (linkedVfs.grown 2 1 1) = .ok blob s₂ :=
    (Vfs.metadataToCommit_eq hvalid (by decide +kernel)).trans hblob
  obtain ⟨hpayload, hlen⟩ := wp_ok Vfs.metadataToCommit_exact hrun
  have hsize : s₂.container.header.metadataSize = 65536 :=
    (Vfs.metadataSize_of_metadataToCommit hrun).trans (by decide +kernel)
  have hbig : s₂.container.header.metadataSize < blob.len + metadataOverhead := by
    have hlow := linkedVfs_writtenLen.1
    rw [← hpayload] at hlow
    rw [hsize, hlen]
    unfold metadataOverhead metadataMagicLen
    omega
  obtain ⟨s₃, hpub⟩ := Vfs.publishMetadata_tooLarge hio hbig
  refine ⟨linkedVfs.grown 2 1 1, s₃, hadd, ?_⟩
  rcases Vfs.flush_of_metadataToCommit (show _ = true by decide +kernel) hrun with heq | ⟨hbad, -⟩
  · exact heq.trans hpub
  · exact absurd (show (linkedVfs.grown 2 1 1).toleratedInodes = [] by decide +kernel) hbad

end Luksbox
