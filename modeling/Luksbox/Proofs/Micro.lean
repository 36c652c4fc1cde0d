import Luksbox.Lib.Paths
import Luksbox.Proofs.ListBlocks
import Luksbox.Proofs.Validator

/-!
# The small steps of the data path

`write`, `truncate` and `flush` move chunk slots around in many small steps and
can stop after any of them. `Micro` lists what such a step can be, and the
lemmas of `Proofs/FlushPath.lean` and `Proofs/WritePath.lean` say that each of
these programs, wherever it stops, has taken a path of such steps. What is
proved about slots is then proved once for each kind of step.

A configuration is the VFS and two things only the running call knows: the
slots it has taken and not yet put anywhere (`flight`), and the slots of the
file's own chunks that it has already overwritten in place while the inode
still has the old generations (`broken`). A `Permit` says which slots may be
overwritten in place and whether metadata may be committed while some are
broken; the properties differ in what they can permit.
-/

namespace Luksbox

open Lib Relation

structure Permit where
  inPlace : ChunkId → Prop
  midFlush : Prop

/-- Everything is permitted. -/
def Permit.any : Permit := ⟨fun _ => True, True⟩

structure Cfg where
  flight : List ChunkId
  broken : List ChunkId
  vfs : Vfs

/-! ## The metadata a state stands for -/

def Inode.needsExternal (format : MetadataFormat) (i : Inode) : Bool :=
  decide (i.kind = .file) && decide (i.chunks.length > format.inlineChunkThreshold)

/-- An inode as a flush stores it, once its chain has been written. -/
def Inode.onDisk (format : MetadataFormat) (i : Inode) : InodeV3OnDisk :=
  if i.needsExternal format then
    i.toV3OnDisk [] (i.externalListBlocks.head?.map fun head => (head, i.chunks.length))
  else i.toV3OnDisk i.chunks none

namespace Vfs

def treeV3Of (s : Vfs) : DirectoryTreeV3OnDisk where
  root := s.tree.root
  nextFileId := s.tree.nextFileId
  nextChunkId := s.tree.nextChunkId
  nextChunkGen := s.tree.nextChunkGen
  freeChunks := s.tree.freeChunks ++ s.pendingFree
  inodes := s.tree.inodes.mapVals (Inode.onDisk s.format)

def treeV4Of (s : Vfs) : DirectoryTreeV4OnDisk where
  root := s.tree.root
  nextFileId := s.tree.nextFileId
  nextChunkId := s.tree.nextChunkId
  nextChunkGen := s.tree.nextChunkGen
  freeChunks := s.tree.freeChunks ++ s.pendingFree
  inodes := s.tree.inodes.mapVals fun i => (i.onDisk s.format).toV4OnDisk i

/-- The metadata that a flush of the state writes once all chains are there. -/
def blobOf (s : Vfs) : Metadata :=
  match s.format with
  | .v5 => if s.maxVaultSize = 0 then .lbm5 s.treeV4Of else .lbm6 s.treeV4Of ⟨s.maxVaultSize⟩
  | .v4 => .lbm4 s.treeV4Of
  | .v3 => .lbm3 s.treeV3Of
  | .v2 => .lbm2
      ({ s.tree with freeChunks := s.tree.freeChunks ++ s.pendingFree } : DirectoryTree).skipFields

/-- What chunk `idx` of file `f` opens to. -/
def opens (s : Vfs) (f : FileId) (idx : Nat) (r : ChunkRef) : Option Chunk :=
  s.container.slots r.id (s.container.fileKey f) (chunkAad f (idx % 2 ^ 32) r.generation)

/-- The size in the header of chunk 0, if the file's chunks can hold that much. -/
def headerSize (s : Vfs) (f : FileId) (i : Inode) : Option Nat :=
  match i.chunks with
  | [] => some 0
  | chunk0 :: _ => (s.opens f 0 chunk0).bind fun pt =>
      if i.chunks.length * chunkPlaintextSize > u64Max ∨
          i.chunks.length * chunkPlaintextSize < sizeHeaderLen ∨
          sizeHeaderOf pt > i.chunks.length * chunkPlaintextSize - sizeHeaderLen then none
      else some (sizeHeaderOf pt)

/-- The logical length of a file as the state determines it. -/
def inodeSize (s : Vfs) (f : FileId) (i : Inode) : Option Nat :=
  if i.kind ≠ .file then some 0
  else if s.hideSize = false then some i.size
  else i.cachedRealSize.orElse fun _ => s.headerSize f i

def sizeOf (s : Vfs) (f : FileId) : Option Nat :=
  (s.tree.inodes.get? f).bind (s.inodeSize f)

/-- The state with another tree. -/
def withTree (s : Vfs) (t : DirectoryTree) : Vfs := { s with tree := t }

/-- The state after a write to a slot. -/
def stored (s : Vfs) (off : Nat) (id : ChunkId) (slot : Slot) (written : Nat) : Vfs :=
  { s with container := s.container.storeSlot off id slot written }

/-- The state after a seal. -/
def withSeal (s : Vfs) (x : Seal) : Vfs := { s with container := s.container.withSeal x }

/-- The state after the list blocks of `g` were taken away. -/
def drained (s : Vfs) (g : FileId) (i : Inode) : Vfs :=
  { s.mapInode g (fun i => { i with externalListBlocks := [] }) with
    pendingFree := s.pendingFree ++ i.externalListBlocks.map ChunkRef.id }

end Vfs

namespace Vfs

/-- The list blocks of the inode hold its chunk list. -/
def Links (s : Vfs) (g : FileId) (i : Inode) : Prop :=
  Chained s.container.slots (s.container.listFileKey g) g 0 i.externalListBlocks i.chunks

/-- What a flush has seen to when it publishes: every long chunk list has a chain,
and the chains of files that changed were written anew, if no slot of theirs was
written for another file as well. -/
structure Prepared (s : Vfs) : Prop where
  spilled : s.format ≠ .v2 → ∀ g i, s.tree.inodes.get? g = some i →
    i.needsExternal s.format = true → i.externalListBlocks ≠ []
  renewed : s.format ≠ .v2 → (∀ x, s.tree.inodes.tally Inode.refIds x ≤ 1) →
    ∀ g i, s.tree.inodes.get? g = some i → g ∈ s.chunksDirty → i.externalListBlocks ≠ [] →
    s.Links g i

end Vfs

/-- The two states a program can lead to. -/
def Leads {α : Type} (m : VfsM α) (s s' : Vfs) : Prop :=
  (∃ a, m s = .ok a s') ∨ ∃ e, m s = .error e s'

/-! ## The steps -/

inductive Micro (P : Permit) (f : FileId) : Cfg → Cfg → Prop where
  /-- An I/O call met the next fault of the schedule. -/
  | env {L B : List ChunkId} {s : Vfs} (e : Env) : Micro P f ⟨L, B, s⟩ ⟨L, B, s.withEnv e⟩
  /-- A chunk was sealed; its slot is not written yet. -/
  | sealed {L B : List ChunkId} {s : Vfs} (x : Seal) : Micro P f ⟨L, B, s⟩ ⟨L, B, s.withSeal x⟩
  | gen {L B : List ChunkId} {s : Vfs} (h : s.tree.nextChunkGen + 1 ≤ u64Max) :
      Micro P f ⟨L, B, s⟩
        ⟨L, B, s.withTree { s.tree with nextChunkGen := s.tree.nextChunkGen + 1 }⟩
  | take {L B : List ChunkId} {s : Vfs} {id : ChunkId} {t : DirectoryTree}
      (h : s.tree.allocChunkId = some (id, t)) : Micro P f ⟨L, B, s⟩ ⟨id :: L, B, s.withTree t⟩
  /-- A write to a slot that nothing else holds. -/
  | store {L B : List ChunkId} {s : Vfs} {id : ChunkId} (off : Nat) (slot : Slot) (written : Nat)
      (h : id ∈ L) : Micro P f ⟨L, B, s⟩ ⟨L, B, s.stored off id slot written⟩
  /-- A write over a chunk of the file itself. -/
  | inPlace {L B : List ChunkId} {s : Vfs} {id : ChunkId} {i : Inode} (off : Nat) (slot : Slot)
      (written : Nat) (hi : s.tree.inodes.get? f = some i) (h : id ∈ i.chunks.map ChunkRef.id)
      (hp : P.inPlace id) : Micro P f ⟨L, B, s⟩ ⟨L, id :: B, s.stored off id slot written⟩
  /-- Slots in flight are handed back or forgotten. -/
  | give {L L' B : List ChunkId} {s : Vfs} (ids : List ChunkId)
      (h : ∀ x, L'.count x + ids.count x ≤ L.count x) :
      Micro P f ⟨L, B, s⟩ ⟨L', B, { s with pendingFree := s.pendingFree ++ ids }⟩
  /-- The size of a file is remembered. -/
  | cache {L B : List ChunkId} {s : Vfs} (size : Nat) (h : s.sizeOf f = some size) :
      Micro P f ⟨L, B, s⟩ ⟨L, B, s.mapInode f fun i => { i with cachedRealSize := some size }⟩
  | drain {L B : List ChunkId} {s : Vfs} {g : FileId} {i : Inode}
      (hi : s.tree.inodes.get? g = some i) : Micro P f ⟨L, B, s⟩ ⟨L, B, s.drained g i⟩
  /-- The blocks of a chain that has been written go into the inode. -/
  | chain {L L' B : List ChunkId} {s : Vfs} {g : FileId} {i : Inode} (refs : List ChunkRef)
      (hi : s.tree.inodes.get? g = some i) (hnone : i.externalListBlocks = [])
      (h : ∀ x, L'.count x + (refs.map ChunkRef.id).count x ≤ L.count x)
      (hformat : s.format ≠ .v2)
      (hread : (refs.map ChunkRef.id).Nodup →
        Chained s.container.slots (s.container.listFileKey g) g 0 refs i.chunks) :
      Micro P f ⟨L, B, s⟩
        ⟨L', B, s.mapInode g fun i => { i with externalListBlocks := refs }⟩
  | floor {L B : List ChunkId} {s : Vfs} :
      Micro P f ⟨L, B, s⟩ ⟨L, B, { s with cowFloorGen := s.tree.nextChunkGen }⟩
  | upgradeHeader {L B : List ChunkId} {s : Vfs} :
      Micro P f ⟨L, B, s⟩ ⟨L, B, s.upgradeHeader⟩
  | upgradeToV4 {L B : List ChunkId} {s : Vfs} : Micro P f ⟨L, B, s⟩ ⟨L, B, s.upgradeToV4⟩
  /-- The fence and the metadata commit, wherever it stops. -/
  | publish {L B : List ChunkId} {s s' : Vfs} (hb : B = [] ∨ P.midFlush)
      (h : Leads (Vfs.publishMetadata s.blobOf) s s') (hprep : s.Prepared) :
      Micro P f ⟨L, B, s⟩ ⟨L, B, s'⟩

/-- A path of small steps. -/
abbrev Path (P : Permit) (f : FileId) : Cfg → Cfg → Prop := ReflTransGen (Micro P f)

/-- Running a program along a path. -/
abbrev Runs {α : Type} (P : Permit) (f : FileId) (c : Cfg) (m : VfsM α) (Q : α → Cfg → Prop)
    (E : Failure → Cfg → Prop) : Prop := runs (Micro P f) Cfg.vfs c m Q E

/-! ## What the fence and the commit leave alone -/

/-- What publishing can change of the VFS itself: the container, the lists of
freed slots, and the dirty marks. -/
structure Published (s s' : Vfs) : Prop where
  container : Container.Committed s.container s'.container
  tree : s'.tree = { s.tree with freeChunks := s'.tree.freeChunks }
  lists : (s'.tree.freeChunks = s.tree.freeChunks ∧ s'.pendingFree = s.pendingFree) ∨
    (s'.tree.freeChunks = s.tree.freeChunks ++ s.pendingFree ∧ s'.pendingFree = [])
  format : s'.format = s.format
  tolerated : s'.toleratedInodes = s.toleratedInodes
  floor : s'.cowFloorGen = s.cowFloorGen
  maxVaultSize : s'.maxVaultSize = s.maxVaultSize
  shrinkMode : s'.shrinkMode = s.shrinkMode

namespace Vfs

variable {s : Vfs}

theorem published_container {c : Container} (h : Container.Committed s.container c) :
    Published s { s with container := c } :=
  ⟨h, rfl, Or.inl ⟨rfl, rfl⟩, rfl, rfl, rfl, rfl, rfl⟩

/-- The length of what is committed leaves room for the percentage. -/
theorem capacityPercent_ok {blob : Metadata} {size : Nat} (hne : 0 < blob.payloadLen)
    (hlen : blob.len = metadataMagicLen + blob.payloadLen)
    (h : blob.len + metadataOverhead ≤ size) :
    ∃ n, capacityPercent blob.len (payloadBudgetFor size) = .ok n := by
  unfold capacityPercent payloadBudgetFor
  rw [if_neg (by unfold metadataOverhead metadataMagicLen at *; omega)]
  exact ⟨_, rfl⟩

theorem varintLen_pos {n : Nat} : 0 < Postcard.varintLen n := Nat.succ_pos _

theorem blobOf_len : 0 < s.blobOf.payloadLen ∧
    s.blobOf.len = metadataMagicLen + s.blobOf.payloadLen := by
  have hv3 : ∀ t, 0 < Postcard.treeV3Len t := by
    intro t
    have := @varintLen_pos t.root
    unfold Postcard.treeV3Len Postcard.treeHeadLen
    omega
  have hv4 : ∀ t, 0 < Postcard.treeV4Len t := by
    intro t
    have := @varintLen_pos t.root
    unfold Postcard.treeV4Len Postcard.treeHeadLen
    omega
  have hv2 : ∀ t, 0 < Postcard.treeLen t := by
    intro t
    have := @varintLen_pos t.root
    unfold Postcard.treeLen Postcard.treeHeadLen
    omega
  unfold blobOf
  split
  · split
    · exact ⟨hv4 _, rfl⟩
    · exact ⟨Nat.add_pos_left (hv4 _) _, rfl⟩
  · exact ⟨hv4 _, rfl⟩
  · exact ⟨hv3 _, rfl⟩
  · exact ⟨hv2 _, rfl⟩

theorem Published.released {s' : Vfs} (hc : Container.Committed s.container s'.container)
    (ht : s'.tree = { s.tree with freeChunks := s.tree.freeChunks ++ s.pendingFree })
    (hp : s'.pendingFree = []) (hrest : s' = { s with
      container := s'.container, tree := s'.tree, dirty := s'.dirty,
      chunksDirty := s'.chunksDirty, pendingFree := s'.pendingFree }) : Published s s' := by
  rw [hrest]
  refine ⟨hc, ?_, Or.inr ⟨?_, hp⟩, rfl, rfl, rfl, rfl, rfl⟩
  · show s'.tree = _
    rw [ht]
  · show s'.tree.freeChunks = _
    rw [ht]

/-- A commit that returns has released the freed slots and cleared the marks;
one that fails has released them or not. -/
theorem publish_spec :
    wp (publishMetadata s.blobOf)
      (fun _ s' => Published s s' ∧ s'.pendingFree = [] ∧
        s'.tree.freeChunks = s.tree.freeChunks ++ s.pendingFree ∧ s'.dirty = false ∧
        s'.chunksDirty = ∅)
      (fun e s' => e.Plain ∧ Published s s') s := by
  unfold publishMetadata
  rw [wp_bind, wp_onContainer]
  refine wp_mono Container.syncAll_committed ?_
    fun e c he => ⟨he.1, published_container he.2⟩
  intro _ c₁ h₁
  rw [wp_bind, wp_modify, wp_bind, wp_onContainer]
  have hc₁ : Container.Committed s.container (beginCommit s.blobOf
      { s with container := c₁ }).container :=
    ⟨h₁.header, h₁.deniable, h₁.mvk, h₁.headerSalt, h₁.slots, h₁.fileLen, h₁.seals⟩
  refine wp_mono Container.writeMetadata_committed ?_
    fun e c he => ⟨he.1, published_container (hc₁.trans he.2)⟩
  rintro _ c₂ ⟨h₂, hfit⟩
  have h₂ := hc₁.trans h₂
  have hfit : s.blobOf.len + metadataOverhead ≤ c₂.header.metadataSize := by
    rw [h₂.header, ← hc₁.header]
    exact hfit
  rw [wp_bind, wp_modify, wp_bind, wp_modify, wp_bind, wp_onContainer]
  obtain ⟨n, hn⟩ := capacityPercent_ok blobOf_len.1 blobOf_len.2 hfit
  -- the slots are released: from here on every exit says so
  generalize hs₃ : releasePending (endCommit { beginCommit s.blobOf { s with container := c₁ } with
    container := c₂ }) = s₃
  have htree : s₃.tree = { s.tree with freeChunks := s.tree.freeChunks ++ s.pendingFree } := by
    rw [← hs₃]
    rfl
  have hpend : s₃.pendingFree = [] := by
    rw [← hs₃]
    rfl
  have hrest : s₃ = { s with container := s₃.container, tree := s₃.tree, pendingFree := [] } := by
    rw [← hs₃]
    rfl
  have hc₃ : Container.Committed s.container { s₃.container with metadataRecovered := false } := by
    rw [← hs₃]
    exact ⟨h₂.header, h₂.deniable, h₂.mvk, h₂.headerSalt, h₂.slots, h₂.fileLen, h₂.seals⟩
  have hcap : capacityPercent s.blobOf.len (payloadBudgetFor
      s₃.container.header.metadataSize) = .ok n := by
    rw [← hs₃]
    exact hn
  show wp _ _ _ { s₃ with container := { s₃.container with metadataRecovered := false } }
  rw [wp_bind, wp_get]
  show wp (fromExcept (capacityPercent s.blobOf.len
    (payloadBudgetFor s₃.container.header.metadataSize)) >>= _) _ _ _
  rw [wp_bind, hcap, wp_fromExcept_ok, wp_bind, wp_onContainer]
  refine wp_mono Container.writeAnchor_committed ?_ fun e c he => ⟨he.1, ?_⟩
  · intro _ c₄ h₄
    rw [wp_modify]
    refine ⟨Published.released (hc₃.trans h₄) htree hpend ?_, hpend, ?_, rfl, rfl⟩
    · rw [hrest]
    · show s₃.tree.freeChunks = _
      rw [htree]
  · refine Published.released (hc₃.trans he.2) htree hpend ?_
    rw [hrest]

end Vfs

theorem Leads.published {s s' : Vfs} (h : Leads (Vfs.publishMetadata s.blobOf) s s') :
    Published s s' := by
  rcases h with ⟨a, h⟩ | ⟨e, h⟩
  · exact (Vfs.of_wp_ok Vfs.publish_spec h).1
  · exact (Vfs.of_wp_error Vfs.publish_spec h).2

/-! ## What no step changes -/

/-- An inode without what a flush or a size lookup may fill in. -/
def Inode.bare (i : Inode) : Inode := { i with externalListBlocks := [], cachedRealSize := none }

structure Frame (s s' : Vfs) : Prop where
  inodes : s'.tree.inodes.mapVals Inode.bare = s.tree.inodes.mapVals Inode.bare
  root : s'.tree.root = s.tree.root
  nextFileId : s'.tree.nextFileId = s.tree.nextFileId
  nextChunkId : s.tree.nextChunkId ≤ s'.tree.nextChunkId
  nextChunkGen : s.tree.nextChunkGen ≤ s'.tree.nextChunkGen
  floor : s'.cowFloorGen = s.cowFloorGen ∨ s.tree.nextChunkGen ≤ s'.cowFloorGen
  tolerated : s'.toleratedInodes = s.toleratedInodes
  maxVaultSize : s'.maxVaultSize = s.maxVaultSize
  shrinkMode : s'.shrinkMode = s.shrinkMode
  header : s'.container.header =
    { s.container.header with versionMajor := s'.container.header.versionMajor }
  deniable : s'.container.deniable = s.container.deniable
  mvk : s'.container.mvk = s.container.mvk
  headerSalt : s'.container.headerSalt = s.container.headerSalt
  paced : s.cowFloorGen ≤ s.tree.nextChunkGen → s'.cowFloorGen ≤ s'.tree.nextChunkGen

namespace Frame

variable {s s' s'' : Vfs}

theorem refl : Frame s s :=
  ⟨rfl, rfl, rfl, le_refl _, le_refl _, Or.inl rfl, rfl, rfl, rfl, rfl, rfl, rfl, rfl,
    id⟩

theorem trans (h : Frame s s') (h' : Frame s' s'') : Frame s s'' where
  inodes := h'.inodes.trans h.inodes
  root := h'.root.trans h.root
  nextFileId := h'.nextFileId.trans h.nextFileId
  nextChunkId := h.nextChunkId.trans h'.nextChunkId
  nextChunkGen := h.nextChunkGen.trans h'.nextChunkGen
  floor := by
    rcases h'.floor with hf | hf
    · rw [hf]
      exact h.floor
    · exact Or.inr (h.nextChunkGen.trans hf)
  tolerated := h'.tolerated.trans h.tolerated
  maxVaultSize := h'.maxVaultSize.trans h.maxVaultSize
  shrinkMode := h'.shrinkMode.trans h.shrinkMode
  header := by rw [h'.header, h.header]
  deniable := h'.deniable.trans h.deniable
  mvk := h'.mvk.trans h.mvk
  headerSalt := h'.headerSalt.trans h.headerSalt
  paced := fun hle => h'.paced (h.paced hle)

theorem hideSize (h : Frame s s') : s'.hideSize = s.hideSize := by
  unfold Vfs.hideSize
  rw [h.header]

theorem paddingOn (h : Frame s s') : s'.paddingOn = s.paddingOn := by
  unfold Vfs.paddingOn
  rw [h.header]

theorem fileKey (h : Frame s s') {id : FileId} :
    s'.container.fileKey id = s.container.fileKey id := by
  unfold Container.fileKey
  rw [h.mvk, h.headerSalt]

/-- Nothing but the two cached fields of an inode changes. -/
theorem inode (h : Frame s s') {id : FileId} {i : Inode} (hi : s.tree.inodes.get? id = some i) :
    ∃ i', s'.tree.inodes.get? id = some i' ∧ i'.bare = i.bare := by
  obtain ⟨i', hi', hb⟩ := OrdMap.exists_of_mapVals_eq h.inodes.symm hi
  exact ⟨i', hi', hb.symm⟩

theorem inode_back (h : Frame s s') {id : FileId} {i' : Inode}
    (hi : s'.tree.inodes.get? id = some i') :
    ∃ i, s.tree.inodes.get? id = some i ∧ i'.bare = i.bare :=
  OrdMap.exists_of_mapVals_eq h.inodes hi

theorem nodes (h : Frame s s') :
    s'.tree.inodes.mapVals Inode.node = s.tree.inodes.mapVals Inode.node := by
  have hview : ∀ m : Inodes, m.mapVals Inode.node = (m.mapVals Inode.bare).mapVals Inode.node := by
    intro m
    rw [OrdMap.mapVals_mapVals]
    rfl
  rw [hview, h.inodes, ← hview]

end Frame

theorem Inode.bare_chunks {i j : Inode} (h : i.bare = j.bare) : i.chunks = j.chunks := by
  show i.bare.chunks = j.bare.chunks
  rw [h]

theorem Inode.bare_kind {i j : Inode} (h : i.bare = j.bare) : i.kind = j.kind := by
  show i.bare.kind = j.bare.kind
  rw [h]

theorem Published.frame {s s' : Vfs} (h : Published s s') : Frame s s' where
  inodes := by rw [h.tree]
  root := by rw [h.tree]
  nextFileId := by rw [h.tree]
  nextChunkId := by rw [h.tree]
  nextChunkGen := by rw [h.tree]
  floor := Or.inl h.floor
  tolerated := h.tolerated
  maxVaultSize := h.maxVaultSize
  shrinkMode := h.shrinkMode
  header := by rw [h.container.header]
  deniable := h.container.deniable
  mvk := h.container.mvk
  headerSalt := h.container.headerSalt
  paced := by
    rw [h.floor, h.tree]
    exact id

/-- An edit of the two cached fields of an inode. -/
theorem Frame.mapInode {s : Vfs} {g : FileId} {u : Inode → Inode} (hu : ∀ i, (u i).bare = i.bare) :
    Frame s (s.mapInode g u) :=
  { Frame.refl with inodes := OrdMap.mapVals_adjust_of_eq fun i _ => hu i }

theorem allocChunkId_cases {t t' : DirectoryTree} {id : ChunkId}
    (h : t.allocChunkId = some (id, t')) :
    (t.freeChunks = t'.freeChunks ++ [id] ∧ t' = { t with freeChunks := t'.freeChunks }) ∨
      (t.freeChunks = [] ∧ id = t.nextChunkId ∧ t.nextChunkId + 1 ≤ u64Max ∧
        t' = { t with nextChunkId := t.nextChunkId + 1 }) := by
  unfold DirectoryTree.allocChunkId at h
  cases hl : t.freeChunks.getLast? with
  | none =>
      rw [hl] at h
      simp only at h
      split at h
      · cases h
      · next hmax =>
          injection h with h
          injection h with hid ht
          refine Or.inr ⟨List.getLast?_eq_none_iff.mp hl, hid.symm, ?_, ht.symm⟩
          exact Nat.not_lt.mp hmax
  | some x =>
      rw [hl] at h
      simp only [Option.some.injEq, Prod.mk.injEq] at h
      obtain ⟨rfl, rfl⟩ := h
      refine Or.inl ⟨?_, rfl⟩
      obtain ⟨ys, hys⟩ := List.getLast?_eq_some_iff.mp hl
      simp [hys]

theorem Micro.frame {P : Permit} {f : FileId} {c c' : Cfg} (h : Micro P f c c') :
    Frame c.vfs c'.vfs := by
  cases h with
  | env e => exact { Frame.refl with }
  | sealed x => exact { Frame.refl with }
  | gen hg =>
      exact { Frame.refl with
        nextChunkGen := Nat.le_succ _, floor := Or.inl rfl, paced := fun hle => Nat.le_succ_of_le hle }
  | take ht =>
      rcases allocChunkId_cases ht with ⟨-, ht⟩ | ⟨-, -, -, ht⟩
      · rw [ht]
        exact { Frame.refl with }
      · rw [ht]
        exact { Frame.refl with nextChunkId := Nat.le_succ _ }
  | store off slot written hid => exact { Frame.refl with }
  | inPlace off slot written hi hid hp => exact { Frame.refl with }
  | give ids hids => exact { Frame.refl with }
  | cache size hsize => exact Frame.mapInode fun _ => rfl
  | drain hi =>
      exact { Frame.refl with inodes := OrdMap.mapVals_adjust_of_eq fun _ _ => rfl }
  | chain refs hi hnone hids => exact Frame.mapInode fun _ => rfl
  | floor => exact { Frame.refl with floor := Or.inr (le_refl _), paced := fun _ => le_refl _ }
  | upgradeHeader =>
      unfold Vfs.upgradeHeader
      split
      · exact { Frame.refl with }
      · exact Frame.refl
  | upgradeToV4 =>
      unfold Vfs.upgradeToV4
      split
      · exact { Frame.refl with }
      · exact Frame.refl
  | publish hb hl => exact hl.published.frame

theorem Path.frame {P : Permit} {f : FileId} {c c' : Cfg} (h : Path P f c c') :
    Frame c.vfs c'.vfs := by
  induction h with
  | refl => exact Frame.refl
  | tail _ hs ih => exact ih.trans hs.frame

/-! ## More in flight -/

/-- The same configuration with more slots in flight. -/
def Cfg.also (c : Cfg) (L : List ChunkId) : Cfg := { c with flight := c.flight ++ L }

/-- A step is possible whatever else is in flight. -/
theorem Micro.also {P : Permit} {f : FileId} {c c' : Cfg} (h : Micro P f c c') (L : List ChunkId) :
    Micro P f (c.also L) (c'.also L) := by
  cases h with
  | env e => exact Micro.env e
  | sealed x => exact Micro.sealed x
  | gen hg => exact Micro.gen hg
  | take ht => exact Micro.take ht
  | store off slot written hid => exact Micro.store off slot written (List.mem_append_left _ hid)
  | inPlace off slot written hi hid hp => exact Micro.inPlace off slot written hi hid hp
  | @give L₀ L' B s ids hids =>
      refine Micro.give ids fun x => ?_
      have := hids x
      show (L' ++ L).count x + ids.count x ≤ (L₀ ++ L).count x
      rw [List.count_append, List.count_append]
      omega
  | cache size hsize => exact Micro.cache size hsize
  | drain hi => exact Micro.drain hi
  | @chain L₀ L' B s g i refs hi hnone hids hformat hread =>
      refine Micro.chain refs hi hnone (fun x => ?_) hformat hread
      have := hids x
      show (L' ++ L).count x + (refs.map ChunkRef.id).count x ≤ (L₀ ++ L).count x
      rw [List.count_append, List.count_append]
      omega
  | floor => exact Micro.floor
  | upgradeHeader => exact Micro.upgradeHeader
  | upgradeToV4 => exact Micro.upgradeToV4
  | publish hb hl hprep => exact Micro.publish hb hl hprep

theorem Path.also {P : Permit} {f : FileId} {c c' : Cfg} (h : Path P f c c') (L : List ChunkId) :
    Path P f (c.also L) (c'.also L) := by
  induction h with
  | refl => exact ReflTransGen.refl
  | tail _ hs ih => exact ih.tail (hs.also L)

/-- A program that is run with nothing in flight can be run with anything. -/
theorem Runs.also {α : Type} {P : Permit} {f : FileId} {B : List ChunkId} {s : Vfs} {m : VfsM α}
    {Q : α → Cfg → Prop} {E : Failure → Cfg → Prop} (h : Runs P f ⟨[], B, s⟩ m Q E)
    (L : List ChunkId) :
    Runs P f ⟨L, B, s⟩ m (fun a c' => ∃ c₁, Q a c₁ ∧ c' = c₁.also L)
      (fun e c' => ∃ c₁, E e c₁ ∧ c' = c₁.also L) := by
  unfold Runs runs at h ⊢
  refine wp_mono h ?_ ?_
  · rintro a s' ⟨c₁, rfl, hp, hq⟩
    exact ⟨c₁.also L, rfl, Path.also hp L, c₁, hq, rfl⟩
  · rintro e s' ⟨c₁, rfl, hp, he⟩
    exact ⟨c₁.also L, rfl, Path.also hp L, c₁, he, rfl⟩

end Luksbox
