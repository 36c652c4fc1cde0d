import Luksbox.Model.Vfs

/-!
# Spilling and flushing (`luksbox-vfs/src/vfs.rs`)

A flush turns the in-memory tree into one of the on-disk shapes and hands it to
the container. Chunk lists over the format's threshold leave the metadata: they
go to a chain of list blocks in the data area, written here, and the metadata
keeps the head and the count. A chain whose file did not change since the last
flush is kept as it is.

Slots freed since the last flush (`pendingFree`) are free in the metadata that
is written, and become free in memory only once it has been.
-/

namespace Luksbox

open Lib

def Inode.toV3OnDisk (inode : Inode) (chunks : List ChunkRef)
    (chunksExternal : Option (ChunkRef × Nat)) : InodeV3OnDisk where
  id := inode.id
  parent := inode.parent
  kind := inode.kind
  size := inode.size
  mtimeNs := inode.mtimeNs
  chunks := chunks
  chunksExternal := chunksExternal
  children := inode.children

def InodeV3OnDisk.toV4OnDisk (od : InodeV3OnDisk) (inode : Inode) : InodeV4OnDisk where
  id := od.id
  parent := od.parent
  kind := od.kind
  size := od.size
  mtimeNs := od.mtimeNs
  chunks := od.chunks
  chunksExternal := od.chunksExternal
  children := od.children
  mode := inode.mode
  linkCount := inode.linkCount
  symlinkTarget := inode.symlinkTarget

namespace DirectoryTree

/-- The tree's counters and free list around the given on-disk inodes. -/
def toV3OnDisk (tree : DirectoryTree) (inodes : OrdMap FileId InodeV3OnDisk) :
    DirectoryTreeV3OnDisk where
  root := tree.root
  nextFileId := tree.nextFileId
  nextChunkId := tree.nextChunkId
  nextChunkGen := tree.nextChunkGen
  freeChunks := tree.freeChunks
  inodes := inodes

/-- Whether an inode carries something only LBM4 and later can store. -/
def inodeNeedsV4 (inode : Inode) : Bool :=
  decide (inode.linkCount ≠ 1) || decide (inode.kind = .symlink)
    || decide (inode.mode ≠ defaultModeForKind inode.kind)

def needsV4Format (tree : DirectoryTree) : Bool := tree.inodes.values.any inodeNeedsV4

end DirectoryTree

namespace Vfs

/-! ## Chunk-list chains -/

/-- The refs of `n` new list blocks, after those already taken. -/
def allocBlockRefs : Nat → List ChunkRef → VfsM (List ChunkRef)
  | 0, refs => pure refs
  | n + 1, refs => do
      let id ← allocChunkId
      let generation ← allocChunkGen
      allocBlockRefs n (refs ++ [⟨id, generation⟩])

/-- Write the blocks from position `idx` on. -/
def writeListBlocks (fileId : FileId) (entries : List ChunkRef) :
    Nat → List ChunkRef → VfsM Unit
  | _, [] => pure ()
  | idx, block :: rest => do
      let start := idx * chunkListEntriesPerBlock
      let stop := min (start + chunkListEntriesPerBlock) entries.length
      let packed ← fromExcept (sliceList entries start stop)
      onContainer (Container.writeChunkListBlock fileId (idx % 2 ^ 32) block packed rest.head?)
      writeListBlocks fileId entries (idx + 1) rest

def writeExternalChainFor (fileId : FileId) (entries : List ChunkRef) :
    VfsM (ChunkRef × Nat × List ChunkRef) := do
  let blockCount :=
    (entries.length + chunkListEntriesPerBlock - 1) / chunkListEntriesPerBlock
  let blockRefs ← allocBlockRefs blockCount []
  writeListBlocks fileId entries 0 blockRefs
  let head ← fromExcept (index blockRefs 0)
  pure (head, entries.length, blockRefs)

/-! ## Spilling -/

/-- Take the inode's list blocks away and mark their slots as freed. -/
def drainExternals (id : FileId) : VfsM Unit := do
  let inode ← inodeOr .panic id
  updateInode id fun inode => { inode with externalListBlocks := [] }
  pushPending (inode.externalListBlocks.map ChunkRef.id)

/-- The chain that can be kept: the file still spills, it did not change, and
it has one. -/
def reusableChain (s : Vfs) (id : FileId) (inode : Inode) (needsExternal : Bool) :
    Option ChunkRef :=
  if needsExternal ∧ id ∉ s.chunksDirty then inode.externalListBlocks.head? else none

def spillInode (id : FileId) : VfsM InodeV3OnDisk := do
  let s ← get
  let inode ← inodeOr .panic id
  let needsExternal := decide (inode.kind = .file)
    && decide (inode.chunks.length > s.format.inlineChunkThreshold)
  match reusableChain s id inode needsExternal with
  | some head => pure (inode.toV3OnDisk [] (some (head, inode.chunks.length)))
  | none => do
      drainExternals id
      if needsExternal then do
        let (head, count, newExternals) ← writeExternalChainFor id inode.chunks
        updateInode id fun inode => { inode with externalListBlocks := newExternals }
        pure (inode.toV3OnDisk [] (some (head, count)))
      else pure (inode.toV3OnDisk inode.chunks none)

def spillInodes : List FileId → OrdMap FileId InodeV3OnDisk → VfsM (OrdMap FileId InodeV3OnDisk)
  | [], onDisk => pure onDisk
  | id :: rest, onDisk => do
      let od ← spillInode id
      spillInodes rest (onDisk.insert id od)

def spillToV3OnDisk : VfsM DirectoryTreeV3OnDisk := do
  let s ← get
  let onDisk ← spillInodes s.tree.inodes.keys OrdMap.empty
  let s ← get
  pure (s.tree.toV3OnDisk onDisk)

def spillToV4OnDisk : VfsM DirectoryTreeV4OnDisk := do
  let v3 ← spillToV3OnDisk
  let s ← get
  -- `expect("v3 spill enumerates only ids that exist in the in-memory tree")`
  if v3.inodes.keys.any (fun id => !s.tree.inodes.contains id) then throw .panic
  else
    pure {
      root := v3.root
      nextFileId := v3.nextFileId
      nextChunkId := v3.nextChunkId
      nextChunkGen := v3.nextChunkGen
      freeChunks := v3.freeChunks
      inodes := v3.inodes.mapWithKey fun id od =>
        od.toV4OnDisk ((s.tree.inodes.get? id).getD default) }

/-! ## The metadata of a flush -/

/-- Refuse a payload the decoder would refuse. -/
def checkPayload (len : Nat) : VfsM Unit := do
  if len > metadataDecodeLimitBytes then throw (.err .metadataSerialize)
  else pure ()

/-- Serialise the tree in the vault's format, spilling what has to spill. -/
def encodeMetadata : VfsM Metadata := do
  let s ← get
  match s.format with
  | .v5 => do
      let v4 ← spillToV4OnDisk
      let s ← get
      let v4 := { v4 with freeChunks := v4.freeChunks ++ s.pendingFree }
      checkPayload (Postcard.treeV4Len v4)
      pure (if s.maxVaultSize = 0 then .lbm5 v4 else .lbm6 v4 ⟨s.maxVaultSize⟩)
  | .v4 => do
      let v4 ← spillToV4OnDisk
      let s ← get
      let v4 := { v4 with freeChunks := v4.freeChunks ++ s.pendingFree }
      checkPayload (Postcard.treeV4Len v4)
      pure (.lbm4 v4)
  | .v3 => do
      let v3 ← spillToV3OnDisk
      let s ← get
      let v3 := { v3 with freeChunks := v3.freeChunks ++ s.pendingFree }
      checkPayload (Postcard.treeV3Len v3)
      pure (.lbm3 v3)
  | .v2 => do
      let tree := { s.tree with freeChunks := s.tree.freeChunks ++ s.pendingFree }
      checkPayload (Postcard.treeLen tree.skipFields)
      pure (.lbm2 tree.skipFields)

/-! ## Upgrades -/

/-- Every chunk-list chain has to be written again. -/
def markAllChunksDirty (s : Vfs) : Vfs :=
  { s with chunksDirty := s.chunksDirty ∪ s.tree.inodes.keys.toFinset }

def upgradeV1HeaderInMemory (s : Vfs) : Vfs :=
  markAllChunksDirty { s with
    container := { s.container with
      header := { s.container.header with versionMajor := versionMajorV2 } }
    format := .v5 }

/-- The automatic LUKSBOX1 upgrade, unless the vault is deniable or the user
wants the old format. -/
def upgradeHeader (s : Vfs) : Vfs :=
  if s.container.header.versionMajor = versionMajorV1 ∧ s.container.deniable = false
      ∧ s.container.env.useV3ForFreshVault = true then upgradeV1HeaderInMemory s
  else s

def upgradeToV4 (s : Vfs) : Vfs :=
  if (s.format = .v2 ∨ s.format = .v3) ∧ s.tree.needsV4Format = true then
    markAllChunksDirty { s with format := .v4 }
  else s

/-! ## Flush -/

/-- The bookkeeping of `Container.history`: a commit begins. -/
def beginCommit (blob : Metadata) (s : Vfs) : Vfs :=
  { s with container := { s.container with
      history := { tree := s.tree, blob := blob, slots := s.container.slots, done := false }
        :: s.container.history } }

/-- The commit that was begun last has returned. -/
def endCommit (s : Vfs) : Vfs :=
  { s with container := { s.container with
      history := match s.container.history with
        | commit :: older => { commit with done := true } :: older
        | [] => [] } }

/-- The slots freed since the last flush may be reused from now on. -/
def releasePending (s : Vfs) : Vfs :=
  { s with
    tree := { s.tree with freeChunks := s.tree.freeChunks ++ s.pendingFree }
    pendingFree := [] }

/-- `bytes.len() * 100 / payload_budget_for(..)`, which divides. -/
def capacityPercent (bytesLen budget : Nat) : Except Failure Nat :=
  if budget = 0 then .error .panic else .ok (min (bytesLen * 100 / budget) 100)

/-- The part of `flush` from the data fence on. -/
def publishMetadata (blob : Metadata) : VfsM Unit := do
  onContainer Container.syncDataArea
  modify (beginCommit blob)
  onContainer (Container.writeMetadata blob)
  modify endCommit
  modify releasePending
  onContainer Container.clearMetadataRecoveredFlag
  let s ← get
  let _ ← fromExcept (capacityPercent blob.len (payloadBudgetFor s.container.header.metadataSize))
  onContainer (Container.writeAnchor s.tree.nextChunkGen)
  modify fun s => { s with dirty := false, chunksDirty := ∅ }

/-- The part of `flush` that writes. -/
def commitMetadata : VfsM Unit := do
  modify fun s => { s with cowFloorGen := s.tree.nextChunkGen }
  let s ← get
  fromExcept (validateMetadataTree s.tree s.dataOffset s.hideSize)
  let _ ← allocChunkGen
  modify upgradeHeader
  modify upgradeToV4
  let blob ← encodeMetadata
  publishMetadata blob

def flush : VfsM Unit := do
  let s ← get
  if s.toleratedInodes ≠ [] then
    if s.dirty then throw (.err .readOnlyMount) else pure ()
  else if s.dirty = false ∧ s.container.metadataRecovered = false then pure ()
  else commitMetadata

/-! ## The metadata budget -/

/-- The inode as it would be written if it had `extra` more chunks. -/
def projectInode (format : MetadataFormat) (extra : Nat) (inode : Inode) : InodeV3OnDisk :=
  let placeholder : ChunkRef := ⟨0, 1⟩
  let projectedCount := min (inode.chunks.length + extra) u64Max
  if inode.kind = .file ∧ projectedCount > format.inlineChunkThreshold then
    inode.toV3OnDisk [] (some (placeholder, projectedCount))
  else inode.toV3OnDisk (inode.chunks ++ List.replicate extra placeholder) none

/-- Whether `extraChunks` more chunks of file `id` fit the metadata region. -/
def checkMetadataBudgetForChunks (s : Vfs) (id : FileId) (extraChunks : Nat) :
    Except Failure Unit :=
  let budget := payloadBudgetFor s.container.header.metadataSize
  match s.format with
  | .v2 =>
      let projected := min (Postcard.treeLen s.tree + min (extraChunks * 12) u64Max) u64Max
      if projected > budget then .error (.err .metadataBudgetExhausted) else .ok ()
  | _ =>
      let projectedTree := s.tree.toV3OnDisk (s.tree.inodes.mapWithKey fun inodeId inode =>
        projectInode s.format (if inodeId = id then extraChunks else 0) inode)
      let slack := 4096
      if min (Postcard.treeV3Len projectedTree + slack) u64Max > budget then
        .error (.err .metadataBudgetExhausted)
      else .ok ()

end Vfs

end Luksbox
