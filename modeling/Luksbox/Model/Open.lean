import Luksbox.Model.Files

/-!
# Opening a vault (`luksbox-vfs/src/vfs.rs`)

The metadata plaintext is decoded by its magic, chunk lists that were spilled
are read back from their chains, and the result goes through the validator
before anything uses it. With tolerant recovery on, a chain that cannot be read
leaves its file empty and the whole instance read-only.
-/

namespace Luksbox

open Lib

/-- What the decoders return besides the tree: the files whose chain was given
up on. -/
structure Decoded where
  tree : DirectoryTree
  tolerated : List FileId

namespace InodeV3OnDisk

/-- Back to the in-memory shape; LBM3 has no mode, link count or target. -/
def toInode (od : InodeV3OnDisk) (chunks listBlocks : List ChunkRef) : Inode where
  id := od.id
  parent := od.parent
  kind := od.kind
  size := od.size
  mtimeNs := od.mtimeNs
  chunks := chunks
  children := od.children
  cachedRealSize := none
  externalListBlocks := listBlocks
  mode := defaultModeForKind od.kind
  linkCount := 1
  symlinkTarget := none

end InodeV3OnDisk

namespace InodeV4OnDisk

def toInode (od : InodeV4OnDisk) (size : Nat) (chunks listBlocks : List ChunkRef) : Inode where
  id := od.id
  parent := od.parent
  kind := od.kind
  size := size
  mtimeNs := od.mtimeNs
  chunks := chunks
  children := od.children
  cachedRealSize := none
  externalListBlocks := listBlocks
  mode := od.mode
  linkCount := od.linkCount
  symlinkTarget := od.symlinkTarget

/-- The target is there exactly for a symlink, and it is a safe one. -/
def targetOk (od : InodeV4OnDisk) : Bool :=
  match od.kind, od.symlinkTarget with
  | .symlink, some target => isSafeSymlinkTarget target
  | .symlink, none => false
  | _, some _ => false
  | _, none => true

end InodeV4OnDisk

namespace Container

def undecodable : Failure := .err .metadataDeserialize

/-- The chunk list of an on-disk inode: inline, or walked from its chain. An
error of the walk comes back as a value. -/
def loadChunks (id : FileId) (kind : InodeKind) (chunks : List ChunkRef)
    (chunksExternal : Option (ChunkRef × Nat)) :
    ContainerM (Except Failure (List ChunkRef × List ChunkRef)) := do
  match chunksExternal with
  | none => pure (.ok (chunks, []))
  | some (head, expectedCount) =>
      if kind ≠ .file then throw undecodable
      else if chunks ≠ [] then throw undecodable
      else attempt (walkChunkListChain id head expectedCount)

def v3InodeToInMemory (od : InodeV3OnDisk) : ContainerM Inode := do
  match ← loadChunks od.id od.kind od.chunks od.chunksExternal with
  | .error _ => throw undecodable
  | .ok (chunks, listBlocks) => pure (od.toInode chunks listBlocks)

def v3InodesToInMemory :
    List (FileId × InodeV3OnDisk) → OrdMap FileId Inode → ContainerM (OrdMap FileId Inode)
  | [], inodes => pure inodes
  | (id, od) :: rest, inodes => do
      let inode ← v3InodeToInMemory od
      v3InodesToInMemory rest (inodes.insert id inode)

def v3OnDiskToInMemory (v3 : DirectoryTreeV3OnDisk) : ContainerM Decoded := do
  let inodes ← v3InodesToInMemory v3.inodes.entries OrdMap.empty
  pure {
    tree := {
      root := v3.root
      nextFileId := v3.nextFileId
      nextChunkId := v3.nextChunkId
      nextChunkGen := v3.nextChunkGen
      freeChunks := v3.freeChunks
      inodes := inodes }
    tolerated := [] }

/-- The inode, and whether its chain was given up on. -/
def v4InodeToInMemory (od : InodeV4OnDisk) : ContainerM (Inode × Bool) := do
  let c ← get
  if od.linkCount = 0 then throw undecodable
  else if od.targetOk = false then throw undecodable
  else
    match ← loadChunks od.id od.kind od.chunks od.chunksExternal with
    | .ok (chunks, listBlocks) => pure (od.toInode od.size chunks listBlocks, false)
    | .error _ =>
        if c.env.tolerateBadChunkLists then pure (od.toInode 0 [] [], true)
        else throw undecodable

def v4InodesToInMemory :
    List (FileId × InodeV4OnDisk) → OrdMap FileId Inode → List FileId →
    ContainerM (OrdMap FileId Inode × List FileId)
  | [], inodes, tolerated => pure (inodes, tolerated)
  | (id, od) :: rest, inodes, tolerated => do
      let (inode, lost) ← v4InodeToInMemory od
      v4InodesToInMemory rest (inodes.insert id inode)
        (if lost then tolerated ++ [id] else tolerated)

def v4OnDiskToInMemory (v4 : DirectoryTreeV4OnDisk) : ContainerM Decoded := do
  let (inodes, tolerated) ← v4InodesToInMemory v4.inodes.entries OrdMap.empty []
  pure {
    tree := {
      root := v4.root
      nextFileId := v4.nextFileId
      nextChunkId := v4.nextChunkId
      nextChunkGen := v4.nextChunkGen
      freeChunks := v4.freeChunks
      inodes := inodes }
    tolerated := tolerated }

/-- LBM2 carries no mode: every inode gets the default of its kind. -/
def patchModes (tree : DirectoryTree) : DirectoryTree :=
  { tree with
    inodes := tree.inodes.mapVals fun inode =>
      { inode with mode := defaultModeForKind inode.kind } }

/-- Decode a metadata plaintext: the tree, its format and the maximum size. -/
def decodeMetadata (blob : Metadata) : ContainerM (Decoded × MetadataFormat × Nat) := do
  let c ← get
  if blob.payloadLen > metadataDecodeLimitBytes then throw undecodable
  else
    match blob with
    | .empty => pure (⟨DirectoryTree.new, []⟩, .forFreshVault c.env.useV3ForFreshVault, 0)
    | .lbm2 tree => pure (⟨patchModes tree.skipFields, []⟩, .v2, 0)
    | .lbm3 v3 => do
        let decoded ← v3OnDiskToInMemory v3
        pure (decoded, .v3, 0)
    | .lbm4 v4 => do
        let decoded ← v4OnDiskToInMemory v4
        pure (decoded, .v4, 0)
    | .lbm5 v4 => do
        let decoded ← v4OnDiskToInMemory v4
        pure (decoded, .v5, 0)
    | .lbm6 v4 settings => do
        let decoded ← v4OnDiskToInMemory v4
        pure (decoded, .v5, settings.maxVaultSize)
    | .unknown _ => throw undecodable

/-- `Vfs::open` up to the construction of the `Vfs`: the tree is decoded,
validated and its stale parents repaired. -/
def loadTree : ContainerM (Decoded × MetadataFormat × Nat) := do
  let blob ← readMetadata
  let (decoded, format, maxVaultSize) ← decodeMetadata blob
  let c ← get
  fromExcept (validateMetadataTree decoded.tree c.header.dataOffset c.header.hideSizeHeader)
  pure (⟨repairStaleParents decoded.tree, decoded.tolerated⟩, format, maxVaultSize)

end Container

namespace Vfs

/-- The `Vfs` over a container whose tree has been loaded. -/
def ofLoaded (container : Container) (decoded : Decoded) (format : MetadataFormat)
    (maxVaultSize : Nat) : Vfs where
  container := container
  tree := decoded.tree
  dirty := false
  format := format
  toleratedInodes := decoded.tolerated
  chunksDirty := ∅
  pendingFree := []
  cowFloorGen := decoded.tree.nextChunkGen
  maxVaultSize := maxVaultSize
  shrinkMode := .keep

/-- What `open` makes of a container without metadata. -/
def fresh (container : Container) (format : MetadataFormat) : Vfs :=
  ofLoaded container ⟨DirectoryTree.new, []⟩ format 0

def «open» (container : Container) : Except Failure Vfs :=
  match Container.loadTree container with
  | .ok (decoded, format, maxVaultSize) container' =>
      .ok (ofLoaded container' decoded format maxVaultSize)
  | .error e _ => .error e

end Vfs

end Luksbox
