import Luksbox.Lib.OrdMap
import Mathlib.Data.String.Basic

/-!
# The directory tree (`luksbox-vfs/src/tree.rs`)

The in-memory tree the VFS works on: inodes by id, the three allocation
counters and the free list. Machine integers are `Nat`; where the code checks
for overflow the model compares with the bound of the Rust type, and where it
does not, the operation fails as a panic (`Model/Error.lean`).

`free_chunks` is a `Vec` used as a stack: `push` appends, `pop` takes the last
element, and the order is kept because it is what the metadata stores.
-/

namespace Luksbox

open Lib

def u32Max : Nat := 2 ^ 32 - 1

def u64Max : Nat := 2 ^ 64 - 1

abbrev FileId := Nat

abbrev ChunkId := Nat

def rootId : FileId := 1

/-- High bit of a `FileId`, reserved for the synthetic ids of chunk-list
chains. -/
def chunkListFileIdBit : FileId := 2 ^ 63

/-- Chunk lists longer than this spill out of LBM3/LBM4 metadata. -/
def v3InlineChunkThreshold : Nat := 1024

/-- The lower LBM5 threshold. -/
def v5InlineChunkThreshold : Nat := 256

/-- A chunk slot and the generation it was last sealed under. -/
structure ChunkRef where
  id : ChunkId
  generation : Nat
  deriving DecidableEq, Inhabited

inductive InodeKind where
  | file
  | directory
  | symlink
  deriving DecidableEq, Inhabited

structure Inode where
  id : FileId
  parent : FileId
  kind : InodeKind
  size : Nat
  mtimeNs : Nat
  chunks : List ChunkRef
  children : OrdMap String FileId
  cachedRealSize : Option Nat
  externalListBlocks : List ChunkRef
  mode : Nat
  linkCount : Nat
  symlinkTarget : Option String
  deriving Inhabited

/-- Maximum bytes in a symlink target. -/
def maxSymlinkTargetLen : Nat := 4096

def defaultFileMode : Nat := 0o644

def defaultDirMode : Nat := 0o755

def defaultModeForKind : InodeKind → Nat
  | .file => defaultFileMode
  | .directory => defaultDirMode
  | .symlink => 0o777

/-- The inodes by id. -/
abbrev Inodes := OrdMap FileId Inode

structure DirectoryTree where
  root : FileId
  nextFileId : FileId
  nextChunkId : ChunkId
  nextChunkGen : Nat
  freeChunks : List ChunkId
  inodes : Inodes
  deriving Inhabited

namespace DirectoryTree

/-- The root directory of a fresh tree. -/
def newRoot : Inode where
  id := rootId
  parent := rootId
  kind := .directory
  size := 0
  mtimeNs := 0
  chunks := []
  children := OrdMap.empty
  cachedRealSize := none
  externalListBlocks := []
  mode := defaultDirMode
  linkCount := 1
  symlinkTarget := none

def new : DirectoryTree where
  root := rootId
  nextFileId := rootId + 1
  nextChunkId := 0
  nextChunkGen := 1
  freeChunks := []
  inodes := OrdMap.empty.insert rootId newRoot

/-- The next generation for a chunk write; `none` once the counter is at
`u64::MAX`, which leaves the tree as it was. -/
def allocChunkGen (t : DirectoryTree) : Option (Nat × DirectoryTree) :=
  if t.nextChunkGen + 1 > u64Max then none
  else some (t.nextChunkGen, { t with nextChunkGen := t.nextChunkGen + 1 })

def allocFileId (t : DirectoryTree) : Option (FileId × DirectoryTree) :=
  if t.nextFileId + 1 > u64Max then none
  else some (t.nextFileId, { t with nextFileId := t.nextFileId + 1 })

/-- A chunk slot: the last freed one, or the next one past the end. -/
def allocChunkId (t : DirectoryTree) : Option (ChunkId × DirectoryTree) :=
  match t.freeChunks.getLast? with
  | some id => some (id, { t with freeChunks := t.freeChunks.dropLast })
  | none =>
      if t.nextChunkId + 1 > u64Max then none
      else some (t.nextChunkId, { t with nextChunkId := t.nextChunkId + 1 })

end DirectoryTree

end Luksbox
