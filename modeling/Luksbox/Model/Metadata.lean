import Luksbox.Model.Tree

/-!
# The on-disk metadata shapes (`luksbox-vfs/src/vfs.rs`)

Five formats have been written over time, told apart by their magic. The model
keeps a metadata plaintext as the value it encodes together with its format,
and computes the length of its postcard encoding: the code only ever asks
postcard for the bytes of a value, for their number, or for the value back.
`unknown` stands for every plaintext that none of the decoders accepts.

LBM2 is the in-memory tree itself with the fields added since then skipped;
`DirectoryTree.skipFields` is what a reader gets back for them.
-/

namespace Luksbox

open Lib

inductive MetadataFormat where
  | v2
  | v3
  | v4
  | v5
  deriving DecidableEq, Inhabited

namespace MetadataFormat

def forFreshVault (useV3ForFreshVault : Bool) : MetadataFormat :=
  if useV3ForFreshVault then .v5 else .v2

def inlineChunkThreshold : MetadataFormat → Nat
  | .v2 | .v3 | .v4 => v3InlineChunkThreshold
  | .v5 => v5InlineChunkThreshold

end MetadataFormat

structure InodeV3OnDisk where
  id : FileId
  parent : FileId
  kind : InodeKind
  size : Nat
  mtimeNs : Nat
  chunks : List ChunkRef
  chunksExternal : Option (ChunkRef × Nat)
  children : OrdMap String FileId
  deriving Inhabited

structure DirectoryTreeV3OnDisk where
  root : FileId
  nextFileId : FileId
  nextChunkId : ChunkId
  nextChunkGen : Nat
  freeChunks : List ChunkId
  inodes : OrdMap FileId InodeV3OnDisk
  deriving Inhabited

structure InodeV4OnDisk where
  id : FileId
  parent : FileId
  kind : InodeKind
  size : Nat
  mtimeNs : Nat
  chunks : List ChunkRef
  chunksExternal : Option (ChunkRef × Nat)
  children : OrdMap String FileId
  mode : Nat
  linkCount : Nat
  symlinkTarget : Option String
  deriving Inhabited

structure DirectoryTreeV4OnDisk where
  root : FileId
  nextFileId : FileId
  nextChunkId : ChunkId
  nextChunkGen : Nat
  freeChunks : List ChunkId
  inodes : OrdMap FileId InodeV4OnDisk
  deriving Inhabited

structure VaultSettingsOnDisk where
  maxVaultSize : Nat
  deriving DecidableEq, Inhabited

/-- A metadata plaintext: its magic and the value after it. -/
inductive Metadata where
  | empty
  | lbm2 (tree : DirectoryTree)
  | lbm3 (tree : DirectoryTreeV3OnDisk)
  | lbm4 (tree : DirectoryTreeV4OnDisk)
  | lbm5 (tree : DirectoryTreeV4OnDisk)
  | lbm6 (tree : DirectoryTreeV4OnDisk) (settings : VaultSettingsOnDisk)
  | unknown (len : Nat)
  deriving Inhabited

/-- What `serde(skip)` leaves of an inode: the fields LBM2 does not carry come
back as their defaults. -/
def Inode.skipFields (i : Inode) : Inode :=
  { i with
    cachedRealSize := none
    externalListBlocks := []
    mode := defaultFileMode
    linkCount := 1
    symlinkTarget := none }

def DirectoryTree.skipFields (t : DirectoryTree) : DirectoryTree :=
  { t with inodes := t.inodes.mapVals Inode.skipFields }

/-! ## Encoded lengths

Postcard writes an integer as a LEB128 varint, a sequence or map as its length
and its elements, an option or enum as a tag byte and the payload, and a
struct as its fields. -/

namespace Postcard

def varintLen (n : Nat) : Nat := Nat.log2 n / 7 + 1

def strLen (s : String) : Nat := varintLen s.utf8ByteSize + s.utf8ByteSize

def seqLen {α : Type} (elem : α → Nat) (l : List α) : Nat :=
  varintLen l.length + (l.map elem).sum

def optLen {α : Type} (elem : α → Nat) : Option α → Nat
  | none => 1
  | some a => 1 + elem a

def kindLen (_ : InodeKind) : Nat := 1

def chunkRefLen (r : ChunkRef) : Nat := varintLen r.id + varintLen r.generation

def childrenLen (m : OrdMap String FileId) : Nat :=
  seqLen (fun p : String × FileId => strLen p.1 + varintLen p.2) m.entries

def inodeLen (i : Inode) : Nat :=
  varintLen i.id + varintLen i.parent + kindLen i.kind + varintLen i.size + varintLen i.mtimeNs
    + seqLen chunkRefLen i.chunks + childrenLen i.children

def inodeV3Len (i : InodeV3OnDisk) : Nat :=
  varintLen i.id + varintLen i.parent + kindLen i.kind + varintLen i.size + varintLen i.mtimeNs
    + seqLen chunkRefLen i.chunks
    + optLen (fun p : ChunkRef × Nat => chunkRefLen p.1 + varintLen p.2) i.chunksExternal
    + childrenLen i.children

def inodeV4Len (i : InodeV4OnDisk) : Nat :=
  varintLen i.id + varintLen i.parent + kindLen i.kind + varintLen i.size + varintLen i.mtimeNs
    + seqLen chunkRefLen i.chunks
    + optLen (fun p : ChunkRef × Nat => chunkRefLen p.1 + varintLen p.2) i.chunksExternal
    + childrenLen i.children + varintLen i.mode + varintLen i.linkCount
    + optLen strLen i.symlinkTarget

/-- The counters and the free list, which all three tree shapes start with. -/
def treeHeadLen (root nextFileId nextChunkId nextChunkGen : Nat) (freeChunks : List ChunkId) : Nat :=
  varintLen root + varintLen nextFileId + varintLen nextChunkId + varintLen nextChunkGen
    + seqLen varintLen freeChunks

def treeLen (t : DirectoryTree) : Nat :=
  treeHeadLen t.root t.nextFileId t.nextChunkId t.nextChunkGen t.freeChunks
    + seqLen (fun p : FileId × Inode => varintLen p.1 + inodeLen p.2) t.inodes.entries

def treeV3Len (t : DirectoryTreeV3OnDisk) : Nat :=
  treeHeadLen t.root t.nextFileId t.nextChunkId t.nextChunkGen t.freeChunks
    + seqLen (fun p : FileId × InodeV3OnDisk => varintLen p.1 + inodeV3Len p.2) t.inodes.entries

def treeV4Len (t : DirectoryTreeV4OnDisk) : Nat :=
  treeHeadLen t.root t.nextFileId t.nextChunkId t.nextChunkGen t.freeChunks
    + seqLen (fun p : FileId × InodeV4OnDisk => varintLen p.1 + inodeV4Len p.2) t.inodes.entries

def settingsLen (s : VaultSettingsOnDisk) : Nat := varintLen s.maxVaultSize

end Postcard

/-- The decoder cap: 64 MiB. -/
def metadataDecodeLimitBytes : Nat := 64 * 1024 * 1024

def metadataMagicLen : Nat := 4

/-- Nonce, length field and tag around the metadata ciphertext. -/
def metadataOverhead : Nat := 12 + 8 + 16

/-- Bytes after the magic. -/
def Metadata.payloadLen : Metadata → Nat
  | .empty => 0
  | .lbm2 t => Postcard.treeLen t
  | .lbm3 t => Postcard.treeV3Len t
  | .lbm4 t => Postcard.treeV4Len t
  | .lbm5 t => Postcard.treeV4Len t
  | .lbm6 t s => Postcard.treeV4Len t + Postcard.settingsLen s
  | .unknown n => n

/-- Length of the whole plaintext. -/
def Metadata.len : Metadata → Nat
  | .empty => 0
  | .unknown n => n
  | m => metadataMagicLen + m.payloadLen

/-- The largest payload that fits a metadata region of the given size. -/
def payloadBudgetFor (regionSize : Nat) : Nat := regionSize - metadataOverhead - metadataMagicLen

end Luksbox
