import Luksbox.Model.Container
import Luksbox.Model.Validate

/-!
# The VFS state and its small steps (`luksbox-vfs/src/vfs.rs`)

A method that takes `&mut self` and returns a `Result` is a program in `VfsM`:
it leaves the state as far as it got, whether it returns or fails. The small
steps here are the ones every method is made of: looking an inode up, updating
it, and taking the next file id, generation or chunk slot.

Arithmetic the source leaves unchecked goes through `addU`, `subU` and `mulU`,
which panic where the machine operation would overflow. Arithmetic the source
checks or saturates is written out.
-/

namespace Luksbox

open Lib

/-- What `finish` does with the free space at the end of the file. -/
inductive ShrinkOnFinish where
  | keep
  | giveBack
  | ask (min : Nat)
  deriving DecidableEq, Inhabited

/-- The VFS. The warning latches of the source are left out: they decide only
what is printed. -/
structure Vfs where
  container : Container
  tree : DirectoryTree
  dirty : Bool
  format : MetadataFormat
  toleratedInodes : List FileId
  chunksDirty : Finset FileId
  pendingFree : List ChunkId
  cowFloorGen : Nat
  maxVaultSize : Nat
  shrinkMode : ShrinkOnFinish

abbrev VfsM := EStateM Failure Vfs

def pendingFreeFlushThreshold : Nat := 65536

def pendingFreeRecycleMin : Nat := 1024

def maxFileSize : Nat := 2 ^ 44

/-! ## Unchecked arithmetic and indexing -/

def addU (a b : Nat) : Except Failure Nat :=
  if a + b > u64Max then .error .panic else .ok (a + b)

def subU (a b : Nat) : Except Failure Nat :=
  if a < b then .error .panic else .ok (a - b)

def mulU (a b : Nat) : Except Failure Nat :=
  if a * b > u64Max then .error .panic else .ok (a * b)

/-- `l[i]`. -/
def index {α : Type} (l : List α) (i : Nat) : Except Failure α :=
  match l[i]? with
  | some a => .ok a
  | none => .error .panic

/-- `l[a..b].to_vec()`. -/
def sliceList {α : Type} (l : List α) (a b : Nat) : Except Failure (List α) :=
  if a > b ∨ b > l.length then .error .panic else .ok ((l.drop a).take (b - a))

/-- `pt[a..b]` of a chunk plaintext: only the bounds are checked here. -/
def checkSlice (a b : Nat) : Except Failure Unit :=
  if a > b ∨ b > chunkPlaintextSize then .error .panic else .ok ()

namespace Vfs

/-! ## State access -/

def onContainer {α : Type} (m : ContainerM α) : VfsM α :=
  zoom Vfs.container (fun s c => { s with container := c }) m

def orThrow {α : Type} (e : Failure) : Option α → VfsM α
  | some a => pure a
  | none => throw e

/-- `inodes.get(&id).ok_or(e)?`, and with `e := .panic` the same with `unwrap`. -/
def inodeOr (e : Failure) (id : FileId) : VfsM Inode := do
  let s ← get
  orThrow e (s.tree.inodes.get? id)

/-- `*inodes.get_mut(&id).unwrap() = f(..)`. -/
def updateInode (id : FileId) (f : Inode → Inode) : VfsM Unit := do
  let inode ← inodeOr .panic id
  modify fun s => { s with tree := { s.tree with inodes := s.tree.inodes.insert id (f inode) } }

def requireDir (id : FileId) : VfsM Inode := do
  let inode ← inodeOr (.err .notFound) id
  if inode.kind ≠ .directory then throw (.err .notADirectory)
  else pure inode

/-- Refuse mutation on a recovered (lossy) instance. -/
def ensureWritable : VfsM Unit := do
  let s ← get
  if s.toleratedInodes ≠ [] then throw (.err .readOnlyMount)
  else pure ()

def markDirty : VfsM Unit := modify fun s => { s with dirty := true }

/-- `pending_free.extend(ids)`. -/
def pushPending (ids : List ChunkId) : VfsM Unit :=
  modify fun s => { s with pendingFree := s.pendingFree ++ ids }

def nowNs : VfsM Nat := do
  let s ← get
  pure s.container.env.nowNs

def dataOffset (s : Vfs) : Nat := s.container.header.dataOffset

def hideSize (s : Vfs) : Bool := s.container.header.hideSizeHeader

def paddingOn (s : Vfs) : Bool := s.container.header.padFilesPow2

/-! ## Allocation -/

/-- Take the result of one of the tree's counters, or fail. -/
def alloc (next : DirectoryTree → Option (Nat × DirectoryTree)) : VfsM Nat := do
  let s ← get
  match next s.tree with
  | none => throw (.err .idSpaceExhausted)
  | some (n, tree) => do
      set { s with tree := tree }
      pure n

def allocFileId : VfsM FileId := alloc DirectoryTree.allocFileId

def allocChunkGen : VfsM Nat := alloc DirectoryTree.allocChunkGen

def allocChunkId : VfsM ChunkId := alloc DirectoryTree.allocChunkId

end Vfs

end Luksbox
