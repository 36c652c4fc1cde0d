import Luksbox.Model.Open

/-!
# Vault size: limit, report, shrink, finish (`luksbox-vfs/src/vfs.rs`)

`shrink` flushes, lowers `next_chunk_id` to one past the last slot in use,
flushes that, and cuts the file. It counts on the first flush having emptied
`pendingFree`; a flush of a clean tree returns without doing so.
-/

namespace Luksbox

open Lib

structure SpaceReport where
  fileSize : Nat
  fixedSize : Nat
  used : Nat
  freeInside : Nat
  reclaimable : Nat
  maxSize : Nat
  deriving DecidableEq

namespace Vfs

def minimumVaultSize (s : Vfs) : Nat := min (s.dataOffset + chunkSlotSize) u64Max

def setMaxVaultSize (bytes : Nat) : VfsM Unit := do
  ensureWritable
  let s ← get
  if bytes ≠ 0 ∧ s.format ≠ .v5 then throw (.err .maxSizeNeedsCurrentFormat)
  else if bytes ≠ 0 ∧ bytes < s.minimumVaultSize then
    throw (.err (.maxSizeBelowMinimum bytes s.minimumVaultSize))
  else if bytes ≠ s.maxVaultSize then
    set { s with maxVaultSize := bytes, dirty := true }
  else pure ()

def setShrinkMode (mode : ShrinkOnFinish) : VfsM Unit :=
  modify fun s => { s with shrinkMode := mode }

/-- The largest of the numbers, each computed by an addition that may panic. -/
def maxEnd : List ChunkRef → Except Failure Nat
  | [] => .ok 0
  | c :: rest => do
      let stop ← addU c.id 1
      let more ← maxEnd rest
      .ok (max stop more)

/-- Highest chunk slot in use plus one. -/
def firstUnusedTailSlot (tree : DirectoryTree) : Except Failure ChunkId :=
  maxEnd (tree.inodes.values.flatMap fun inode => inode.chunks ++ inode.externalListBlocks)

/-- A sum that panics where a `u64` would overflow. -/
def sumU : List Nat → Except Failure Nat
  | [] => .ok 0
  | n :: rest => do
      let more ← sumU rest
      addU n more

def spaceReport : VfsM SpaceReport := do
  let fileSize ← onContainer Container.dataFileLen
  let s ← get
  let slots ← fromExcept (s.tree.inodes.values.mapM fun inode =>
    addU inode.chunks.length inode.externalListBlocks.length)
  let usedSlots ← fromExcept (sumU slots)
  let freeSlots ← fromExcept (addU s.tree.freeChunks.length s.pendingFree.length)
  let tail ← fromExcept (firstUnusedTailSlot s.tree)
  let keep ← fromExcept (slotOffset s.dataOffset tail)
  pure {
    fileSize := fileSize
    fixedSize := s.dataOffset
    used := min (usedSlots * chunkSlotSize) u64Max
    freeInside := min (freeSlots * chunkSlotSize) u64Max
    reclaimable := fileSize - keep
    maxSize := s.maxVaultSize }

/-- Drop the free slots from `keep` on and lower the next id to it. -/
def lowerNextChunkId (keep : ChunkId) (s : Vfs) : Vfs :=
  { s with
    tree := { s.tree with
      freeChunks := s.tree.freeChunks.filter fun slot => decide (slot < keep)
      nextChunkId := keep }
    dirty := true }

def shrinkTail : VfsM Nat := do
  flush
  let s ← get
  let keep ← fromExcept (firstUnusedTailSlot s.tree)
  if keep < s.tree.nextChunkId then do
    modify (lowerNextChunkId keep)
    flush
  let s ← get
  let newLen ← fromExcept (slotOffset s.dataOffset s.tree.nextChunkId)
  let oldLen ← onContainer Container.dataFileLen
  if oldLen ≤ newLen then pure 0
  else do
    onContainer (Container.truncateDataFile newLen)
    pure (oldLen - newLen)

def shrink : VfsM Nat := do
  ensureWritable
  let s ← get
  if s.container.deniable then throw (.err .shrinkDeniable)
  else shrinkTail

def shrinkAllowDeniable : VfsM Nat := do
  ensureWritable
  shrinkTail

/-- What `finish` decides to do with the free space at the end. -/
def giveBack : VfsM Bool := do
  let s ← get
  match s.shrinkMode with
  | .keep => pure false
  | .giveBack => pure true
  | .ask atLeast => do
      let report ← spaceReport
      let s ← get
      pure (decide (report.reclaimable ≥ max atLeast 1) && s.container.env.shrinkAnswer)

def finish : VfsM Nat := do
  flush
  let s ← get
  if s.container.deniable = true ∨ s.toleratedInodes ≠ [] then pure 0
  else do
    if ← giveBack then shrink else pure 0

end Vfs

end Luksbox
