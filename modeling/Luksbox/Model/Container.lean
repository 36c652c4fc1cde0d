import Luksbox.Lib.Wp
import Luksbox.Model.Chunk
import Luksbox.Model.Metadata
import Mathlib.Logic.Function.Basic

/-!
# The container (`luksbox-format/src/container.rs`, `luksbox-vfs/src/chunk.rs`)

The part of a container the VFS reaches: the header fields it reads, the chunk
slots of the data area, the metadata region with its `.meta-bak` mirror, and
the anchor.

A slot is what it opens to. `Slot` maps a file key and an AAD to the plaintext
the AEAD returns for them, or to nothing; sealing gives a slot that opens
under exactly the key and AAD it was sealed with, and a slot nobody sealed may
answer anything. The fresh nonce of every write lives inside the slot and
needs no name.

Everything the surroundings decide is in `Env`: which of the coming I/O calls
fails and what a failing write leaves behind, the clock, the random padding,
the two environment variables and the answer to the shrink question. Each I/O call takes the next `Fault` off
the list; an empty list means that nothing fails any more.

What a crash may do is recorded next to the current contents: `slotsMaybe` and
`liveMaybe` list every value a slot or the metadata region may have after a
power loss, which is the value at the last `sync_all` and each write since.
`history` and `seals` are not in the source: they list the metadata commits and
the chunks sealed, newest first, for the properties about whole runs.
-/

namespace Luksbox

open Lib

/-- A per-file key: `HKDF(mvk, header_salt, "lbx:file/v1:" ‖ file_id)`. -/
structure SubKey where
  mvk : Nat
  headerSalt : Nat
  fileId : FileId
  deriving DecidableEq, Inhabited

/-- A chunk slot, as what it decrypts to. -/
abbrev Slot := SubKey → Aad → Option Chunk

namespace Slot

/-- A slot no key opens. -/
def garbage : Slot := fun _ _ => none

/-- `nonce ‖ aead::seal(key, nonce, aad, pt)`. -/
def sealed (key : SubKey) (aad : Aad) (pt : Chunk) : Slot := fun k a =>
  if k = key ∧ a = aad then some pt else none

end Slot

/-- One call of `write_chunk`: what it sealed, under which key and AAD. -/
structure Seal where
  key : SubKey
  aad : Aad
  pt : Chunk

/-- The metadata region or its mirror: the plaintext it authenticates to. -/
abbrev Region := Option Metadata

structure Header where
  versionMajor : Nat
  hideSizeHeader : Bool
  padFilesPow2 : Bool
  metadataSize : Nat
  dataOffset : Nat
  deriving DecidableEq, Inhabited

def versionMajorV1 : Nat := 1

def versionMajorV2 : Nat := 2

/-- How one I/O call ends. `torn` fails after writing `written` bytes and
leaves the slot it was writing as `left`; `after` fails although all of its
effect happened. -/
inductive Fault where
  | ok
  | before
  | torn (left : Slot) (written : Nat)
  | after

structure Env where
  io : List Fault
  nowNs : Nat
  padding : Chunk
  useV3ForFreshVault : Bool
  tolerateBadChunkLists : Bool
  shrinkAnswer : Bool

/-- Surroundings in which nothing fails. -/
def Env.quiet : Env where
  io := []
  nowNs := 0
  padding := Chunk.zero
  useV3ForFreshVault := true
  tolerateBadChunkLists := false
  shrinkAnswer := true

/-- One call of `write_metadata`: the tree it serialised, the plaintext, the
slots as they were, and whether the call returned. -/
structure Commit where
  tree : DirectoryTree
  blob : Metadata
  slots : ChunkId → Slot
  done : Bool

structure Container where
  header : Header
  deniable : Bool
  mvk : Nat
  headerSalt : Nat
  slots : ChunkId → Slot
  slotsMaybe : ChunkId → List Slot
  fileLen : Nat
  live : Region
  liveMaybe : List Region
  mirror : Region
  metadataRecovered : Bool
  anchor : Option Nat
  /-- The header generation the anchor recorded with it. -/
  anchorHeader : Option Nat
  /-- `header_generation()`, which the header half keeps up to date. -/
  headerGeneration : Option Nat
  env : Env
  history : List Commit
  seals : List Seal

abbrev ContainerM := EStateM Failure Container

namespace Container

/-- A container as the `create_*` functions leave it: the metadata region is
sealed over no bytes, there is no mirror yet and the data area is empty. -/
def created (header : Header) (deniable : Bool) (mvk headerSalt : Nat) : Container where
  header := header
  deniable := deniable
  mvk := mvk
  headerSalt := headerSalt
  slots := fun _ => Slot.garbage
  slotsMaybe := fun _ => [Slot.garbage]
  fileLen := header.dataOffset
  live := some .empty
  liveMaybe := [some .empty]
  mirror := none
  metadataRecovered := false
  anchor := none
  anchorHeader := none
  headerGeneration := none
  env := Env.quiet
  history := []
  seals := []

/-- Mirrors are kept from LUKSBOX2 on, and never for a deniable vault. -/
def isV2Format (c : Container) : Bool :=
  decide (c.header.versionMajor ≥ versionMajorV2) && !c.deniable

/-- The next fault of the schedule. -/
def nextFault : ContainerM Fault := fun c =>
  match c.env.io with
  | [] => .ok .ok c
  | f :: rest => .ok f { c with env := { c.env with io := rest } }

def ioError : Failure := .err (.format .io)

/-- A call that reads or syncs and has no effect when it fails. -/
def ioCall : ContainerM Unit := do
  match ← nextFault with
  | .ok => pure ()
  | _ => throw ioError

/-- Slot `id`, whose first byte is at `off`, now holds `s`. -/
def storeSlot (c : Container) (off : Nat) (id : ChunkId) (s : Slot) (written : Nat) : Container :=
  { c with
    slots := Function.update c.slots id s
    slotsMaybe := Function.update c.slotsMaybe id (s :: c.slotsMaybe id)
    fileLen := max c.fileLen (off + written) }

/-- `write_at` of a whole slot. -/
def writeAt (off : Nat) (id : ChunkId) (s : Slot) : ContainerM Unit := do
  match ← nextFault with
  | .ok => modify fun c => c.storeSlot off id s chunkSlotSize
  | .before => throw ioError
  | .torn left written => do
      modify fun c => c.storeSlot off id left (min written chunkSlotSize)
      throw ioError
  | .after => do
      modify fun c => c.storeSlot off id s chunkSlotSize
      throw ioError

/-- `read_at` of a whole slot: `read_exact` fails past the end of the file. -/
def readAt (off : Nat) (id : ChunkId) : ContainerM Slot := do
  ioCall
  let c ← get
  if off + chunkSlotSize > c.fileLen then throw ioError
  else pure (c.slots id)

/-- Every write so far has reached the disk. -/
def synced (c : Container) : Container :=
  { c with
    slotsMaybe := fun id => [c.slots id]
    liveMaybe := [c.live] }

/-- `file.sync_all()`. -/
def syncAll : ContainerM Unit := do
  match ← nextFault with
  | .ok => modify synced
  | .after => do
      modify synced
      throw ioError
  | _ => throw ioError

def syncDataArea : ContainerM Unit := syncAll

def dataFileLen : ContainerM Nat := do
  ioCall
  let c ← get
  pure c.fileLen

/-- Cut the file to `len` bytes; the slots past the cut are gone. -/
def cutTo (c : Container) (len : Nat) : Container :=
  { c with
    slots := fun id => if c.header.dataOffset + (id + 1) * chunkSlotSize > len
      then Slot.garbage else c.slots id
    slotsMaybe := fun id => if c.header.dataOffset + (id + 1) * chunkSlotSize > len
      then Slot.garbage :: c.slotsMaybe id else c.slotsMaybe id
    fileLen := len }

def truncateDataFile (len : Nat) : ContainerM Unit := do
  let c ← get
  if len < c.header.dataOffset then throw ioError
  else do
    match ← nextFault with
    | .ok => modify fun c => c.cutTo len
    | .after => do
        modify fun c => c.cutTo len
        throw ioError
    | _ => throw ioError
    syncAll

/-! ## Metadata -/

/-- `write_metadata_mirror`: temp file, fsync, rename, fsync of the directory.
The mirror holds the old bytes or the new ones, never a mixture. -/
def writeMetadataMirror (m : Metadata) : ContainerM Unit := do
  match ← nextFault with
  | .ok => modify fun c => { c with mirror := some m }
  | .after => do
      modify fun c => { c with mirror := some m }
      throw ioError
  | _ => throw ioError

/-- The overwrite of the live region. -/
def writeLive (m : Metadata) : ContainerM Unit := do
  match ← nextFault with
  | .ok => modify fun c => { c with live := some m, liveMaybe := some m :: c.liveMaybe }
  | .before => throw ioError
  | .torn _ _ => do
      modify fun c => { c with live := none, liveMaybe := none :: c.liveMaybe }
      throw ioError
  | .after => do
      modify fun c => { c with live := some m, liveMaybe := some m :: c.liveMaybe }
      throw ioError

/-- Seal the metadata into the mirror first, then into the live region. -/
def writeMetadata (m : Metadata) : ContainerM Unit := do
  let c ← get
  if m.len + metadataOverhead > c.header.metadataSize then
    throw (.err (.format .metadataTooLarge))
  else do
    if c.isV2Format then writeMetadataMirror m
    writeLive m
    syncAll
    ioCall

/-- The live region if it authenticates, else the mirror. -/
def readMetadata : ContainerM Metadata := do
  ioCall
  let c ← get
  match c.live with
  | some m => pure m
  | none =>
      match c.mirror with
      | none => throw (.err (.format .metadataCorrupt))
      | some m => do
          -- a mirror that cannot be read surfaces the error of the live region
          match ← attempt ioCall with
          | .error _ => throw (.err (.format .metadataCorrupt))
          | .ok _ => do
              modify fun c => { c with metadataRecovered := true }
              pure m

def clearMetadataRecoveredFlag : ContainerM Unit :=
  modify fun c => { c with metadataRecovered := false }

/-- Advance the anchor, if one is attached. -/
def writeAnchor (generation : Nat) : ContainerM Unit := do
  let c ← get
  match c.anchor with
  | none => pure ()
  | some _ => do
      ioCall
      modify fun c => { c with anchor := some generation, anchorHeader := c.headerGeneration }

/-! ## Chunks -/

def fileKey (c : Container) (fileId : FileId) : SubKey := ⟨c.mvk, c.headerSalt, fileId⟩

def listFileKey (c : Container) (fileId : FileId) : SubKey := c.fileKey (listFileId fileId)

/-- The bookkeeping of `Container.seals`. -/
def withSeal (x : Seal) (c : Container) : Container := { c with seals := x :: c.seals }

/-- Read and decrypt one chunk slot. -/
def readChunk (key : SubKey) (fileId chunkIdx : Nat) (chunk : ChunkRef) : ContainerM Chunk := do
  let c ← get
  let off ← fromExcept (slotOffset c.header.dataOffset chunk.id)
  let slot ← readAt off chunk.id
  match slot key (chunkAad fileId chunkIdx chunk.generation) with
  | some pt => pure pt
  | none => throw (.err .crypto)

/-- Encrypt and write one chunk slot. -/
def writeChunk (key : SubKey) (fileId chunkIdx : Nat) (chunk : ChunkRef) (pt : Chunk) :
    ContainerM Unit := do
  let c ← get
  let off ← fromExcept (slotOffset c.header.dataOffset chunk.id)
  modify (withSeal ⟨key, chunkAad fileId chunkIdx chunk.generation, pt⟩)
  writeAt off chunk.id (Slot.sealed key (chunkAad fileId chunkIdx chunk.generation) pt)

def writeChunkListBlock (fileId blockIdx : Nat) (chunk : ChunkRef) (entries : List ChunkRef)
    (next : Option ChunkRef) : ContainerM Unit := do
  let c ← get
  let plaintext ← fromExcept (encodeChunkListBlock c.env.padding entries next)
  writeChunk (c.listFileKey fileId) (listFileId fileId) blockIdx chunk plaintext

/-- `MAX_FILE_SIZE / CHUNK_PLAINTEXT_SIZE`, the longest chain a reader walks. -/
def maxLegitimateChunkCount : Nat := 2 ^ 44 / 4096

/-- The loop of `walk_chunk_list_chain`. `budget` is
`max_blocks - list_blocks.len()`: at zero one more block is refused. -/
def walkChunkListLoop (fileId maxEntries : Nat) :
    Nat → Nat → Option ChunkRef → List ChunkRef → List ChunkRef →
    ContainerM (List ChunkRef × List ChunkRef)
  | _, _, none, entries, listBlocks => pure (entries, listBlocks)
  | 0, _, some _, _, _ => throw (.err .crypto)
  | budget + 1, blockIdx, some cref, entries, listBlocks => do
      let c ← get
      let pt ← readChunk (c.listFileKey fileId) (listFileId fileId) blockIdx cref
      let (blockEntries, next) ← fromExcept (parseChunkListBlock pt)
      if entries.length + blockEntries.length > max maxEntries 1 then throw (.err .crypto)
      else if blockIdx + 1 > u32Max then throw (.err .offsetOverflow)
      else
        walkChunkListLoop fileId maxEntries budget (blockIdx + 1) next
          (entries ++ blockEntries) (listBlocks ++ [cref])

/-- Walk a chunk-list chain: the data refs and the refs of its blocks. -/
def walkChunkListChain (fileId : FileId) (head : ChunkRef) (expectedCount : Nat) :
    ContainerM (List ChunkRef × List ChunkRef) := do
  if expectedCount > maxLegitimateChunkCount then throw (.err .crypto)
  else do
    let maxBlocks :=
      (expectedCount + chunkListEntriesPerBlock - 1) / chunkListEntriesPerBlock + 2
    let (entries, listBlocks) ← walkChunkListLoop fileId expectedCount maxBlocks 0 (some head) [] []
    if entries.length ≠ expectedCount then throw (.err .crypto)
    else pure (entries, listBlocks)

end Container

end Luksbox
