import Luksbox.Model.Flush

/-!
# Reading and writing files (`luksbox-vfs/src/vfs.rs`)

A file is a list of 4 KiB chunks. When sizes are hidden the first eight bytes
of chunk 0 hold the real size, and the file's own bytes start after them; when
padding is on the chunk count is rounded up to a power of two.

`write` and `truncate` work on local copies of the chunk refs and put them into
the inode last. What they leave behind when they fail on the way is spelled out
by the model exactly as by the source: slots that go back to `pendingFree`,
slots that are lost, and chunks that were rewritten in their own slot.

The loops of the source run over a range of chunk indices; here they recurse
on the list of these indices. A chunk index is cast to `u32` where it enters
the AAD (`% 2 ^ 32`).
-/

namespace Luksbox

open Lib

/-! ## Addressing -/

def nextPowerOfTwo (n : Nat) : Nat := if n ≤ 1 then 1 else 2 ^ (Nat.log2 (n - 1) + 1)

def paddedChunkCount (needed : Nat) (paddingOn : Bool) : Except Failure Nat :=
  if paddingOn = false ∨ needed ≤ 1 then .ok needed
  else if nextPowerOfTwo needed > 2 ^ 63 then .error .panic
  else .ok (nextPowerOfTwo needed)

/-- The chunk of a file byte and its position in that chunk. -/
def fileToChunk (offset : Nat) (hideSize : Bool) : Except Failure (Nat × Nat) :=
  let total := if hideSize then offset + sizeHeaderLen else offset
  if total > u64Max then .error (.err .offsetOverflow)
  else .ok (total / chunkPlaintextSize, total % chunkPlaintextSize)

/-- The file bytes a chunk holds: first, and one past the last. -/
def chunkFileRange (chunkIdx : Nat) (hideSize : Bool) : Except Failure (Nat × Nat) :=
  if hideSize ∧ chunkIdx = 0 then .ok (0, chunkPlaintextSize - sizeHeaderLen)
  else
    let start := if hideSize
      then chunkPlaintextSize - sizeHeaderLen + (chunkIdx - 1) * chunkPlaintextSize
      else chunkIdx * chunkPlaintextSize
    if start + chunkPlaintextSize > u64Max then .error (.err .offsetOverflow)
    else .ok (start, start + chunkPlaintextSize)

/-- Where the file's bytes start in a chunk. -/
def dataStart (chunkIdx : Nat) (hideSize : Bool) : Nat :=
  if hideSize ∧ chunkIdx = 0 then sizeHeaderLen else 0

/-- `first..=last` of the loops over chunks. -/
def chunksThrough (first last : Nat) : List Nat := List.range' first (last + 1 - first)

/-- The part of chunk `chunkIdx` that the file range `offset..stop` covers, as
positions in the chunk. `offset` or `stop` lies in the chunk or beyond it. -/
def coveredPart (chunkIdx offset stop : Nat) (hideSize : Bool) : Except Failure (Nat × Nat) := do
  let (cfs, cfe) ← chunkFileRange chunkIdx hideSize
  let inChunkOffset := max offset cfs - cfs
  let inChunkEnd := min stop cfe - cfs
  let _ ← subU inChunkEnd inChunkOffset
  let start ← addU (dataStart chunkIdx hideSize) inChunkOffset
  let stop ← addU (dataStart chunkIdx hideSize) inChunkEnd
  .ok (start, stop)

/-- The same for a range that is to be cleared, `none` when it misses the
chunk. -/
def holePart (chunkIdx lo hi : Nat) (hideSize : Bool) : Except Failure (Option (Nat × Nat)) := do
  let (cfs, cfe) ← chunkFileRange chunkIdx hideSize
  let zs := max lo cfs - cfs
  let ze := min hi cfe - cfs
  if zs ≥ ze then .ok none
  else
    let start ← addU (dataStart chunkIdx hideSize) zs
    let stop ← addU (dataStart chunkIdx hideSize) ze
    .ok (some (start, stop))

def installSizeHeader (buf : Chunk) (size : Nat) : Chunk := buf.overlay 0 (leBytes sizeHeaderLen size)

def sizeHeaderOf (buf : Chunk) : Nat := leNat (buf.slice 0 sizeHeaderLen)

namespace Vfs

/-! ## Chunk access -/

def readChunk (id : FileId) (chunkIdx : Nat) (chunk : ChunkRef) : VfsM Chunk := do
  let s ← get
  onContainer (Container.readChunk (s.container.fileKey id) id (chunkIdx % 2 ^ 32) chunk)

def writeChunk (id : FileId) (chunkIdx : Nat) (chunk : ChunkRef) (pt : Chunk) : VfsM Unit := do
  let s ← get
  onContainer (Container.writeChunk (s.container.fileKey id) id (chunkIdx % 2 ^ 32) chunk pt)

/-! ## Slots -/

/-- File offset just past a slot. -/
def slotEnd (s : Vfs) (id : ChunkId) : Except Failure Nat := do
  let off ← slotOffset s.dataOffset id
  if off + chunkSlotSize > u64Max then .error (.err .idSpaceExhausted)
  else .ok (off + chunkSlotSize)

/-- Whether the next slot past the end would exceed the maximum size. -/
def overLimit : VfsM Bool := do
  let s ← get
  let stop ← fromExcept (s.slotEnd s.tree.nextChunkId)
  pure (decide (stop > s.maxVaultSize))

/-- Under the limit, or out of slots: fail if the vault has to grow past its
maximum. -/
def checkLimit : VfsM Unit := do
  let s ← get
  if s.tree.freeChunks = [] then do
    if ← overLimit then throw (.err (.vaultSizeLimit s.maxVaultSize))
    else pure ()
  else pure ()

/-- Slot for a new data chunk. Before the limit is enforced, a flush turns
retired slots into free ones if at least `recycleMin` are waiting. -/
def allocSlot (recycleMin : Nat) : VfsM ChunkId := do
  let s ← get
  if s.maxVaultSize ≠ 0 ∧ s.tree.freeChunks = [] then do
    let past ← overLimit
    if past = true ∧ s.pendingFree.length ≥ max recycleMin 1 then flush
    checkLimit
    allocChunkId
  else allocChunkId

/-- New ref for rewriting an existing chunk, and the slot this retires. -/
def rewriteTarget (cur : ChunkRef) : VfsM (ChunkRef × Option ChunkId) := do
  let generation ← allocChunkGen
  let s ← get
  if cur.generation ≥ s.cowFloorGen then pure (⟨cur.id, generation⟩, none)
  else
    match ← attempt (allocSlot pendingFreeRecycleMin) with
    | .ok id => pure (⟨id, generation⟩, some cur.id)
    | .error (.err (.vaultSizeLimit _)) => pure (⟨cur.id, generation⟩, none)
    | .error e => throw e

/-- Rewrite a chunk this call appended, in its own slot. -/
def rewriteInPlace (id : FileId) (idx : Nat) (cur : ChunkRef) (pt : Chunk) : VfsM ChunkRef := do
  let generation ← allocChunkGen
  writeChunk id idx ⟨cur.id, generation⟩ pt
  pure ⟨cur.id, generation⟩

/-- Write the new contents of an existing chunk, copy-on-write. -/
def rewriteChunk (id : FileId) (idx : Nat) (cur : ChunkRef) (pt : Chunk) :
    VfsM (ChunkRef × Option ChunkId) := do
  let (newRef, retired) ← rewriteTarget cur
  match ← attempt (writeChunk id idx newRef pt) with
  | .ok _ => pure (newRef, retired)
  | .error e => do
      -- the fresh slot is recorded nowhere: hand it back
      if retired.isSome then pushPending [newRef.id]
      throw e

/-! ## Sizes -/

/-- The logical length of a file; read from chunk 0 when sizes are hidden. -/
def realSize (id : FileId) : VfsM Nat := do
  let inode ← inodeOr (.err .notFound) id
  let s ← get
  if inode.kind ≠ .file then pure 0
  else if s.hideSize = false then pure inode.size
  else
    match inode.cachedRealSize with
    | some size => pure size
    | none =>
        match inode.chunks with
        | [] => do
            updateInode id fun inode => { inode with cachedRealSize := some 0 }
            pure 0
        | chunk0 :: _ => do
            let pt ← readChunk id 0 chunk0
            let size := sizeHeaderOf pt
            let capacity := inode.chunks.length * chunkPlaintextSize
            if capacity > u64Max ∨ capacity < sizeHeaderLen then
              throw (.err .metadataDeserialize)
            else if size > capacity - sizeHeaderLen then throw (.err .metadataDeserialize)
            else do
              updateInode id fun inode => { inode with cachedRealSize := some size }
              pure size

structure Stat where
  id : FileId
  kind : InodeKind
  size : Nat
  mtimeNs : Nat
  mode : Nat
  linkCount : Nat
  deriving DecidableEq

def stat (id : FileId) : VfsM Stat := do
  let size ← realSize id
  let inode ← inodeOr (.err .notFound) id
  pure { id := inode.id, kind := inode.kind, size := size, mtimeNs := inode.mtimeNs
         mode := inode.mode, linkCount := inode.linkCount }

/-! ## Read -/

/-- The loop of `read`; `out` is what has been copied to the buffer so far. -/
def readLoop (id : FileId) (covered : List ChunkRef) (firstChunk offset readEnd bufLen : Nat)
    (hideSize : Bool) : List Nat → List UInt8 → VfsM (List UInt8)
  | [], out => pure out
  | chunkIdx :: rest, out => do
      let (start, stop) ← fromExcept (coveredPart chunkIdx offset readEnd hideSize)
      let pos ← fromExcept (subU chunkIdx firstChunk)
      let chunk ← fromExcept (index covered pos)
      let pt ← readChunk id chunkIdx chunk
      fromExcept (checkSlice start stop)
      let filled ← fromExcept (addU out.length (stop - start))
      if filled > bufLen then throw .panic
      else
        readLoop id covered firstChunk offset readEnd bufLen hideSize rest
          (out ++ pt.slice start stop)

/-- Read up to `bufLen` bytes at `offset`: the count, and the bytes put at the
start of the buffer. -/
def read (id : FileId) (offset bufLen : Nat) : VfsM (Nat × List UInt8) := do
  let real ← realSize id
  let inode ← inodeOr (.err .notFound) id
  if inode.kind ≠ .file then throw (.err .notAFile)
  else if offset ≥ real ∨ bufLen = 0 then pure (0, [])
  else if offset + bufLen > u64Max then throw (.err .offsetOverflow)
  else do
    let readEnd := min (offset + bufLen) real
    let readLen ← fromExcept (subU readEnd offset)
    let s ← get
    let (firstChunk, _) ← fromExcept (fileToChunk offset s.hideSize)
    let lastByte ← fromExcept (subU readEnd 1)
    let (lastChunk, _) ← fromExcept (fileToChunk lastByte s.hideSize)
    let inode ← inodeOr (.err .notFound) id
    let stop ← fromExcept (addU lastChunk 1)
    let covered ← fromExcept (sliceList inode.chunks firstChunk stop)
    let out ← readLoop id covered firstChunk offset readEnd bufLen s.hideSize
      (chunksThrough firstChunk lastChunk) []
    pure (readLen, out)

/-! ## Extending -/

/-- Append zero-filled chunks until `missing` more are there. `growFrom` is the
number of chunks the file had. On failure every slot taken here goes back. -/
def extendWithZeros (id : FileId) (growFrom : Nat) : Nat → List ChunkRef → VfsM (List ChunkRef)
  | 0, appended => pure appended
  | missing + 1, appended => do
      match ← attempt (allocSlot 1) with
      | .error e => do
          pushPending (appended.map ChunkRef.id)
          throw e
      | .ok slot => do
          let generation ← allocChunkGen
          let chunkIdx ← fromExcept (addU growFrom appended.length)
          match ← attempt (writeChunk id chunkIdx ⟨slot, generation⟩ Chunk.zero) with
          | .error e => do
              pushPending [slot]
              pushPending (appended.map ChunkRef.id)
              throw e
          | .ok _ => extendWithZeros id growFrom missing (appended ++ [⟨slot, generation⟩])

/-! ## Scrubbing -/

/-- Clear the bytes `start..stop` of one existing chunk; `none` when they are
zero already. -/
def scrubChunk (id : FileId) (idx : Nat) (cur : ChunkRef) (start stop : Nat) :
    VfsM (Option (ChunkRef × Option ChunkId)) := do
  let pt ← readChunk id idx cur
  fromExcept (checkSlice start stop)
  if (pt.slice start stop).all (· == 0) then pure none
  else do
    let rewritten ← rewriteChunk id idx cur (pt.fill start stop)
    pure (some rewritten)

/-- What a `write` has rewritten so far: new refs of existing chunks, and the
slots these rewrites retired. -/
structure Rewrites where
  updates : List (Nat × ChunkRef)
  retired : List ChunkId

/-- Record the rewrite of existing chunk `idx`. -/
def Rewrites.push (r : Rewrites) (idx : Nat) (newRef : ChunkRef) (old : Option ChunkId) : Rewrites where
  updates := r.updates ++ [(idx, newRef)]
  retired := r.retired ++ old.toList

/-- The hole of a write past the end, in the chunks before its first one. -/
def scrubGap (id : FileId) (oldReal offset : Nat) (hideSize : Bool) :
    List Nat → Rewrites → VfsM Rewrites
  | [], done => pure done
  | idx :: rest, done => do
      match ← fromExcept (holePart idx oldReal offset hideSize) with
      | none => scrubGap id oldReal offset hideSize rest done
      | some (start, stop) => do
          let inode ← inodeOr (.err .notFound) id
          let cur ← fromExcept (index inode.chunks idx)
          match ← scrubChunk id idx cur start stop with
          | none => scrubGap id oldReal offset hideSize rest done
          | some (newRef, old) =>
              scrubGap id oldReal offset hideSize rest (done.push idx newRef old)

/-- `zero_fill_existing_range`: the loop, on the caller's copy of the refs. -/
def zeroFillLoop (id : FileId) (lo hi : Nat) (hideSize : Bool) :
    List Nat → List ChunkRef → List ChunkId → VfsM (List ChunkRef × List ChunkId)
  | [], chunks, retired => pure (chunks, retired)
  | idx :: rest, chunks, retired => do
      match ← fromExcept (holePart idx lo hi hideSize) with
      | none => zeroFillLoop id lo hi hideSize rest chunks retired
      | some (start, stop) => do
          let cur ← fromExcept (index chunks idx)
          match ← scrubChunk id idx cur start stop with
          | none => zeroFillLoop id lo hi hideSize rest chunks retired
          | some (newRef, old) =>
              zeroFillLoop id lo hi hideSize rest (chunks.set idx newRef) (retired ++ old.toList)

def zeroFillExistingRange (id : FileId) (chunks : List ChunkRef) (lo hi : Nat) (hideSize : Bool) :
    VfsM (List ChunkRef × List ChunkId) := do
  if lo ≥ hi ∨ chunks = [] then pure (chunks, [])
  else do
    let (first, _) ← fromExcept (fileToChunk lo hideSize)
    let lastByte ← fromExcept (subU hi 1)
    let (last, _) ← fromExcept (fileToChunk lastByte hideSize)
    let lastChunk ← fromExcept (subU chunks.length 1)
    zeroFillLoop id lo hi hideSize (chunksThrough first (min last lastChunk)) chunks []

/-! ## Write -/

/-- What stays the same over one call of `write`. -/
structure WriteArgs where
  id : FileId
  offset : Nat
  buf : List UInt8
  newEnd : Nat
  oldReal : Nat
  newReal : Nat
  curLen : Nat
  firstChunk : Nat
  hideSize : Bool

/-- The first chunk's share of the hole, cleared. -/
def patchHole (w : WriteArgs) (chunkIdx start : Nat) (pt : Chunk) : Except Failure Chunk := do
  if chunkIdx = w.firstChunk ∧ chunkIdx < w.curLen ∧ w.offset > w.oldReal then do
    let (cfs, _) ← chunkFileRange chunkIdx w.hideSize
    let holeStart ← addU (dataStart chunkIdx w.hideSize) (max w.oldReal cfs - cfs)
    if holeStart < start then do
      checkSlice holeStart start
      .ok (pt.fill holeStart start)
    else .ok pt
  else .ok pt

/-- The plaintext of a covered chunk after the write: the hole cleared, the new
bytes put in, and the size header refreshed. -/
def patchChunk (w : WriteArgs) (chunkIdx start stop bufPos : Nat) (pt : Chunk) :
    Except Failure (Chunk × Nat) := do
  let pt ← patchHole w chunkIdx start pt
  checkSlice start stop
  let bufEnd ← addU bufPos (stop - start)
  let bytes ← sliceList w.buf bufPos bufEnd
  let pt := pt.overlay start bytes
  let pt := if w.hideSize ∧ chunkIdx = 0 then installSizeHeader pt w.newReal else pt
  .ok (pt, bufEnd)

/-- The ref of a covered chunk: from the inode, or appended by this call. -/
def coveredRef (w : WriteArgs) (covered appended : List ChunkRef) (chunkIdx : Nat) :
    Except Failure ChunkRef := do
  if chunkIdx < w.curLen then index covered (← subU chunkIdx w.firstChunk)
  else index appended (← subU chunkIdx w.curLen)

/-- Read-modify-write over the covered chunks. -/
def writeLoop (w : WriteArgs) (covered : List ChunkRef) :
    List Nat → Nat → Rewrites → List ChunkRef → VfsM (Rewrites × List ChunkRef)
  | [], _, done, appended => pure (done, appended)
  | chunkIdx :: rest, bufPos, done, appended => do
      let (start, stop) ← fromExcept (coveredPart chunkIdx w.offset w.newEnd w.hideSize)
      let cur ← fromExcept (coveredRef w covered appended chunkIdx)
      let pt ← readChunk w.id chunkIdx cur
      let (pt, bufPos) ← fromExcept (patchChunk w chunkIdx start stop bufPos pt)
      if chunkIdx < w.curLen then do
        let (newRef, old) ← rewriteChunk w.id chunkIdx cur pt
        writeLoop w covered rest bufPos (done.push chunkIdx newRef old) appended
      else do
        let newRef ← rewriteInPlace w.id chunkIdx cur pt
        writeLoop w covered rest bufPos done (appended.set (chunkIdx - w.curLen) newRef)

/-- The last ref recorded for an existing chunk by this call. -/
def Rewrites.last? (r : Rewrites) (idx : Nat) : Option ChunkRef :=
  (r.updates.reverse.find? fun u => u.1 == idx).map Prod.snd

/-- Where chunk 0 is now: where this call's scrub put it, else where the inode
or the appended chunks have it. -/
def currentChunk0 (w : WriteArgs) (done : Rewrites) (appended : List ChunkRef) :
    VfsM ChunkRef := do
  match done.last? 0 with
  | some r => pure r
  | none =>
      if w.curLen > 0 then do
        let inode ← inodeOr (.err .notFound) w.id
        fromExcept (index inode.chunks 0)
      else fromExcept (index appended 0)

/-- Chunk 0 was not in the written range but the file grew: refresh its size
header. -/
def refreshSizeHeader (w : WriteArgs) (done : Rewrites) (appended : List ChunkRef) :
    VfsM (Rewrites × List ChunkRef) := do
  let cur0 ← currentChunk0 w done appended
  let pt ← readChunk w.id 0 cur0
  let pt := installSizeHeader pt w.newReal
  if w.curLen > 0 then do
    let (new0, old) ← rewriteChunk w.id 0 cur0 pt
    pure (done.push 0 new0 old, appended)
  else do
    let new0 ← rewriteInPlace w.id 0 cur0 pt
    pure (done, appended.set 0 new0)

/-- `for (idx, r) in updates { chunks[idx] = r }`. -/
def applyUpdates : List (Nat × ChunkRef) → List ChunkRef → Except Failure (List ChunkRef)
  | [], chunks => .ok chunks
  | (idx, r) :: rest, chunks =>
      if idx < chunks.length then applyUpdates rest (chunks.set idx r) else .error .panic

/-- Put the new refs into the inode. -/
def commitInode (id : FileId) (chunks : List ChunkRef) (newReal : Nat) (hideSize : Bool)
    (freed : List ChunkId) : VfsM Unit := do
  let size ← fromExcept (if hideSize then mulU chunks.length chunkPlaintextSize else .ok newReal)
  let now ← nowNs
  updateInode id fun inode => { inode with
    chunks := chunks
    size := size
    cachedRealSize := if hideSize then some newReal else inode.cachedRealSize
    mtimeNs := now }
  modify fun s => { s with
    dirty := true
    chunksDirty := insert id s.chunksDirty
    pendingFree := s.pendingFree ++ freed }

/-- The refs of the existing chunks that the write covers. -/
def coveredRefs (w : WriteArgs) (lastChunk : Nat) : VfsM (List ChunkRef) := do
  let stop ← fromExcept (addU lastChunk 1)
  let existingHi := min stop w.curLen
  if w.firstChunk < existingHi then do
    let inode ← inodeOr (.err .notFound) w.id
    fromExcept (sliceList inode.chunks w.firstChunk existingHi)
  else pure []

/-- A write past the end clears what the old last chunks still hold there. -/
def scrubHole (w : WriteArgs) : VfsM Rewrites := do
  if w.offset > w.oldReal ∧ w.curLen > 0 then do
    let (gapFirst, _) ← fromExcept (fileToChunk w.oldReal w.hideSize)
    let gapEnd := min w.firstChunk w.curLen
    scrubGap w.id w.oldReal w.offset w.hideSize (List.range' gapFirst (gapEnd - gapFirst)) ⟨[], []⟩
  else pure ⟨[], []⟩

/-- The size header, if the write did not reach chunk 0. -/
def headerAfterWrite (w : WriteArgs) (targetCount : Nat) (done : Rewrites)
    (appended : List ChunkRef) : VfsM (Rewrites × List ChunkRef) := do
  if w.hideSize ∧ w.newReal ≠ w.oldReal ∧ w.firstChunk > 0 ∧ targetCount > 0 then
    refreshSizeHeader w done appended
  else pure (done, appended)

/-- `write` after its checks and before the inode is touched: the refs the file
is to have, and the slots they replace. -/
def writeData (w : WriteArgs) (targetCount lastChunk : Nat) :
    VfsM (List ChunkRef × List ChunkId) := do
  let appended ← extendWithZeros w.id w.curLen (targetCount - w.curLen) []
  let covered ← coveredRefs w lastChunk
  let done ← scrubHole w
  let (done, appended) ← writeLoop w covered (chunksThrough w.firstChunk lastChunk) 0 done appended
  let (done, appended) ← headerAfterWrite w targetCount done appended
  let inode ← inodeOr .panic w.id
  let chunks ← fromExcept (applyUpdates done.updates inode.chunks)
  pure (chunks ++ appended, done.retired)

/-- `write` once the length of the file is known. -/
def writeSized (id : FileId) (offset : Nat) (buf : List UInt8) (oldReal : Nat) : VfsM Nat := do
  let inode ← inodeOr (.err .notFound) id
  if inode.kind ≠ .file then throw (.err .notAFile)
  else if offset + buf.length > u64Max then throw (.err .offsetOverflow)
  else if offset + buf.length > maxFileSize then throw (.err .fileSizeExceedsCap)
  else do
    let newEnd := offset + buf.length
    let newReal := max oldReal newEnd
    let curLen := inode.chunks.length
    let s ← get
    let targetCount ← fromExcept
      (paddedChunkCount (requiredChunks newReal s.hideSize) s.paddingOn)
    let (firstChunk, _) ← fromExcept (fileToChunk offset s.hideSize)
    let lastByte ← fromExcept (subU newEnd 1)
    let (lastChunk, _) ← fromExcept (fileToChunk lastByte s.hideSize)
    if curLen < targetCount then
      fromExcept (s.checkMetadataBudgetForChunks id (targetCount - curLen))
    let (chunks, retired) ← writeData
      { id := id, offset := offset, buf := buf, newEnd := newEnd, oldReal := oldReal
        newReal := newReal, curLen := curLen, firstChunk := firstChunk, hideSize := s.hideSize }
      targetCount lastChunk
    commitInode id chunks newReal s.hideSize retired
    pure buf.length

def write (id : FileId) (offset : Nat) (buf : List UInt8) : VfsM Nat := do
  ensureWritable
  if buf = [] then pure 0
  else do
    let s ← get
    if s.pendingFree.length ≥ pendingFreeFlushThreshold then flush
    let oldReal ← realSize id
    writeSized id offset buf oldReal

/-! ## Truncate -/

/-- The size header of chunk 0, on the caller's copy of the refs. -/
def truncateHeader (id : FileId) (newSize : Nat) (chunks : List ChunkRef) :
    VfsM (List ChunkRef × List ChunkId) := do
  match chunks with
  | [] => pure (chunks, [])
  | chunk0 :: _ => do
      let pt ← readChunk id 0 chunk0
      let (new0, old) ← rewriteChunk id 0 chunk0 (installSizeHeader pt newSize)
      pure (chunks.set 0 new0, old.toList)

/-- A file that grows is cleared from its old end on. -/
def fillGrown (id : FileId) (oldReal newSize : Nat) (hideSize : Bool) (kept : List ChunkRef) :
    VfsM (List ChunkRef × List ChunkId) := do
  if newSize > oldReal then zeroFillExistingRange id kept oldReal newSize hideSize
  else pure (kept, [])

def headerAfterTruncate (id : FileId) (newSize : Nat) (hideSize : Bool) (chunks : List ChunkRef) :
    VfsM (List ChunkRef × List ChunkId) := do
  if hideSize then truncateHeader id newSize chunks else pure (chunks, [])

/-- `truncate` after its checks and before the inode is touched; `kept` are the
refs that stay. -/
def truncateData (id : FileId) (oldReal newSize newChunkCount : Nat) (hideSize : Bool)
    (kept : List ChunkRef) : VfsM (List ChunkRef × List ChunkId) := do
  let (chunks, retired) ← fillGrown id oldReal newSize hideSize kept
  let appended ← extendWithZeros id chunks.length (newChunkCount - chunks.length) []
  let (chunks, retired0) ← headerAfterTruncate id newSize hideSize (chunks ++ appended)
  pure (chunks, retired ++ retired0)

def truncate (id : FileId) (newSize : Nat) : VfsM Unit := do
  ensureWritable
  if newSize > maxFileSize then throw (.err .fileSizeExceedsCap)
  else do
    let oldReal ← realSize id
    let inode ← inodeOr (.err .notFound) id
    if inode.kind ≠ .file then throw (.err .notAFile)
    else do
      let s ← get
      let newChunkCount ← fromExcept
        (paddedChunkCount (requiredChunks newSize s.hideSize) s.paddingOn)
      let chunks := inode.chunks.take newChunkCount
      let freed := (inode.chunks.drop newChunkCount).reverse.map ChunkRef.id
      if chunks.length < newChunkCount then
        fromExcept (s.checkMetadataBudgetForChunks id (newChunkCount - chunks.length))
      let (chunks, retired) ← truncateData id oldReal newSize newChunkCount s.hideSize chunks
      commitInode id chunks newSize s.hideSize (freed ++ retired)

end Vfs

end Luksbox
