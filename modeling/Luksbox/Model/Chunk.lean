import Luksbox.Lib.Bytes
import Luksbox.Model.Error

/-!
# Chunk plaintexts and chunk-list blocks (`luksbox-vfs/src/chunk.rs`)

Every chunk slot holds exactly `chunkPlaintextSize` plaintext bytes, so a
plaintext is a function on `Fin 4096` and the length checks of the source hold
by typing. What the callers slice out of it is checked where they slice
(`Model/Vfs.lean`): an index past the end is a panic there.

A chunk-list block packs up to `chunkListEntriesPerBlock` chunk references and
one link to the next block into such a plaintext. Generation 0 in the link
means "last block": generations start at 1, slot ids at 0.
-/

namespace Luksbox

open Lib

def chunkPlaintextSize : Nat := 4096

def chunkNonceLen : Nat := 12

def chunkTagLen : Nat := 16

/-- Bytes of one slot on disk: nonce, ciphertext, tag. -/
def chunkSlotSize : Nat := chunkNonceLen + chunkPlaintextSize + chunkTagLen

/-- A 4 KiB chunk plaintext. -/
abbrev Chunk := Fin 4096 → UInt8

namespace Chunk

def zero : Chunk := fun _ => 0

def get (c : Chunk) (i : Nat) : UInt8 := if h : i < 4096 then c ⟨i, h⟩ else 0

/-- `c[a..b].fill(0)`. -/
def fill (c : Chunk) (a b : Nat) : Chunk := fun i =>
  if a ≤ i.val ∧ i.val < b then 0 else c i

/-- `c[a..a + bs.len()].copy_from_slice(bs)`. -/
def overlay (c : Chunk) (a : Nat) (bs : List UInt8) : Chunk := fun i =>
  if a ≤ i.val ∧ i.val < a + bs.length then bs.getD (i.val - a) 0 else c i

/-- `c[a..b]`. -/
def slice (c : Chunk) (a b : Nat) : List UInt8 := (List.range' a (b - a)).map c.get

end Chunk

/-- Byte offset of a chunk slot, refused when it does not fit a `u64`. -/
def slotOffset (dataOffset : Nat) (chunkId : ChunkId) : Except Failure Nat :=
  let relative := chunkId * chunkSlotSize
  if relative > u64Max then .error (.err .offsetOverflow)
  else if dataOffset + relative > u64Max then .error (.err .offsetOverflow)
  else .ok (dataOffset + relative)

/-- What the AEAD tag of a slot binds it to: its file, its position in it and
its generation. -/
structure Aad where
  fileId : FileId
  chunkIdx : Nat
  generation : Nat
  deriving DecidableEq, Inhabited

def chunkAad (fileId chunkIdx generation : Nat) : Aad := ⟨fileId, chunkIdx, generation⟩

/-! ## Chunk-list blocks -/

def chunkListEntriesPerBlock : Nat := 254

def chunkListCountOffset : Nat := 0

def chunkListEntriesOffset : Nat := 4

def chunkListNextOffset : Nat := chunkListEntriesOffset + chunkListEntriesPerBlock * 16

/-- The synthetic file id of a file's chunk-list chain: `file_id` with the
high bit set. -/
def listFileId (fileId : FileId) : FileId :=
  if fileId < chunkListFileIdBit then fileId + chunkListFileIdBit else fileId

def encodeChunkRef (cr : ChunkRef) : List UInt8 := leBytes 8 cr.id ++ leBytes 8 cr.generation

def decodeChunkRef (b : List UInt8) : ChunkRef := ⟨leNat (b.take 8), leNat (b.drop 8)⟩

/-- A chunk-list block as plaintext: random padding, overwritten by the count,
the entries and the link. -/
def encodeChunkListBlock (padding : Chunk) (entries : List ChunkRef) (next : Option ChunkRef) :
    Except Failure Chunk :=
  if entries.length > chunkListEntriesPerBlock then .error (.err .crypto)
  else
    let buf := padding.overlay chunkListCountOffset (leBytes 4 entries.length)
    let buf := buf.overlay chunkListEntriesOffset (entries.flatMap encodeChunkRef)
    let nextBytes := match next with
      | some cr => encodeChunkRef cr
      | none => List.replicate 16 0
    .ok (buf.overlay chunkListNextOffset nextBytes)

def parseChunkListBlock (plaintext : Chunk) :
    Except Failure (List ChunkRef × Option ChunkRef) :=
  let count := leNat (plaintext.slice chunkListCountOffset (chunkListCountOffset + 4))
  if count > chunkListEntriesPerBlock then .error (.err .crypto)
  else
    let entries := (List.range count).map fun i =>
      let start := chunkListEntriesOffset + i * 16
      decodeChunkRef (plaintext.slice start (start + 16))
    let nextRef := decodeChunkRef (plaintext.slice chunkListNextOffset (chunkListNextOffset + 16))
    .ok (entries, if nextRef.generation = 0 then none else some nextRef)

end Luksbox
