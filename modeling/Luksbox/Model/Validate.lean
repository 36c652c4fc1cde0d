import Luksbox.Lib.Search
import Luksbox.Model.Chunk
import Luksbox.Model.Metadata

/-!
# Names, symlink targets and the metadata validator (`luksbox-vfs/src/vfs.rs`)

`validateMetadataTree` runs at every open and before every flush. It walks the
inodes once, in id order, and carries two things along: how many directory
entries name each inode, and which chunk slots are taken. A second pass
compares the counts with the inodes, a graph search checks that everything can
be reached from the root, and the free list is checked last.

Every refusal is the same error, `MetadataDeserialize`. The length of a name is
in bytes, as Rust's `str::len` is; a name is otherwise looked at character by
character, which for the ASCII characters the checks are about comes to the
same thing as looking at bytes.
-/

namespace Luksbox

open Lib

/-! ## Names and targets -/

def maxNameLenBytes : Nat := 255

/-- `str::contains` of a single character. -/
def hasChar (s : String) (c : Char) : Bool := s.toList.contains c

def validateName (name : String) : Except Failure Unit :=
  if name.isEmpty || name == "." || name == ".." || decide (name.utf8ByteSize > maxNameLenBytes)
      || hasChar name '/' || hasChar name '\\' || hasChar name '\x00' then
    .error (.err (.invalidPath name))
  else .ok ()

/-- `char::is_control`: the Unicode category Cc. -/
def isControl (c : Char) : Bool :=
  decide (c.toNat ≤ 0x1F) || (decide (0x7F ≤ c.toNat) && decide (c.toNat ≤ 0x9F))

def validateNewName (name : String) : Except Failure Unit := do
  validateName name
  if name.toList.any isControl then .error (.err (.invalidPath name))
  else .ok ()

/-- `target.split(['/', '\\'])`. -/
def splitComponents : List Char → List (List Char)
  | [] => [[]]
  | c :: rest =>
      if c = '/' ∨ c = '\\' then [] :: splitComponents rest
      else
        match splitComponents rest with
        | [] => [[c]]
        | first :: more => (c :: first) :: more

def isSafeSymlinkTarget (target : String) : Bool :=
  if target.isEmpty then false
  else if target.utf8ByteSize > maxSymlinkTargetLen then false
  else if hasChar target '\x00' then false
  else if target.toList.head? == some '/' || target.toList.head? == some '\\' then false
  else if target.toList.tail.head? == some ':' && (target.toList.headD ' ').isAlpha then false
  else !(splitComponents target.toList).any fun component =>
    component == ['.', '.'] || component == ['.']

/-! ## Addressing -/

def sizeHeaderLen : Nat := 8

/-- Chunks needed for `realSize` bytes, with the size header in chunk 0 when
sizes are hidden. -/
def requiredChunks (realSize : Nat) (hideSize : Bool) : Nat :=
  if realSize = 0 then 0
  else
    let withHeader := if hideSize then min (realSize + sizeHeaderLen) u64Max else realSize
    (withHeader - 1) / chunkPlaintextSize + 1

/-! ## The validator -/

/-- What the walk over the inodes carries along. -/
structure Tally where
  entryCounts : FileId → Nat
  liveChunks : Finset ChunkId

def invalidMetadata {α : Type} : Except Failure α := .error (.err .metadataDeserialize)

def slotFits (dataOffset : Nat) (id : ChunkId) : Bool := (slotOffset dataOffset id).isOk

/-- One directory entry: a good name, not the root, a known inode, and the
only entry if that inode is a directory. -/
def validateChild (tree : DirectoryTree) (counts : FileId → Nat) (name : String)
    (childId : FileId) : Except Failure (FileId → Nat) :=
  if !(validateName name).isOk || childId == rootId then invalidMetadata
  else
    match tree.inodes.get? childId with
    | none => invalidMetadata
    | some child =>
        let count := min (counts childId + 1) u32Max
        if child.kind = .directory ∧ count > 1 then invalidMetadata
        else .ok (Function.update counts childId count)

/-- One chunk reference, of a data chunk or of a list block. -/
def validateChunkRef (tree : DirectoryTree) (dataOffset : Nat) (live : Finset ChunkId)
    (chunk : ChunkRef) : Except Failure (Finset ChunkId) :=
  if chunk.id ≥ tree.nextChunkId ∨ chunk.generation = 0
      ∨ chunk.generation ≥ tree.nextChunkGen ∨ slotFits dataOffset chunk.id = false
      ∨ chunk.id ∈ live then invalidMetadata
  else .ok (insert chunk.id live)

def validateDirectory (tree : DirectoryTree) (tally : Tally) (inode : Inode) :
    Except Failure Tally := do
  if inode.size ≠ 0 ∨ inode.chunks ≠ [] ∨ inode.externalListBlocks ≠ [] then invalidMetadata
  else if inode.symlinkTarget.isSome then invalidMetadata
  else if inode.linkCount ≠ 1 then invalidMetadata
  else
    let counts ← inode.children.entries.foldlM
      (fun counts (entry : String × FileId) => validateChild tree counts entry.1 entry.2)
      tally.entryCounts
    .ok { tally with entryCounts := counts }

def validateSymlink (tally : Tally) (inode : Inode) : Except Failure Tally :=
  if inode.children.isEmpty = false ∨ inode.chunks ≠ [] ∨ inode.externalListBlocks ≠ []
      ∨ inode.linkCount ≠ 1 then invalidMetadata
  else
    match inode.symlinkTarget with
    | some target => if isSafeSymlinkTarget target then .ok tally else invalidMetadata
    | none => invalidMetadata

def validateFile (tree : DirectoryTree) (dataOffset : Nat) (hideSize : Bool) (tally : Tally)
    (inode : Inode) : Except Failure Tally := do
  if inode.children.isEmpty = false then invalidMetadata
  else if inode.symlinkTarget.isSome then invalidMetadata
  else if inode.linkCount = 0 then invalidMetadata
  else if hideSize ∧ (inode.chunks.length * chunkPlaintextSize > u64Max
      ∨ inode.size ≠ inode.chunks.length * chunkPlaintextSize) then invalidMetadata
  else if ¬ hideSize ∧ inode.chunks.length < requiredChunks inode.size false then
    invalidMetadata
  else
    let live ← inode.chunks.foldlM (validateChunkRef tree dataOffset) tally.liveChunks
    let live ← inode.externalListBlocks.foldlM (validateChunkRef tree dataOffset) live
    .ok { tally with liveChunks := live }

/-- A non-root inode whose `parent` does not name a directory. -/
def parentRefused (tree : DirectoryTree) (id : FileId) (inode : Inode) : Bool :=
  decide (id ≠ rootId)
    && decide ((tree.inodes.get? inode.parent).map Inode.kind ≠ some .directory)

/-- One step of the first walk. -/
def validateInode (tree : DirectoryTree) (dataOffset : Nat) (hideSize : Bool) (tally : Tally)
    (entry : FileId × Inode) : Except Failure Tally :=
  let (id, inode) := entry
  if inode.id ≠ id ∨ id ≥ tree.nextFileId then invalidMetadata
  else if parentRefused tree id inode then invalidMetadata
  else
    match inode.kind with
    | .directory => validateDirectory tree tally inode
    | .symlink => validateSymlink tally inode
    | .file => validateFile tree dataOffset hideSize tally inode

/-- The second walk: the counts against the inodes. -/
def validateCount (counts : FileId → Nat) (entry : FileId × Inode) : Bool :=
  let (id, inode) := entry
  if id = rootId then true
  else if counts id = 0 then false
  else if inode.kind = .file ∧ counts id ≠ inode.linkCount then false
  else if inode.kind = .symlink ∧ counts id ≠ 1 then false
  else true

/-- The children of an inode, as the walk from the root sees them. -/
def childrenOf (tree : DirectoryTree) (id : FileId) : Option (List FileId) :=
  (tree.inodes.get? id).map fun inode => inode.children.values

def validateFreeChunk (tree : DirectoryTree) (dataOffset : Nat) (live : Finset ChunkId)
    (free : Finset ChunkId) (id : ChunkId) : Except Failure (Finset ChunkId) :=
  if id ≥ tree.nextChunkId ∨ id ∈ live ∨ slotFits dataOffset id = false ∨ id ∈ free then
    invalidMetadata
  else .ok (insert id free)

def validateCounters (tree : DirectoryTree) (dataOffset : Nat) : Bool :=
  decide (tree.root = rootId) && decide (tree.nextFileId > rootId)
    && decide (tree.nextFileId < u64Max) && decide (tree.nextFileId < chunkListFileIdBit)
    && decide (tree.nextChunkGen ≠ 0) && decide (tree.nextChunkGen < u64Max)
    && slotFits dataOffset tree.nextChunkId

def validateRoot (tree : DirectoryTree) : Bool :=
  match tree.inodes.get? rootId with
  | none => false
  | some root => decide (root.id = rootId) && decide (root.parent = rootId)
      && decide (root.kind = .directory)

def validateMetadataTree (tree : DirectoryTree) (dataOffset : Nat) (hideSize : Bool) :
    Except Failure Unit := do
  if !validateCounters tree dataOffset then invalidMetadata
  else if !validateRoot tree then invalidMetadata
  else
    let tally ← tree.inodes.entries.foldlM (validateInode tree dataOffset hideSize) ⟨fun _ => 0, ∅⟩
    if !tree.inodes.entries.all (validateCount tally.entryCounts) then invalidMetadata
    else
      match collect (childrenOf tree) (tree.inodes.size + 1) [rootId] {rootId} with
      | none => invalidMetadata
      | some reachable =>
          if reachable.card ≠ tree.inodes.size then invalidMetadata
          else
            let _ ← tree.freeChunks.foldlM
              (validateFreeChunk tree dataOffset tally.liveChunks) (∅ : Finset ChunkId)
            .ok ()

/-! ## Stale parents -/

/-- Whether `dir` is a directory with an entry for `id`. -/
def holdsEntry (dir : Inode) (id : FileId) : Bool :=
  decide (dir.kind = .directory) && dir.children.values.contains id

/-- The first directory, in id order, that holds an entry for `id`. -/
def holder (tree : DirectoryTree) (id : FileId) : Option FileId :=
  (tree.inodes.entries.find? fun entry => holdsEntry entry.2 id).map Prod.fst

def isStale (tree : DirectoryTree) (id : FileId) (inode : Inode) : Bool :=
  match tree.inodes.get? inode.parent with
  | some p => !holdsEntry p id
  | none => true

/-- Point every non-root inode's parent at a directory that holds an entry for
it. Only `parent` fields change, so looking the holders up in the tree before
or after a repair comes to the same. -/
def repairStaleParents (tree : DirectoryTree) : DirectoryTree :=
  { tree with
    inodes := tree.inodes.mapWithKey fun id inode =>
      if id = rootId then inode
      else if isStale tree id inode then
        match holder tree id with
        | some h => { inode with parent := h }
        | none => inode
      else inode }

end Luksbox
