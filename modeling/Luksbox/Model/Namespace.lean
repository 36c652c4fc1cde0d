import Luksbox.Model.Vfs

/-!
# Directory operations (`luksbox-vfs/src/vfs.rs`)

None of these touches the container: they check their arguments, edit the
inode map and set `dirty`. An `unwrap` or an index of the source is a lookup
that panics, so that a proof has to say why it cannot.

`mkdir`, `create_with_mode` and `symlink` differ in the inode they make and
share the rest, which is `newEntry` here.
-/

namespace Luksbox

open Lib

structure DirEntry where
  name : String
  id : FileId
  kind : InodeKind
  deriving DecidableEq

namespace Vfs

/-! ## Looking -/

def lookup (parent : FileId) (name : String) : VfsM FileId := do
  let dir ← requireDir parent
  orThrow (.err .notFound) (dir.children.get? name)

def readdir (id : FileId) : VfsM (List DirEntry) := do
  let dir ← requireDir id
  let s ← get
  pure (dir.children.entries.map fun entry =>
    { name := entry.1
      id := entry.2
      kind := ((s.tree.inodes.get? entry.2).map Inode.kind).getD .file })

def parentOf (id : FileId) : VfsM FileId := do
  let inode ← inodeOr (.err .notFound) id
  pure inode.parent

def readlink (id : FileId) : VfsM String := do
  let inode ← inodeOr (.err .notFound) id
  if inode.kind ≠ .symlink then throw (.err .notAFile)
  else orThrow .panic inode.symlinkTarget

/-! ## Making entries -/

def newEntry (parent : FileId) (name : String) (node : FileId → Nat → Inode) : VfsM FileId := do
  let dir ← requireDir parent
  if dir.children.contains name then throw (.err .alreadyExists)
  else do
    let id ← allocFileId
    let now ← nowNs
    modify fun s => { s with
      tree := { s.tree with inodes := s.tree.inodes.insert id (node id now) } }
    updateInode parent fun dir => { dir with children := dir.children.insert name id }
    markDirty
    pure id

def newDirectory (parent id now : Nat) : Inode where
  id := id
  parent := parent
  kind := .directory
  size := 0
  mtimeNs := now
  chunks := []
  children := OrdMap.empty
  cachedRealSize := none
  externalListBlocks := []
  mode := defaultDirMode
  linkCount := 1
  symlinkTarget := none

def newFile (parent mode id now : Nat) : Inode where
  id := id
  parent := parent
  kind := .file
  size := 0
  mtimeNs := now
  chunks := []
  children := OrdMap.empty
  cachedRealSize := none
  externalListBlocks := []
  mode := mode &&& 0o7777
  linkCount := 1
  symlinkTarget := none

def newSymlink (parent : FileId) (target : String) (id now : Nat) : Inode where
  id := id
  parent := parent
  kind := .symlink
  size := target.utf8ByteSize
  mtimeNs := now
  chunks := []
  children := OrdMap.empty
  cachedRealSize := none
  externalListBlocks := []
  mode := 0o777
  linkCount := 1
  symlinkTarget := some target

def mkdir (parent : FileId) (name : String) : VfsM FileId := do
  ensureWritable
  fromExcept (validateNewName name)
  newEntry parent name (newDirectory parent)

def createWithMode (parent : FileId) (name : String) (mode : Nat) : VfsM FileId := do
  ensureWritable
  fromExcept (validateNewName name)
  let id ← newEntry parent name (newFile parent mode)
  modify fun s => { s with chunksDirty := insert id s.chunksDirty }
  pure id

def create (parent : FileId) (name : String) : VfsM FileId :=
  createWithMode parent name defaultFileMode

def symlink (parent : FileId) (name target : String) : VfsM FileId := do
  ensureWritable
  fromExcept (validateNewName name)
  if !isSafeSymlinkTarget target then throw (.err (.invalidPath target))
  else newEntry parent name (newSymlink parent target)

def link (targetId newParent : FileId) (newName : String) : VfsM Unit := do
  ensureWritable
  fromExcept (validateNewName newName)
  let target ← inodeOr (.err .notFound) targetId
  match target.kind with
  | .directory => throw (.err .isADirectory)
  | .symlink => throw (.err .notAFile)
  | .file =>
      if target.linkCount ≥ u32Max then throw (.err .alreadyExists)
      else do
        let dir ← requireDir newParent
        if dir.children.contains newName then throw (.err .alreadyExists)
        else do
          updateInode newParent fun dir =>
            { dir with children := dir.children.insert newName targetId }
          updateInode targetId fun target =>
            { target with linkCount := min (target.linkCount + 1) u32Max }
          markDirty

/-! ## Removing entries -/

/-- One entry fewer; whether it was the last. -/
def dropLink (id : FileId) : VfsM Bool := do
  updateInode id fun inode => { inode with linkCount := inode.linkCount - 1 }
  let inode ← inodeOr .panic id
  pure (inode.linkCount == 0)

/-- The last entry is gone: free the chunks and list blocks, drop the inode. -/
def freeInode (id : FileId) : VfsM Unit := do
  let inode ← inodeOr .panic id
  pushPending (inode.chunks.map ChunkRef.id)
  pushPending (inode.externalListBlocks.map ChunkRef.id)
  modify fun s => { s with
    tree := { s.tree with inodes := s.tree.inodes.erase id }
    chunksDirty := s.chunksDirty.erase id }

/-- Some directory that holds an entry for `id`, if any. -/
def directoryHolding (tree : DirectoryTree) (id : FileId) : Option FileId :=
  (tree.inodes.values.find? fun dir => holdsEntry dir id).map Inode.id

/-- A survivor whose canonical parent was `parent` moves to a directory that
still holds it. -/
def adoptSurvivor (parent targetId : FileId) : VfsM Unit := do
  let s ← get
  if (s.tree.inodes.get? targetId).map Inode.parent = some parent then
    match directoryHolding s.tree targetId with
    | some survivor => updateInode targetId fun inode => { inode with parent := survivor }
    | none => pure ()
  else pure ()

def unlink (parent : FileId) (name : String) : VfsM Unit := do
  ensureWritable
  let dir ← requireDir parent
  let targetId ← orThrow (.err .notFound) (dir.children.get? name)
  let target ← inodeOr .panic targetId
  if target.kind = .directory then throw (.err .isADirectory)
  else do
    updateInode parent fun dir => { dir with children := dir.children.erase name }
    let nowZero ← dropLink targetId
    if nowZero then freeInode targetId
    else adoptSurvivor parent targetId
    markDirty

def rmdir (parent : FileId) (name : String) : VfsM Unit := do
  ensureWritable
  let dir ← requireDir parent
  let targetId ← orThrow (.err .notFound) (dir.children.get? name)
  let target ← inodeOr .panic targetId
  if target.kind ≠ .directory then throw (.err .notADirectory)
  else if target.children.isEmpty = false then throw (.err .notEmpty)
  else do
    modify fun s => { s with tree := { s.tree with inodes := s.tree.inodes.erase targetId } }
    updateInode parent fun dir => { dir with children := dir.children.erase name }
    markDirty

/-! ## Moving entries -/

/-- Whether `candidate` is strictly inside the subtree of `root`. -/
def isDescendantOf (tree : DirectoryTree) (root candidate : FileId) : Bool :=
  let children := fun id => (childrenOf tree id).getD []
  searchFor children candidate
    (1 + (tree.inodes.keys.map fun id => (children id).length).sum) [root] ∅

/-- The checks on an existing entry under the new name. `none` says that both
names are links to one inode and there is nothing to do. -/
def checkDisplaced (srcId dstId : FileId) (srcKind : InodeKind) : VfsM (Option FileId) := do
  if srcId = dstId then pure none
  else do
    let dst ← inodeOr .panic dstId
    match srcKind, dst.kind with
    | .directory, .directory =>
        if dst.children.isEmpty = false then throw (.err .notEmpty) else pure (some dstId)
    | .directory, _ => throw (.err .notADirectory)
    | _, .directory => throw (.err .isADirectory)
    | _, _ => pure (some dstId)

/-- The displaced inode loses one entry, as in `unlink`. -/
def displace (dstId : FileId) : VfsM Unit := do
  let nowZero ← dropLink dstId
  if nowZero then freeInode dstId
  else pure ()

/-- `inodes.get_mut(&old_parent).unwrap().children.remove(old_name).unwrap()`. -/
def takeEntry (parent : FileId) (name : String) : VfsM FileId := do
  let dir ← inodeOr .panic parent
  let id ← orThrow .panic (dir.children.get? name)
  updateInode parent fun dir => { dir with children := dir.children.erase name }
  pure id

def moveEntry (oldParent : FileId) (oldName : String) (newParent : FileId) (newName : String) :
    VfsM Unit := do
  let id ← takeEntry oldParent oldName
  updateInode newParent fun dir => { dir with children := dir.children.insert newName id }
  if oldParent = newParent then pure ()
  else
    modify fun s => { s with
      tree := { s.tree with
        inodes := s.tree.inodes.adjust id fun moved => { moved with parent := newParent } } }

/-- Both names are equal: nothing to do but to check that the entry is there. -/
def renameSame (parent : FileId) (name : String) : VfsM Unit := do
  let dir ← requireDir parent
  if dir.children.contains name then pure ()
  else throw (.err .notFound)

def rename (oldParent : FileId) (oldName : String) (newParent : FileId) (newName : String) :
    VfsM Unit := do
  ensureWritable
  fromExcept (validateName oldName)
  fromExcept (validateNewName newName)
  if oldParent = newParent ∧ oldName = newName then renameSame oldParent oldName
  else do
    let oldDir ← requireDir oldParent
    let srcId ← orThrow (.err .notFound) (oldDir.children.get? oldName)
    let newDir ← requireDir newParent
    let src ← inodeOr .panic srcId
    let s ← get
    if src.kind = .directory ∧ (newParent = srcId ∨ isDescendantOf s.tree srcId newParent) then
      throw (.err .renameCycle)
    else
      match newDir.children.get? newName with
      | none => do
          moveEntry oldParent oldName newParent newName
          markDirty
      | some dstId => do
          match ← checkDisplaced srcId dstId src.kind with
          | none => pure ()
          | some dstId => do
              displace dstId
              moveEntry oldParent oldName newParent newName
              markDirty

/-! ## Attributes -/

def setAttr (id : FileId) (f : Inode → Inode) : VfsM Unit := do
  ensureWritable
  let inode ← inodeOr (.err .notFound) id
  modify fun s => { s with
    tree := { s.tree with inodes := s.tree.inodes.insert id (f inode) }
    dirty := true }

def chmod (id : FileId) (mode : Nat) : VfsM Unit :=
  setAttr id fun inode => { inode with mode := mode &&& 0o7777 }

def setMtime (id : FileId) (mtimeNs : Nat) : VfsM Unit :=
  setAttr id fun inode => { inode with mtimeNs := mtimeNs }

end Vfs

end Luksbox
