import Luksbox.Model.Run

/-!
# Listing a mounted directory (`luksbox-mount/src/fuse.rs`)

`readdir` answers one request of the kernel: it builds the whole listing, with
the two dot entries first, skips to the requested position and hands entries to
the reply buffer until that refuses one. Each entry carries the position after
it, which is where the caller asks to go on.

The size of the buffer and the lengths of the names decide how many entries a
reply takes; here that number is an argument, `room`. The table from VFS errors
to errno values is left out: a failed call returns the error of the VFS.

`Scan` is the caller: a pass over a directory, request after request, with calls
of anybody else between two requests.
-/

namespace Luksbox

open Lib

namespace Fuse

inductive FileType where
  | directory
  | regularFile
  | symlink
  deriving DecidableEq

/-- What `reply.add` puts into the buffer. -/
structure ReplyEntry where
  ino : FileId
  offset : Nat
  kind : FileType
  name : String
  deriving DecidableEq

def fileType : InodeKind → FileType
  | .directory => .directory
  | .file => .regularFile
  | .symlink => .symlink

/-- The listing every request starts from. -/
def listing (ino : FileId) : VfsM (List (FileId × FileType × String)) := do
  let entries ← Vfs.readdir ino
  -- `vfs.parent_of(ino).unwrap_or(ino)`
  let parentIno ← match ← attempt (Vfs.parentOf ino) with
    | .ok parent => pure parent
    | .error _ => pure ino
  let dots := [(ino, FileType.directory, "."), (parentIno, FileType.directory, "..")]
  pure (dots ++ entries.map fun e => (e.id, fileType e.kind, e.name))

def readdir (ino : FileId) (offset room : Nat) : VfsM (List ReplyEntry) := do
  let all ← listing ino
  pure (((all.zipIdx.drop offset).take room).map fun (entry, i) =>
    { ino := entry.1, offset := i + 1, kind := entry.2.1, name := entry.2.2 })

/-! ## A caller -/

/-- The calls of others, and then one request. -/
structure Round where
  calls : List Call
  room : Nat

/-- How far a caller is: the offset it asks for next, everything it received,
and the last reply. -/
structure Scan where
  vfs : Vfs
  offset : Nat
  received : List ReplyEntry
  last : List ReplyEntry

namespace Scan

def start (s : Vfs) : Scan where
  vfs := s
  offset := 0
  received := []
  last := []

/-- What a request returns to the caller; nothing if it fails. -/
def request (s : Vfs) (dir : FileId) (offset room : Nat) : List ReplyEntry :=
  match readdir dir offset room s with
  | .ok entries _ => entries
  | .error _ _ => []

def round (dir : FileId) (sc : Scan) (r : Round) : Scan :=
  let s := sc.vfs.run r.calls
  let entries := request s dir sc.offset r.room
  { vfs := s
    offset := (entries.getLast?.map ReplyEntry.offset).getD sc.offset
    received := sc.received ++ entries
    last := entries }

end Scan

def scan (dir : FileId) (s : Vfs) (rounds : List Round) : Scan :=
  rounds.foldl (Scan.round dir) (Scan.start s)

/-- The directory as a request of the scan finds it. -/
def Scan.found (sc : Scan) (r : Round) : Vfs := sc.vfs.run r.calls

end Fuse

end Luksbox
