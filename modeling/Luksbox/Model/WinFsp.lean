import Luksbox.Model.Run

/-!
# Names without case (`luksbox-vfs/src/vfs.rs`, `luksbox-mount/src/winfsp.rs`, `winfsp_path.rs`)

A Windows volume has names that keep their case and are found whatever the case
they are asked for in, and Windows hands over some of them in upper case. The
VFS knows exact names only; `lookup_ci` finds the stored one, and the callbacks
of the mount that make, remove and rename entries go through it.

The upper case of a character is a table of Unicode; here it is a function
`upper`. The table from VFS errors to NTSTATUS values is left out: a failed call
returns the error of the VFS. A callback is one step, as it runs under one lock.
-/

namespace Luksbox

open Lib

/-- `names_eq_ci`, the comparison of characters one by one. -/
def namesEqCi (upper : Char → List Char) : List Char → List Char → Bool
  | [], [] => true
  | x :: a, y :: b => if x ≠ y ∧ upper x ≠ upper y then false else namesEqCi upper a b
  | _, _ => false

namespace Vfs

variable (upper : Char → List Char)

/-- The child and its stored name. -/
def lookupCi (parent : FileId) (name : String) : VfsM (FileId × String) := do
  let dir ← requireDir parent
  match dir.children.get? name with
  | some id => pure (id, name)
  | none =>
      match dir.children.entries.find? fun e => namesEqCi upper e.1.toList name.toList with
      | some (stored, id) => pure (id, stored)
      | none => throw (.err .notFound)

/-- `path.split('/')` without the empty parts. -/
def segments (path : String) : List String :=
  ((path.toList.splitOn '/').filter fun seg => !seg.isEmpty).map String.ofList

def lookupPath (path : String) : VfsM FileId := do
  let s ← get
  (segments path).foldlM lookup s.tree.root

def lookupPathCi (path : String) : VfsM FileId := do
  let s ← get
  (segments path).foldlM (fun cur seg => Prod.fst <$> lookupCi upper cur seg) s.tree.root

end Vfs

namespace WinFsp

inductive PathParseError where
  | emptyPath
  | emptyName
  | containsNul
  | tooLong
  deriving DecidableEq

inductive Error where
  | vfs (e : Failure)
  | path (e : PathParseError)
  | objectNameCollision

def maxPathLen : Nat := 65536

def nul : Char := Char.ofNat 0

def backslash : Char := Char.ofNat 92

def fromWinPathStr (s : String) : Except PathParseError String :=
  if s.utf8ByteSize > maxPathLen then .error .tooLong
  else if s.toList.contains nul then .error .containsNul
  else if s.toList = [] ∨ s.toList = [backslash] then .ok "/"
  else .ok (String.ofList (s.toList.map fun ch => if ch = backslash then '/' else ch))

/-- The directory and the last name of a path. -/
def splitParentName (path : String) : Except PathParseError (String × String) :=
  if path.utf8ByteSize > maxPathLen then .error .tooLong
  else if path.toList.contains nul then .error .containsNul
  else
    let trimmed := path.toList.dropWhile fun ch => ch == '/'
    if trimmed = [] then .error .emptyPath
    else
      let back := trimmed.reverse
      let leaf := (back.takeWhile fun ch => ch != '/').reverse
      let parent := ((back.dropWhile fun ch => ch != '/').drop 1).reverse
      if leaf = [] then .error .emptyName else .ok (String.ofList parent, String.ofList leaf)

abbrev WinM := EStateM Error Vfs

/-- A call on the VFS, its error mapped. -/
def onVfs {α : Type} (m : VfsM α) : WinM α := fun s =>
  match m s with
  | .ok a s' => .ok a s'
  | .error e s' => .error (.vfs e) s'

def parsed {α : Type} (r : Except PathParseError α) : WinM α := fun s =>
  match r with
  | .ok a => .ok a s
  | .error e => .error (.path e) s

/-- What an open handle keeps. -/
structure OpenContext where
  fileId : FileId
  isDir : Bool

/-- A flush after each change, if the mount asks for it; its failure is logged. -/
def maybeFlushNow (syncMode : Bool) : WinM Unit :=
  if syncMode then do
    let _ ← attempt (onVfs Vfs.flush)
    pure ()
  else pure ()

variable (upper : Char → List Char) (syncMode : Bool)

/-- `open`, which also asks for the attributes. -/
def openFile (fileName : String) : WinM OpenContext := do
  let path ← parsed (fromWinPathStr fileName)
  let id ← onVfs (Vfs.lookupPathCi upper path)
  let st ← onVfs (Vfs.stat id)
  let _ ← onVfs (Vfs.stat id)
  pure ⟨id, decide (st.kind = .directory)⟩

def create (fileName : String) (isDir : Bool) : WinM OpenContext := do
  let path ← parsed (fromWinPathStr fileName)
  let (parentStr, name) ← parsed (splitParentName path)
  let parentId ← onVfs (Vfs.lookupPathCi upper parentStr)
  match ← attempt (onVfs (Vfs.lookupCi upper parentId name)) with
  | .ok _ => throw .objectNameCollision
  | .error _ => do
      let newId ← onVfs (if isDir then Vfs.mkdir parentId name else Vfs.create parentId name)
      maybeFlushNow syncMode
      let _ ← onVfs (Vfs.stat newId)
      pure ⟨newId, isDir⟩

/-- `cleanup` with the delete flag, from the path on. -/
def deleteEntry (ctx : OpenContext) (fileName : String) : WinM Unit := do
  let path ← parsed (fromWinPathStr fileName)
  let (parent, leaf) ← parsed (splitParentName path)
  let parentId ← onVfs (Vfs.lookupPathCi upper parent)
  let (targetId, stored) ← onVfs (Vfs.lookupCi upper parentId leaf)
  if targetId ≠ ctx.fileId then pure ()
  else do
    let _ ← attempt
      (onVfs (if ctx.isDir then Vfs.rmdir parentId stored else Vfs.unlink parentId stored))
    maybeFlushNow syncMode

/-- `cleanup`, which returns nothing. -/
def cleanup (ctx : OpenContext) (delete : Bool) (fileName : Option String) : WinM Unit :=
  if delete then
    match fileName with
    | none => pure ()
    | some name => do
        let _ ← attempt (deleteEntry upper syncMode ctx name)
        pure ()
  else maybeFlushNow syncMode

/-- The name a rename gives: the name asked for, or the stored one of an entry
that is in its place. -/
def effectiveNew (replaceIfExists : Bool) (fromParent toParent srcId : FileId)
    (oldStored newLeaf : String) : Except Error (FileId × String) → Except Error String
  | .ok (dstId, dstStored) =>
      if dstId = srcId then
        if toParent = fromParent ∧ dstStored = oldStored then .ok newLeaf else .ok dstStored
      else if replaceIfExists then .ok dstStored
      else .error .objectNameCollision
  | .error _ => .ok newLeaf

/-- The directory of the new name; the one of the old name if both are spelled
alike. -/
def newParentOf (fromParent : FileId) (oldParent newParent : String) : WinM FileId :=
  if oldParent = newParent then pure fromParent else onVfs (Vfs.lookupPathCi upper newParent)

/-- The new name gets the case that was asked for. -/
def fixCase (toParent : FileId) (name newLeaf : String) : WinM Unit :=
  if name = newLeaf then pure ()
  else do
    let _ ← attempt (onVfs (Vfs.rename toParent name toParent newLeaf))
    pure ()

def rename (oldName newName : String) (replaceIfExists : Bool) : WinM Unit := do
  let old ← parsed (fromWinPathStr oldName)
  let new ← parsed (fromWinPathStr newName)
  let (oldParent, oldLeaf) ← parsed (splitParentName old)
  let (newParent, newLeaf) ← parsed (splitParentName new)
  let fromParent ← onVfs (Vfs.lookupPathCi upper oldParent)
  let toParent ← newParentOf upper fromParent oldParent newParent
  let (srcId, oldStored) ← onVfs (Vfs.lookupCi upper fromParent oldLeaf)
  let target ← attempt (onVfs (Vfs.lookupCi upper toParent newLeaf))
  let name ← fromExcept
    (effectiveNew replaceIfExists fromParent toParent srcId oldStored newLeaf target)
  onVfs (Vfs.rename fromParent oldStored toParent name)
  fixCase toParent name newLeaf
  maybeFlushNow syncMode

/-- The calls of the VFS that a callback makes on the file of its handle alone. -/
def onHandle : Op → Bool
  | .mkdir .. | .create .. | .symlink .. | .link .. | .unlink .. | .rmdir .. | .rename .. => false
  | .shrink | .shrinkAllowDeniable | .finish | .reopen => false
  | _ => true

/-- A callback. `data` is one that goes on to the file of a handle: a read, a
write, a change of the size or of the time, a flush. -/
inductive Callback where
  | openFile (fileName : String)
  | create (fileName : String) (isDir : Bool)
  | cleanup (ctx : OpenContext) (delete : Bool) (fileName : Option String)
  | rename (oldName newName : String) (replaceIfExists : Bool)
  | data (op : Op) (h : onHandle op = true)

/-- The callbacks on a handle that flush at once with `--sync`: a change of the
size, and one of the time. A write waits for the cleanup. -/
def flushesNow : Op → Bool
  | .truncate .. | .setMtime .. => true
  | _ => false

/-- What a callback answers: the handle it has opened, if that is what it does. -/
def callback : Callback → WinM (Option OpenContext)
  | .openFile fileName => some <$> openFile upper fileName
  | .create fileName isDir => some <$> create upper syncMode fileName isDir
  | .cleanup ctx delete fileName => (fun _ => none) <$> cleanup upper syncMode ctx delete fileName
  | .rename oldName newName replaceIfExists =>
      (fun _ => none) <$> rename upper syncMode oldName newName replaceIfExists
  | .data op _ => do
      let _ ← onVfs (Vfs.exec op)
      let _ ← (if flushesNow op then maybeFlushNow syncMode else pure () : WinM Unit)
      pure none

/-- A callback, in the surroundings it meets. -/
def call (s : Vfs) (c : Callback × Env) : EStateM.Result Error Vfs (Option OpenContext) :=
  callback upper syncMode c.1 (s.withEnv c.2)

/-- The state a callback leaves. -/
def step (s : Vfs) (c : Callback × Env) : Vfs :=
  match call upper syncMode s c with
  | .ok _ s' => s'
  | .error _ s' => s'

def outcome (s : Vfs) (c : Callback × Env) : Except Error (Option OpenContext) :=
  match call upper syncMode s c with
  | .ok r _ => .ok r
  | .error e _ => .error e

def run (s : Vfs) (calls : List (Callback × Env)) : Vfs := calls.foldl (step upper syncMode) s

/-- The callbacks of a run and what they answered. -/
def outcomes (s : Vfs) : List (Callback × Env) → List (Callback × Except Error (Option OpenContext))
  | [] => []
  | c :: rest => (c.1, outcome upper syncMode s c) :: outcomes (step upper syncMode s c) rest

end WinFsp

end Luksbox
