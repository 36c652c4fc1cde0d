import Luksbox.Model.Namespace
import Luksbox.Model.Shrink

/-!
# Runs

A session is a sequence of calls on one `Vfs`. Each call comes with the
surroundings it meets: the faults of its I/O, the clock, the padding, the
environment variables. A call that fails leaves the state as far as it got and
the session goes on from there, so a run is a fold over the calls whatever each
of them returns.
-/

namespace Luksbox

open Lib

inductive Op where
  | lookup (parent : FileId) (name : String)
  | readdir (id : FileId)
  | parentOf (id : FileId)
  | readlink (id : FileId)
  | stat (id : FileId)
  | read (id : FileId) (offset bufLen : Nat)
  | mkdir (parent : FileId) (name : String)
  | create (parent : FileId) (name : String) (mode : Nat)
  | symlink (parent : FileId) (name target : String)
  | link (targetId newParent : FileId) (newName : String)
  | unlink (parent : FileId) (name : String)
  | rmdir (parent : FileId) (name : String)
  | rename (oldParent : FileId) (oldName : String) (newParent : FileId) (newName : String)
  | chmod (id : FileId) (mode : Nat)
  | setMtime (id : FileId) (mtimeNs : Nat)
  | write (id : FileId) (offset : Nat) (buf : List UInt8)
  | truncate (id : FileId) (newSize : Nat)
  | flush
  | setMaxVaultSize (bytes : Nat)
  | setShrinkMode (mode : ShrinkOnFinish)
  | spaceReport
  | shrink
  | shrinkAllowDeniable
  | finish
  | reopen

/-- What a call returns. -/
inductive Reply where
  | done
  | id (id : FileId)
  | name (target : String)
  | entries (entries : List DirEntry)
  | stat (stat : Vfs.Stat)
  | data (count : Nat) (bytes : List UInt8)
  | count (n : Nat)
  | report (report : SpaceReport)

namespace Vfs

/-- `close`, then `open` on what it left. A new container has not recovered
anything yet. -/
def reopen : VfsM Unit := do
  flush
  let s ← get
  let s' ← fromExcept (Vfs.open { s.container with metadataRecovered := false })
  set s'

def exec : Op → VfsM Reply
  | .lookup parent name => Reply.id <$> lookup parent name
  | .readdir id => Reply.entries <$> readdir id
  | .parentOf id => Reply.id <$> parentOf id
  | .readlink id => Reply.name <$> readlink id
  | .stat id => Reply.stat <$> stat id
  | .read id offset bufLen => (fun r => Reply.data r.1 r.2) <$> read id offset bufLen
  | .mkdir parent name => Reply.id <$> mkdir parent name
  | .create parent name mode => Reply.id <$> createWithMode parent name mode
  | .symlink parent name target => Reply.id <$> symlink parent name target
  | .link targetId newParent newName => (fun _ => Reply.done) <$> link targetId newParent newName
  | .unlink parent name => (fun _ => Reply.done) <$> unlink parent name
  | .rmdir parent name => (fun _ => Reply.done) <$> rmdir parent name
  | .rename oldParent oldName newParent newName =>
      (fun _ => Reply.done) <$> rename oldParent oldName newParent newName
  | .chmod id mode => (fun _ => Reply.done) <$> chmod id mode
  | .setMtime id mtimeNs => (fun _ => Reply.done) <$> setMtime id mtimeNs
  | .write id offset buf => Reply.count <$> write id offset buf
  | .truncate id newSize => (fun _ => Reply.done) <$> truncate id newSize
  | .flush => (fun _ => Reply.done) <$> flush
  | .setMaxVaultSize bytes => (fun _ => Reply.done) <$> setMaxVaultSize bytes
  | .setShrinkMode mode => (fun _ => Reply.done) <$> setShrinkMode mode
  | .spaceReport => Reply.report <$> spaceReport
  | .shrink => Reply.count <$> shrink
  | .shrinkAllowDeniable => Reply.count <$> shrinkAllowDeniable
  | .finish => Reply.count <$> finish
  | .reopen => (fun _ => Reply.done) <$> reopen

end Vfs

/-- A call and the surroundings it meets. -/
structure Call where
  op : Op
  env : Env

namespace Vfs

def withEnv (s : Vfs) (env : Env) : Vfs := { s with container := { s.container with env := env } }

/-- Run one call. -/
def call (s : Vfs) (c : Call) : EStateM.Result Failure Vfs Reply := exec c.op (s.withEnv c.env)

/-- The state an outcome leaves. -/
def left : EStateM.Result Failure Vfs Reply → Vfs
  | .ok _ s => s
  | .error _ s => s

def step (s : Vfs) (c : Call) : Vfs := left (s.call c)

def run (s : Vfs) (calls : List Call) : Vfs := calls.foldl step s

/-- Every call of the run returns. -/
def AllOk (s : Vfs) : List Call → Prop
  | [] => True
  | c :: rest => (∃ r s', s.call c = .ok r s') ∧ AllOk (s.step c) rest

end Vfs

end Luksbox
