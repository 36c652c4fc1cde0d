import Luksbox.Model.Rotation

/-!
# Sessions and crashes (`luksbox-vfs/src/vfs.rs`, `luksbox-format/src/anchor.rs`)

The life of a vault over any number of sessions: calls on the VFS, header
writes, rotations, and crashes after which the vault is opened again. A crash
inside a call is the call with an I/O fault where it stopped, and then the
crash: no call writes anything more once one of its writes has failed.

After a crash the metadata region and every slot hold one of the values that
were in flight, and the vault is read from the file at the vault's path, which
is not the one behind the handle while a rotation is in flight.
-/

namespace Luksbox

open Lib

/-- `next_chunk_gen` of the tree in a metadata plaintext. -/
def Metadata.generation : Metadata → Nat
  | .empty => DirectoryTree.new.nextChunkGen
  | .lbm2 tree => tree.nextChunkGen
  | .lbm3 tree => tree.nextChunkGen
  | .lbm4 tree => tree.nextChunkGen
  | .lbm5 tree => tree.nextChunkGen
  | .lbm6 tree _ => tree.nextChunkGen
  | .unknown _ => 0

namespace Anchor

/-- Outcome of comparing the anchor's generation against the metadata's. -/
inductive VerificationOutcome where
  | ok
  | rollbackDetected (anchorGen metadataGen : Nat)
  | anchorStale (anchorGen metadataGen : Nat)
  deriving DecidableEq

def compare (anchorGen metadataGen : Nat) : VerificationOutcome :=
  if anchorGen = metadataGen then .ok
  else if anchorGen > metadataGen then .rollbackDetected anchorGen metadataGen
  else .anchorStale anchorGen metadataGen

end Anchor

/-- What a power loss leaves of the data: for the region and for each slot one
of the values in flight. -/
def DataFile.crashed (d : DataFile) (live : Nat) (slot : ChunkId → Nat) : DataFile :=
  { d with
    slots := fun id => (d.slotsMaybe id).getD (slot id) (d.slots id)
    slotsMaybe := fun id => [(d.slotsMaybe id).getD (slot id) (d.slots id)]
    live := d.liveMaybe.getD live d.live
    liveMaybe := [d.liveMaybe.getD live d.live] }

namespace Vault

/-- The data of the file at the vault's path. -/
def committedData (v : Vault) : DataFile := v.otherData.getD v.vfs.container.dataFile

/-- `refresh_anchor_after_header_write`: the anchor follows the header, with the
metadata generation it had. -/
def refreshAnchorAfterHeaderWrite (anchor : Fault) : VaultM Unit := do
  let v ← get
  if v.head.rotation.isSome ∨ v.head.generation?.isNone then pure ()
  else
    match v.vfs.container.anchor with
    | none => pure ()
    | some metadataGen => onContainer do
        modify fun c => { c with env := { c.env with io := [anchor] } }
        Container.writeAnchor metadataGen

/-- `persist_header`; `anchor` is how the write of the anchor ends. -/
def persistHeader (nonce : Nat) (anchor : Fault) : VaultM Unit := do
  let v ← get
  onHead (Head.persistHeader nonce)
  if v.head.headerDirty then refreshAnchorAfterHeaderWrite anchor

/-- A step in the life of a vault. Calls come with the faults they meet. -/
inductive Act where
  | vfs (call : Call)
  | persistHeader (nonce : Nat) (io : List HeaderFault) (anchor : Fault)
  | upgradeHeaderToV3 (io : List HeaderFault)
  | rotateMvk (credentials : List SlotCredential) (newMvk nonce : Nat) (env : Env)
      (io : List HeaderFault) (commit : CommitIo)
  | rotateMvkDeniable (accepts : Argon2idParams → Bool) (newSalt newMvk nonce : Nat)
      (fill : Fin deniableSlotCount → Nat) (keep : List KeepSlot) (env : Env)
      (io : List HeaderFault) (commit : CommitIo)
  | crash (env : Env) (live : Nat) (slot : ChunkId → Nat)

def withEnv (v : Vault) (env : Env) : Vault := { v with vfs := v.vfs.withEnv env }

def withHeaderIo (v : Vault) (io : List HeaderFault) : Vault :=
  { v with head := { v.head with io := io } }

/-- The vault a call leaves, whether it returns or fails. -/
def left {α : Type} (m : VaultM α) (v : Vault) : Vault :=
  match m v with
  | .ok _ v' => v'
  | .error _ v' => v'

/-- The container a new session finds before it reads the metadata. -/
def recovered (v : Vault) (env : Env) (live : Nat) (slot : ChunkId → Nat) : Container :=
  { v.vfs.container.withData (v.committedData.crashed live slot) with
    env := env
    metadataRecovered := false }

/-- Open the vault again after a crash; `none` if the header or the metadata
cannot be read. -/
def afterCrash (v : Vault) (env : Env) (live : Nat) (slot : ChunkId → Nat) : Option Vault :=
  match v.head.reopen with
  | none => none
  | some head =>
      let container := ({ v with
        vfs := { v.vfs with container := v.recovered env live slot } }.putHead head).vfs.container
      match Vfs.open container with
      | .error _ => none
      | .ok vfs => some { vfs := vfs, head := head, otherData := none }

def act (v : Vault) : Act → Option Vault
  | .vfs call => some { v with vfs := v.vfs.step call }
  | .persistHeader nonce io anchor => some (left (persistHeader nonce anchor) (v.withHeaderIo io))
  | .upgradeHeaderToV3 io => some (left (onHead Head.upgradeHeaderToV3) (v.withHeaderIo io))
  | .rotateMvk credentials newMvk nonce env io commit =>
      some (left (rotateMvk credentials newMvk nonce commit) ((v.withEnv env).withHeaderIo io))
  | .rotateMvkDeniable accepts newSalt newMvk nonce fill keep env io commit =>
      some (left (rotateMvkDeniable accepts newSalt newMvk nonce fill keep commit)
        ((v.withEnv env).withHeaderIo io))
  | .crash env live slot => v.afterCrash env live slot

def run (v : Vault) : List Act → Option Vault
  | [] => some v
  | a :: rest => (v.act a).bind fun v' => v'.run rest

/-- A vault as it is made: empty, and opened on what was just written. With
`anchored` an anchor was initialised at generation 1. -/
def created (header : Header) (deniable : Bool) (format : MetadataFormat) (head : Head)
    (anchored : Bool) : Vault :=
  let container := { Container.created header deniable head.mvk head.headerSalt with
    anchor := if anchored then some 1 else none
    anchorHeader := if anchored then head.generation? else none }
  { vfs := Vfs.fresh container format, head := head, otherData := none : Vault }.putHead head

end Vault

end Luksbox
