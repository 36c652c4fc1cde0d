import Luksbox.Model.Header
import Luksbox.Model.Run

/-!
# MVK rotation (`luksbox-vfs/src/vfs.rs`, `luksbox-format/src/container.rs`)

A rotation copies the vault file, re-keys in the copy every slot the tree in
memory names, overwrites the others with noise, re-encrypts the metadata it
finds in the file, rebuilds the keyslots and renames the copy over the vault.
Every error before the commit puts the original back.

`Vault` joins the VFS with the header half of its container. The container of
the VFS is the vault file behind the handle; `otherData` is the data of the
file the handle is not on, which is the committed vault as long as a rotation
is in flight.
-/

namespace Luksbox

open Lib

/-- The data of a vault file and the metadata mirror beside it. -/
structure DataFile where
  slots : ChunkId → Slot
  slotsMaybe : ChunkId → List Slot
  fileLen : Nat
  live : Region
  liveMaybe : List Region
  mirror : Region

namespace Container

def dataFile (c : Container) : DataFile :=
  ⟨c.slots, c.slotsMaybe, c.fileLen, c.live, c.liveMaybe, c.mirror⟩

def withData (c : Container) (d : DataFile) : Container :=
  { c with
    slots := d.slots
    slotsMaybe := d.slotsMaybe
    fileLen := d.fileLen
    live := d.live
    liveMaybe := d.liveMaybe
    mirror := d.mirror }

/-- Re-encrypt one slot under another key. -/
def rekeyChunkAt (id : ChunkId) (oldKey newKey : SubKey) (aad : Aad) : ContainerM Unit := do
  let c ← get
  let off ← fromExcept (slotOffset c.header.dataOffset id)
  let slot ← readAt off id
  match slot oldKey aad with
  | none => throw (.err .crypto)
  | some pt => writeAt off id (Slot.sealed newKey aad pt)

/-- Every entry of a chunk list, under the AAD its index and generation make. -/
def rekeyRefs (fileId : FileId) (oldKey newKey : SubKey) :
    Nat → List ChunkRef → ContainerM Unit
  | _, [] => pure ()
  | idx, r :: rest => do
      rekeyChunkAt r.id oldKey newKey (chunkAad fileId (idx % 2 ^ 32) r.generation)
      rekeyRefs fileId oldKey newKey (idx + 1) rest

/-- The data chunks of a file and the blocks of its chunk list, which have a
file id and a key of their own. -/
def rekeyInode (old new : FileId → SubKey) (fileId : FileId) (inode : Inode) :
    ContainerM Unit := do
  if inode.kind ≠ .file then pure ()
  else do
    rekeyRefs fileId (old fileId) (new fileId) 0 inode.chunks
    rekeyRefs (listFileId fileId) (old (listFileId fileId)) (new (listFileId fileId)) 0
      inode.externalListBlocks

def rekeyInodes (old new : FileId → SubKey) : List (FileId × Inode) → ContainerM Unit
  | [] => pure ()
  | (fileId, inode) :: rest => do
      rekeyInode old new fileId inode
      rekeyInodes old new rest

/-- Noise over slot `id`, unless it is in use. -/
def scrubSlots (inUse : List ChunkId) : List ChunkId → ContainerM Unit
  | [] => pure ()
  | id :: rest => do
      if inUse.contains id then pure ()
      else do
        let c ← get
        let off ← fromExcept (slotOffset c.header.dataOffset id)
        writeAt off id Slot.garbage
      scrubSlots inUse rest

/-- `write_metadata` while a rotation is in flight: there is no mirror. -/
def writeMetadataInFlight (m : Metadata) : ContainerM Unit := do
  let c ← get
  if m.len + metadataOverhead > c.header.metadataSize then
    throw (.err (.format .metadataTooLarge))
  else do
    writeLive m
    syncAll
    ioCall

/-- `rekey_metadata`: what is in the file, under the new key. -/
def rekeyMetadata (newMvk : Nat) : ContainerM Unit := do
  let m ← readMetadata
  let c ← get
  modify fun c => { c with mvk := newMvk }
  match ← attempt (writeMetadataInFlight m) with
  | .ok _ => pure ()
  | .error e => do
      modify fun c' => { c' with mvk := c.mvk }
      throw e

end Container

structure Vault where
  vfs : Vfs
  head : Head
  otherData : Option DataFile

abbrev VaultM := EStateM Failure Vault

namespace Vault

def onVfs {α : Type} (m : VfsM α) : VaultM α :=
  zoom Vault.vfs (fun v s => { v with vfs := s }) m

def onContainer {α : Type} (m : ContainerM α) : VaultM α := onVfs (Vfs.onContainer m)

/-- The header half, with the fields the data path also has. -/
def headOf (v : Vault) : Head :=
  { v.head with
    mvk := v.vfs.container.mvk
    headerSalt := v.vfs.container.headerSalt
    versionMajor := v.vfs.container.header.versionMajor }

def putHead (v : Vault) (h : Head) : Vault :=
  { v with
    head := h
    vfs := { v.vfs with
      container := { v.vfs.container with
        mvk := h.mvk
        headerSalt := h.headerSalt
        headerGeneration := h.generation?
        header := { v.vfs.container.header with versionMajor := h.versionMajor } } } }

def onHead {α : Type} (m : HeadM α) : VaultM α := zoom headOf putHead m

def withDataOf (v : Vault) (d : DataFile) : Vault :=
  { v with vfs := { v.vfs with container := v.vfs.container.withData d } }

/-! ## The steps of a rotation -/

/-- `begin_atomic_rotation`: the copy has the same data and no mirror yet. -/
def beginAtomicRotation : VaultM Unit := do
  onHead Head.beginAtomicRotation
  modify fun v =>
    { v.withDataOf { v.vfs.container.dataFile with mirror := none } with
      otherData := some v.vfs.container.dataFile }

/-- `abort_atomic_rotation`: the original handle comes back. -/
def abortAtomicRotation : VaultM Unit := do
  let v ← get
  match v.head.rotation with
  | none => pure ()
  | some _ => do
      onHead Head.abortAtomicRotation
      modify fun v =>
        match v.otherData with
        | some d => { v.withDataOf d with otherData := none }
        | none => v

/-- How the calls of a commit end, and the anchor write after it. -/
structure CommitIo where
  flush : HeaderFault
  sync : HeaderFault
  rename : HeaderFault
  parent : HeaderFault
  removeMirror : HeaderFault
  anchor : Fault

def CommitIo.steps (io : CommitIo) : List HeaderFault :=
  [io.flush, io.sync, io.rename, io.parent, io.removeMirror]

/-- The copy is the vault now. The pre-rotation mirrors do not authenticate
under the new key. -/
def afterRename (v : Vault) : Vault :=
  { v with
    vfs := { v.vfs with container := { v.vfs.container.synced with mirror := none } }
    otherData := none }

/-- `commit_atomic_rotation`: an `fsync` of the copy, then the rename. -/
def commitAtomicRotation (io : CommitIo) : VaultM Unit := do
  modify fun v => { v with head := { v.head with io := io.steps } }
  match ← attempt (onHead Head.commitAtomicRotation) with
  | .ok _ => modify afterRename
  | .error e => do
      modify fun v => if v.head.handle = .committed then v.afterRename else v
      throw e

/-- `scrub_unreferenced_chunk_slots`: every id below the next one that no inode
names. -/
def scrubUnreferencedChunkSlots : VaultM Unit := do
  let v ← get
  let inUse := v.vfs.tree.inodes.values.flatMap fun inode =>
    inode.chunks.map ChunkRef.id ++ inode.externalListBlocks.map ChunkRef.id
  onContainer (Container.scrubSlots inUse (List.range v.vfs.tree.nextChunkId))

/-- A credential handed to `rotate_mvk` for one slot. `wraps` is whether its
key derivation succeeds, `salt` the randomness of the new slot. -/
structure SlotCredential where
  slotIdx : Nat
  credential : Nat
  salt : Nat
  wraps : Bool

/-- The credentials name every slot in use, and no other. -/
def covers (table : KeyTable) (credentials : List SlotCredential) : Bool :=
  (List.finRange maxKeyslots).all fun i =>
    (table i).isSome == credentials.any fun c => c.slotIdx == i.val

/-- Every credential opens its slot to the master key of the container. -/
def verifyCredentials (table : KeyTable) (mvk : Nat) : List SlotCredential → Except Failure Unit
  | [] => .ok ()
  | c :: rest =>
      if lt : c.slotIdx < maxKeyslots then
        match table ⟨c.slotIdx, lt⟩ with
        | none => .error Head.refused
        | some slot =>
            if slot.credential = c.credential ∧ slot.mvk = mvk then
              verifyCredentials table mvk rest
            else .error Head.refused
      else .error Head.refused

/-- One fresh slot for each credential around the new key. -/
def buildSlots (newMvk : Nat) : List SlotCredential → KeyTable → Except Failure KeyTable
  | [], table => .ok table
  | c :: rest, table =>
      if c.wraps = false then .error Head.refused
      else if lt : c.slotIdx < maxKeyslots then
        buildSlots newMvk rest
          (Function.update table ⟨c.slotIdx, lt⟩ (some ⟨c.credential, false, c.salt, newMvk⟩))
      else .error Head.refused

/-- What `rotate_mvk` checks before it touches anything. -/
def checkRotation (credentials : List SlotCredential) : VaultM Unit := do
  onVfs Vfs.ensureWritable
  modify fun v => { v with vfs := { v.vfs with cowFloorGen := v.vfs.tree.nextChunkGen } }
  let v ← get
  if (List.finRange maxKeyslots).any fun i =>
      (v.head.keyslots i).elim false Keyslot.derivedMvk then throw Head.refused
  else if covers v.head.keyslots credentials = false then throw Head.refused
  else fromExcept (verifyCredentials v.head.keyslots v.vfs.container.mvk credentials)

/-- The closure `do_rotation` of `rotate_mvk`. -/
def doRotation (credentials : List SlotCredential) (newMvk nonce : Nat) : VaultM Unit := do
  let v ← get
  let c := v.vfs.container
  onContainer (Container.rekeyInodes c.fileKey (fun id => ⟨newMvk, c.headerSalt, id⟩)
    v.vfs.tree.inodes.entries)
  scrubUnreferencedChunkSlots
  onContainer (Container.rekeyMetadata newMvk)
  let table ← fromExcept (buildSlots newMvk credentials fun _ => none)
  onHead (Head.installRotatedMvk newMvk table)
  onHead (Head.persistHeader nonce)

/-- What follows a commit: every inode is dirty and the anchor moves to the
counter in memory. -/
def afterRotation (anchor : Fault) : VaultM Unit := do
  modify fun v => { v with vfs := Vfs.markAllChunksDirty v.vfs }
  let v ← get
  onContainer do
    modify fun c => { c with env := { c.env with io := [anchor] } }
    Container.writeAnchor v.vfs.tree.nextChunkGen

/-- Commit what the body made in the copy, or put the original back. -/
def finishRotation (io : CommitIo) (body : Except Failure Unit) : VaultM Unit := do
  match body with
  | .ok _ => do
      commitAtomicRotation io
      afterRotation io.anchor
  | .error e => do
      abortAtomicRotation
      throw e

def rotateWith (io : CommitIo) (body : VaultM Unit) : VaultM Unit := do
  beginAtomicRotation
  let r ← attempt body
  finishRotation io r

/-- `Vfs::rotate_mvk` of an inline-header vault. -/
def rotateMvk (credentials : List SlotCredential) (newMvk nonce : Nat) (io : CommitIo) :
    VaultM Unit := do
  checkRotation credentials
  rotateWith io (doRotation credentials newMvk nonce)

/-- The closure of `rotate_mvk_deniable`: the envelopes first, so that the
container holds the new key and salt from then on. -/
def doRotationDeniable (accepts : Argon2idParams → Bool) (newSalt newMvk nonce : Nat)
    (fill : Fin deniableSlotCount → Nat) (keep : List KeepSlot) (m : Metadata)
    (old : FileId → SubKey) : VaultM Unit := do
  onHead (Head.rotateDeniableEnvelope accepts newSalt newMvk nonce fill keep)
  let v ← get
  onContainer (Container.rekeyInodes old v.vfs.container.fileKey v.vfs.tree.inodes.entries)
  scrubUnreferencedChunkSlots
  onContainer (Container.writeMetadataInFlight m)
  onHead (Head.persistHeader (nonce + 1))

/-- What `rotate_mvk_deniable` does before it begins: the metadata is read while
the container still has the old key. -/
def checkRotationDeniable : VaultM Metadata := do
  onVfs Vfs.ensureWritable
  modify fun v => { v with vfs := { v.vfs with cowFloorGen := v.vfs.tree.nextChunkGen } }
  let v ← get
  if v.head.deniable.isNone then throw Head.refused
  else onContainer Container.readMetadata

/-- `Vfs::rotate_mvk_deniable`. -/
def rotateMvkDeniable (accepts : Argon2idParams → Bool) (newSalt newMvk nonce : Nat)
    (fill : Fin deniableSlotCount → Nat) (keep : List KeepSlot) (io : CommitIo) :
    VaultM Unit := do
  let m ← checkRotationDeniable
  let v ← get
  rotateWith io
    (doRotationDeniable accepts newSalt newMvk nonce fill keep m v.vfs.container.fileKey)

end Vault

end Luksbox
