import Luksbox.Lib.Wp
import Luksbox.Model.Deniable
import Luksbox.Model.Error

/-!
# Keyslots, header writes and the header half of a rotation (`luksbox-format/src/container.rs`)

A standard header is HMAC'd under the master key, so what a header region holds
is told by what it authenticates to: the image that was written, or nothing.
Two ways of holding nothing have to be told apart. A region that does not parse
sends an open to the `.header-bak` mirror, one that parses and fails the HMAC
does not.

A keyslot is the credential that opens it and the master key inside; `salt` is
the randomness of its making, so that no two slots made are equal.

There are at most two vault files on the disk, the committed one and the
`.rotating` copy of a rotation. `files` and `mirrors` say what each place
holds, `handle` and `path` which of them the container works on.

Each write of a header takes the next `HeaderFault` off the list `io`; an empty
list means that nothing fails any more. `stored` is not in the source: it lists
what was ever written to a header region or a mirror, newest first.
-/

namespace Luksbox

open Lib

structure Keyslot where
  credential : Nat
  /-- `SlotKind::Fido2DerivedMvk`: the master key is derived, not wrapped. -/
  derivedMvk : Bool
  salt : Nat
  mvk : Nat
  deriving DecidableEq

abbrev maxKeyslots : Nat := 8

abbrev KeyTable := Fin maxKeyslots → Option Keyslot

def versionMajorHeaderV2 : Nat := 2

def versionMajorHeaderV3 : Nat := 3

/-- A header as `to_bytes` writes it; `mvk` is the key of its HMAC. -/
structure HeaderImage where
  mvk : Nat
  versionMajor : Nat
  generation : Nat
  keyslots : KeyTable
  deriving DecidableEq

/-- `try_unlock` with this credential, then `verify_hmac`. -/
def HeaderImage.accepts (h : HeaderImage) (credential : Nat) : Prop :=
  ∃ i k, h.keyslots i = some k ∧ k.credential = credential ∧ k.mvk = h.mvk

/-- What the header region of a vault file, or a mirror, holds. -/
inductive HeaderBytes where
  | standard (image : HeaderImage)
  | deniable (header : DeniableHeader)
  | unparsable
  | unauthentic
  deriving DecidableEq

inductive Place where
  | committed
  | rotating
  deriving DecidableEq

/-- How one write or sync of a header ends. `torn` leaves a mixture of sectors;
`parses` says whether a torn standard header still parses. -/
inductive HeaderFault where
  | ok
  | before
  | torn (applied : Nat → Bool) (parses : Bool)
  | after

/-- The in-memory fields a rotation saves and an abort puts back. -/
structure RotationState where
  savedMvk : Nat
  savedHeaderSalt : Nat
  savedVersionMajor : Nat
  savedGeneration : Nat
  savedKeyslots : KeyTable
  savedHeaderDirty : Bool
  savedDeniable : Option DeniableState

structure Head where
  mvk : Nat
  headerSalt : Nat
  versionMajor : Nat
  headerGeneration : Nat
  keyslots : KeyTable
  headerDirty : Bool
  deniable : Option DeniableState
  files : Place → Option HeaderBytes
  mirrors : Place → Option HeaderBytes
  handle : Place
  path : Place
  rotation : Option RotationState
  io : List HeaderFault
  stored : List HeaderBytes

abbrev HeadM := EStateM Failure Head

namespace Head

def image (h : Head) : HeaderImage := ⟨h.mvk, h.versionMajor, h.headerGeneration, h.keyslots⟩

/-- Mirrors are kept from LUKSBOX2 on, never for a deniable vault and not while
a rotation is in flight. -/
def isV2Format (h : Head) : Bool :=
  decide (h.versionMajor ≥ versionMajorHeaderV2) && h.deniable.isNone && h.rotation.isNone

/-- `header_generation()`: none before header v3. -/
def generation? (h : Head) : Option Nat :=
  match h.deniable with
  | some den => den.v3.map DeniableHeaderV3.headerGeneration
  | none => if h.versionMajor ≥ versionMajorHeaderV3 then some h.headerGeneration else none

def nextFault : HeadM HeaderFault := fun h =>
  match h.io with
  | [] => .ok .ok h
  | f :: rest => .ok f { h with io := rest }

def ioFailed : Failure := .err (.format .io)

def refused : Failure := .err .crypto

/-- A call that has no effect on the header when it fails. -/
def ioStep : HeadM Unit := do
  match ← nextFault with
  | .ok => pure ()
  | _ => throw ioFailed

/-! ## Writing headers -/

/-- A write of which only some sectors reached the disk. -/
def tornBytes (applied : Nat → Bool) (parses : Bool) (old : Option HeaderBytes)
    (new : HeaderBytes) : HeaderBytes :=
  match old, new with
  | some (.deniable o), .deniable n => .deniable (DeniableHeader.torn applied o n)
  | _, _ => if parses then .unauthentic else .unparsable

/-- The region at offset 0 of the file behind the handle now holds `bytes`. -/
def storeHeader (h : Head) (bytes : HeaderBytes) : Head :=
  { h with
    files := Function.update h.files h.handle (some bytes)
    stored := bytes :: h.stored }

/-- `seek` to 0 and `write_all`. -/
def writeLiveHeader (bytes : HeaderBytes) : HeadM Unit := do
  match ← nextFault with
  | .ok => modify fun h => h.storeHeader bytes
  | .before => throw ioFailed
  | .torn applied parses => do
      modify fun h => h.storeHeader (tornBytes applied parses (h.files h.handle) bytes)
      throw ioFailed
  | .after => do
      modify fun h => h.storeHeader bytes
      throw ioFailed

def storeMirror (h : Head) (bytes : HeaderBytes) : Head :=
  { h with
    mirrors := Function.update h.mirrors h.path (some bytes)
    stored := bytes :: h.stored }

/-- `write_header_mirror`: temp file, fsync, rename. The mirror holds the old
bytes or the new ones. -/
def writeHeaderMirror (bytes : HeaderBytes) : HeadM Unit := do
  match ← nextFault with
  | .ok => modify fun h => h.storeMirror bytes
  | .after => do
      modify fun h => h.storeMirror bytes
      throw ioFailed
  | _ => throw ioFailed

/-- Mirror first, then the live region of an inline header. -/
def writeStandardHeader : HeadM Unit := do
  let h ← get
  if h.isV2Format then writeHeaderMirror (.standard h.image)
  writeLiveHeader (.standard h.image)
  ioStep
  ioStep

/-- What follows in `persistStandard` once the generation has moved. -/
def persistMoved (previous : Nat) : HeadM Unit := do
  match ← attempt writeStandardHeader with
  | .error e => do
      modify fun h => { h with headerGeneration := previous }
      throw e
  | .ok _ => modify fun h => { h with headerDirty := false }

/-- The standard half of `persist_header`: the generation moves first and moves
back when the write reports an error. -/
def persistStandard : HeadM Unit := do
  let h ← get
  let previous := h.headerGeneration
  if h.versionMajor ≥ versionMajorHeaderV3 then
    match nextHeaderGeneration previous with
    | none => throw refused
    | some next => modify fun h => { h with headerGeneration := next }
  persistMoved previous

/-- The deniable half: the cached header is written wholesale, and the state in
memory moves once the write succeeded. -/
def persistDeniable (den : DeniableState) (nonce : Nat) : HeadM Unit := do
  let h ← get
  match den.resealed h.mvk nonce with
  | .error _ => throw refused
  | .ok den' => do
      writeLiveHeader (.deniable den'.bytes)
      ioStep
      modify fun h => { h with deniable := some den', headerDirty := false }

/-- `persist_header`, less the refresh of an attached anchor. -/
def persistHeader (nonce : Nat) : HeadM Unit := do
  let h ← get
  if h.headerDirty = false then pure ()
  else
    match h.deniable with
    | some den => persistDeniable den nonce
    | none => persistStandard

/-- `restore_header_bytes` of a standard header: live only, no mirror. -/
def restoreHeaderBytes (image : HeaderImage) : HeadM Unit := do
  writeLiveHeader (.standard image)
  ioStep
  modify fun h => { h with headerDirty := false }

/-- `restore_header_as_new_state` of a backup verified under the vault's key. -/
def restoreHeaderAsNewState (versionMajor generation : Nat) (keyslots : KeyTable) :
    HeadM Unit := do
  let h ← get
  if h.deniable.isSome then throw refused
  else if h.generation?.isSome ∨ versionMajor ≥ versionMajorHeaderV3 then
    -- a backup older than v3 carries generation 0
    let backup := if versionMajor ≥ versionMajorHeaderV3 then generation else 0
    match nextHeaderGeneration (max (h.generation?.getD 0) backup) with
    | none => throw refused
    | some next => do
        restoreHeaderBytes ⟨h.mvk, max versionMajor versionMajorHeaderV3, next, keyslots⟩
        modify fun h =>
          { h with
            versionMajor := max versionMajor versionMajorHeaderV3
            headerGeneration := next
            keyslots := keyslots }
  else do
    restoreHeaderBytes ⟨h.mvk, versionMajor, 0, keyslots⟩
    modify fun h =>
      { h with versionMajor := versionMajor, headerGeneration := 0, keyslots := keyslots }

/-! ## Keyslots -/

def guardStandard : HeadM Unit := do
  let h ← get
  if h.deniable.isSome then throw refused else pure ()

/-- Put a slot, or nothing, at `idx`; memory only. -/
def setSlot (idx : Nat) (slot : Option Keyslot) : HeadM Unit := do
  if lt : idx < maxKeyslots then
    modify fun h =>
      { h with keyslots := Function.update h.keyslots ⟨idx, lt⟩ slot, headerDirty := true }
  else throw refused

def firstFreeSlot (table : KeyTable) : Option (Fin maxKeyslots) :=
  (List.finRange maxKeyslots).find? fun i => (table i).isNone

/-- The `enroll_*` family: a slot for the current master key in the first free
place. -/
def enroll (credential salt : Nat) (derivedMvk : Bool) : HeadM Unit := do
  guardStandard
  let h ← get
  match firstFreeSlot h.keyslots with
  | none => throw refused
  | some idx => setSlot idx.val (some ⟨credential, derivedMvk, salt, h.mvk⟩)

/-- The `update_*_at` family. -/
def updateAt (idx credential salt : Nat) (derivedMvk : Bool) : HeadM Unit := do
  guardStandard
  let h ← get
  setSlot idx (some ⟨credential, derivedMvk, salt, h.mvk⟩)

def revokeSlot (idx : Nat) : HeadM Unit := do
  guardStandard
  setSlot idx none

def swapSlots (a b : Nat) : HeadM Unit := do
  guardStandard
  if lt : a < maxKeyslots ∧ b < maxKeyslots then
    if a = b then pure ()
    else
      modify fun h =>
        { h with
          keyslots := fun i => h.keyslots (Equiv.swap ⟨a, lt.1⟩ ⟨b, lt.2⟩ i)
          headerDirty := true }
  else throw refused

def enrollDeniable (accepts : Argon2idParams → Bool) (slotIdx : Nat)
    (credential : DeniableCredential) (material : DeniableMaterial) (seed : SlotSeed) :
    HeadM Unit := do
  let h ← get
  match h.deniable with
  | none => throw refused
  | some den =>
      match den.enroll accepts h.mvk slotIdx credential material seed with
      | .error _ => throw refused
      | .ok den' => modify fun h => { h with deniable := some den', headerDirty := true }

def clearDeniableSlot (slotIdx fill : Nat) : HeadM Unit := do
  let h ← get
  match h.deniable with
  | none => throw refused
  | some den =>
      match den.clear slotIdx fill with
      | .error _ => throw refused
      | .ok den' => modify fun h => { h with deniable := some den', headerDirty := true }

/-- The new key and salt go into the container as soon as the envelopes are
rebuilt in memory. -/
def rotateDeniableEnvelope (accepts : Argon2idParams → Bool) (newSalt newMvk nonce : Nat)
    (fill : Fin deniableSlotCount → Nat) (keep : List KeepSlot) : HeadM Unit := do
  let h ← get
  match h.deniable with
  | none => throw refused
  | some den =>
      match den.rotate accepts newSalt newMvk nonce fill keep with
      | .error _ => throw refused
      | .ok den' =>
          modify fun h =>
            { h with
              deniable := some den', mvk := newMvk, headerSalt := newSalt, headerDirty := true }

/-- `upgrade_header_to_v3`; a LUKSBOX1 header is refused. -/
def upgradeHeaderToV3 : HeadM Bool := do
  let h ← get
  if h.rotation.isSome then throw refused
  else if h.generation?.isSome then pure false
  else
    match h.deniable with
    | some den => do
        modify fun h => { h with deniable := some den.upgrade, headerDirty := true }
        pure true
    | none =>
        if h.versionMajor < versionMajorHeaderV2 then throw refused
        else do
          modify fun h =>
            { h with
              versionMajor := versionMajorHeaderV3, headerGeneration := 0, headerDirty := true }
          pure true

/-! ## Rotation -/

/-- What `begin_atomic_rotation` remembers. -/
def saved (h : Head) : RotationState :=
  ⟨h.mvk, h.headerSalt, h.versionMajor, h.headerGeneration, h.keyslots, h.headerDirty, h.deniable⟩

/-- Copy the vault file to `.rotating` and work on the copy. A copy that fails
is removed again. -/
def beginAtomicRotation : HeadM Unit := do
  let h ← get
  if h.rotation.isSome then throw refused
  else if (h.files .rotating).isSome then throw ioFailed
  else do
    ioStep
    modify fun h =>
      { h with
        files := Function.update h.files .rotating (h.files h.handle)
        handle := .rotating
        path := .rotating
        rotation := some h.saved }

/-- `install_rotated_mvk_multi`: the rebuilt slots and nothing else. -/
def installRotatedMvk (newMvk : Nat) (table : KeyTable) : HeadM Unit :=
  modify fun h => { h with keyslots := table, mvk := newMvk, headerDirty := true }

/-- The rename: the copy is now the vault. -/
def renamed (h : Head) : Head :=
  { h with
    files := Function.update (Function.update h.files .committed (h.files .rotating)) .rotating none
    handle := .committed }

/-- Delete the pre-rotation mirror if the disk lets us. -/
def removeStaleMirror : HeadM Unit := do
  match ← nextFault with
  | .ok => modify fun h => { h with mirrors := Function.update h.mirrors .committed none }
  | _ => pure ()

/-- `commit_atomic_rotation`. The rotation state is taken out first and only a
failed rename puts it back. -/
def commitAtomicRotation : HeadM Unit := do
  let h ← get
  match h.rotation with
  | none => throw refused
  | some state => do
      modify fun h => { h with rotation := none }
      ioStep
      ioStep
      match ← attempt ioStep with
      | .error e => do
          modify fun h => { h with rotation := some state }
          throw e
      | .ok _ => do
          modify renamed
          ioStep
          modify fun h => { h with mirrors := Function.update h.mirrors .rotating none }
          removeStaleMirror
          modify fun h => { h with headerDirty := true, path := .committed }

/-- The saved fields and the original handle come back, the copy goes. -/
def restored (h : Head) (state : RotationState) : Head :=
  { h with
    mvk := state.savedMvk
    headerSalt := state.savedHeaderSalt
    versionMajor := state.savedVersionMajor
    headerGeneration := state.savedGeneration
    keyslots := state.savedKeyslots
    headerDirty := state.savedHeaderDirty
    deniable := state.savedDeniable.or h.deniable
    files := Function.update h.files .rotating none
    mirrors := Function.update h.mirrors .rotating none
    handle := .committed
    path := .committed
    rotation := none }

/-- `abort_atomic_rotation`; the retained handle is always there on POSIX. -/
def abortAtomicRotation : HeadM Unit := do
  let h ← get
  match h.rotation with
  | none => pure ()
  | some state => set (h.restored state)

/-- The header half of `rotate_mvk` and `rotate_mvk_deniable`: `install` puts the
new slots and key in place, `fails` says whether the re-encryption gives up,
`commit` are the outcomes of the commit's calls. -/
def rotateHeader (install : HeadM Unit) (fails : Bool) (nonce : Nat)
    (commit : List HeaderFault) : HeadM Unit := do
  beginAtomicRotation
  let r ← attempt do
    install
    if fails then throw refused
    persistHeader nonce
  match r with
  | .ok _ => do
      modify fun h => { h with io := commit }
      commitAtomicRotation
  | .error e => do
      abortAtomicRotation
      throw e

/-! ## Sessions -/

/-- What an open looks at: the live header if it parses, else the mirror. -/
def loaded (h : Head) : Option HeaderBytes :=
  match h.files .committed with
  | some .unparsable => h.mirrors .committed
  | other => other

/-- A container opened on the files as they are. A header that came through the
mirror is written again by the next persist. -/
def opened (h : Head) (bytes : HeaderBytes) : Option Head :=
  match bytes with
  | .standard image => some
      { h with
        mvk := image.mvk
        versionMajor := image.versionMajor
        headerGeneration :=
          if image.versionMajor ≥ versionMajorHeaderV3 then image.generation else 0
        keyslots := image.keyslots
        headerDirty := decide (h.files .committed = some .unparsable)
        deniable := none
        handle := .committed
        path := .committed
        rotation := none }
  | .deniable header =>
      match header.salt, header.inner with
      | some salt, .box b =>
          -- a v3 inner header has to vouch for the slots
          if b.v3.elim true (fun v => decide (v.slotTableDigest = header.slots)) then some
            { h with
              mvk := b.mvk
              headerSalt := salt
              headerDirty := false
              deniable := some ⟨header, salt, b.inner, b.v3, 0⟩
              handle := .committed
              path := .committed
              rotation := none }
          else none
      | _, _ => none
  | .unparsable => none
  | .unauthentic => none

/-- Leave the session behind and open the vault again. -/
def reopen (h : Head) : Option Head := h.loaded.bind h.opened

/-- What a session does to its header. -/
inductive Op where
  | enroll (credential salt : Nat) (derivedMvk : Bool)
  | updateAt (idx credential salt : Nat) (derivedMvk : Bool)
  | revokeSlot (idx : Nat)
  | swapSlots (a b : Nat)
  | enrollDeniable (accepts : Argon2idParams → Bool) (slotIdx : Nat)
      (credential : DeniableCredential) (material : DeniableMaterial) (seed : SlotSeed)
  | clearDeniableSlot (slotIdx fill : Nat)
  | upgradeHeaderToV3
  | persistHeader (nonce : Nat)
  | restoreHeader (versionMajor generation : Nat) (keyslots : KeyTable)
  | rotateMvk (newMvk : Nat) (table : KeyTable) (fails : Bool) (commit : List HeaderFault)
  | rotateMvkDeniable (accepts : Argon2idParams → Bool) (newSalt newMvk nonce : Nat)
      (fill : Fin deniableSlotCount → Nat) (keep : List KeepSlot) (fails : Bool)
      (commit : List HeaderFault)
  | abortRotation

def exec : Op → HeadM Unit
  | .enroll credential salt derivedMvk => enroll credential salt derivedMvk
  | .updateAt idx credential salt derivedMvk => updateAt idx credential salt derivedMvk
  | .revokeSlot idx => revokeSlot idx
  | .swapSlots a b => swapSlots a b
  | .enrollDeniable accepts slotIdx credential material seed =>
      enrollDeniable accepts slotIdx credential material seed
  | .clearDeniableSlot slotIdx fill => clearDeniableSlot slotIdx fill
  | .upgradeHeaderToV3 => (fun _ => ()) <$> upgradeHeaderToV3
  | .persistHeader nonce => persistHeader nonce
  | .restoreHeader versionMajor generation keyslots =>
      restoreHeaderAsNewState versionMajor generation keyslots
  | .rotateMvk newMvk table fails commit =>
      rotateHeader (installRotatedMvk newMvk table) fails 0 commit
  | .rotateMvkDeniable accepts newSalt newMvk nonce fill keep fails commit =>
      rotateHeader (rotateDeniableEnvelope accepts newSalt newMvk nonce fill keep) fails (nonce + 1)
        commit
  | .abortRotation => abortAtomicRotation

/-- What `set_anchor` checks of the header: a generation below the one the
anchor recorded, a header older than v3 counting as generation 0. -/
def headerRollbackDetected (recorded : Option Nat) (h : Head) : Bool :=
  match recorded with
  | some anchorHg => decide (anchorHg > h.generation?.getD 0)
  | none => false

/-! ## Runs -/

/-- `create_internal`: a header older than v3, and no mirror of it yet. -/
def created (mvk headerSalt : Nat) (luksbox2 : Bool) (keyslots : KeyTable) : Head :=
  let versionMajor := if luksbox2 then versionMajorHeaderV2 else 1
  let bytes := HeaderBytes.standard ⟨mvk, versionMajor, 0, keyslots⟩
  { mvk := mvk
    headerSalt := headerSalt
    versionMajor := versionMajor
    headerGeneration := 0
    keyslots := keyslots
    headerDirty := false
    deniable := none
    files := Function.update (fun _ => none) .committed (some bytes)
    mirrors := fun _ => none
    handle := .committed
    path := .committed
    rotation := none
    io := []
    stored := [bytes] }

def createdDeniable (header : DeniableHeader) (salt mvk slotIdx : Nat)
    (inner : DeniableInnerHeader) : Head :=
  { mvk := mvk
    headerSalt := salt
    versionMajor := 1
    headerGeneration := 0
    keyslots := fun _ => none
    headerDirty := false
    deniable := some ⟨header, salt, inner, none, slotIdx⟩
    files := Function.update (fun _ => none) .committed (some (.deniable header))
    mirrors := fun _ => none
    handle := .committed
    path := .committed
    rotation := none
    io := []
    stored := [.deniable header] }

/-- One call whose writes end as `io` says. -/
def after (h : Head) (op : Op) (io : List HeaderFault) : Head :=
  match exec op { h with io := io } with
  | .ok _ h' => h'
  | .error _ h' => h'

/-- A call that returns, or one the process dies in before the vault is opened
again. -/
inductive Step where
  | call (op : Op) (io : List HeaderFault)
  | crash (op : Op) (io : List HeaderFault)

def next (h : Head) : Step → Option Head
  | .call op io => some (h.after op io)
  | .crash op io => (h.after op io).reopen

def run (h : Head) : List Step → Option Head
  | [] => some h
  | s :: rest => (h.next s).bind fun h' => h'.run rest

end Head

end Luksbox
