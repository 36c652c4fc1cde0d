import Mathlib.Logic.Equiv.Basic
import Luksbox.Model.Unlock

/-!
# Changing the keyslots of an open container (`luksbox-format/src/container.rs`)

Enrolment, revocation, swapping and replacing of slots change the header in
memory; `persist_header` writes it and an open reads it back. A step returns the
result of the call and the state it leaves, also when the call fails.

The container is a standard one: on a deniable container the calls that change
slots return at their guard. What a write leaves behind when it fails is the old
bytes, the new ones (the mirror is written first), or nothing that an open
accepts. `enrolled` is not in the source: it lists the Secure Enclave slots that
were enrolled, each with the blob supplied for it.
-/

namespace Luksbox.Core

open Lib

structure SlotState where
  header : Header
  headerDirty : Bool
  disk : Option (Buf 8192)
  enrolled : List (Keyslot × List UInt8)

/-- What a failed write leaves for the next open. -/
inductive DiskOutcome where
  | old
  | new
  | lost

def DiskOutcome.apply (old : Option (Buf 8192)) (new : Buf 8192) :
    DiskOutcome → Option (Buf 8192)
  | .old => old
  | .new => some new
  | .lost => none

inductive PersistFault where
  | none
  /-- `write_standard_header` fails. -/
  | write (outcome : DiskOutcome)
  /-- The header is written, the refresh of the anchor fails. -/
  | anchor

inductive SlotOp where
  /-- One of the `enroll_*` functions; the blob is the argument of `enroll_sep`. -/
  | enroll (call : NewSlot) (blob : List UInt8) (rng : SlotRng)
  | revokeSlot (idx : Nat)
  | swapSlots (a b : Nat)
  | updatePassphraseAt (idx : Nat) (passphrase : List UInt8) (params : Argon2idParams) (rng : SlotRng)
  | updateFido2At (idx : Nat) (passphrase : Option (List UInt8)) (hmacSecret : Key)
      (credId : List UInt8) (hmacSalt : Bytes 32) (params : Argon2idParams) (rng : SlotRng)
  | updateTpm2At (idx : Nat) (kekFromTpm : Key) (sealedBlob : List UInt8) (rng : SlotRng)
  | persistHeader (padding : HeaderPadding) (fault : PersistFault)
  | reopen

namespace Header

def bumpGeneration (h : Header) : Header :=
  if h.hasHeaderGeneration then { h with headerGeneration := h.headerGeneration + 1 } else h

/-- The flag goes in before the bytes are made, so that the mirror says that it
exists. -/
def markMirror (h : Header) : Header :=
  if h.versionMajor ≥ versionMajorV2 ∧ h.hasHeaderMirror = false then
    { h with flags := h.flags ||| flagHasHeaderMirror }
  else h

end Header

namespace SlotState

variable (c : Crypto) (mvk : Key) (st : SlotState)

abbrev Outcome := Except OpenError Unit × SlotState

def fails (e : Error) : Outcome := (.error (.crypto e), st)

def changes (header : Header) : Outcome :=
  (.ok (), { st with header := header, headerDirty := true })

/-- All `enroll_*` functions but `enroll_sep`. -/
def enrollPlain (call : NewSlot) (rng : SlotRng) : Outcome :=
  match st.header.firstFreeSlot with
  | .error e => st.fails e
  | .ok idx =>
      match call.build c st.header.cipherSuite st.header.headerSalt mvk rng with
      | .error e => st.fails e
      | .ok slot =>
          match st.header.installSlot idx.val slot with
          | .error e => st.fails e
          | .ok header => st.changes header

/-- `enroll_sep`: the slot is installed, and taken back if its blob does not
fit. -/
def enrollSep (call : NewSlot) (blob : List UInt8) (rng : SlotRng) : Outcome :=
  match st.header.firstFreeSlot with
  | .error e => st.fails e
  | .ok idx =>
      match call.build c st.header.cipherSuite st.header.headerSalt mvk rng with
      | .error e => st.fails e
      | .ok slot =>
          match st.header.installSlot idx.val slot with
          | .error e => st.fails e
          | .ok installed =>
              match installed.setSepBlob idx.val blob with
              | .error e =>
                  match installed.revokeSlot idx.val with
                  | .ok revoked => { st with header := revoked }.fails e
                  | .error _ => { st with header := installed }.fails e
              | .ok header => { st with enrolled := (slot, blob) :: st.enrolled }.changes header

def enroll (call : NewSlot) (blob : List UInt8) (rng : SlotRng) : Outcome :=
  match call with
  | .sep .. => st.enrollSep c mvk call blob rng
  | _ => st.enrollPlain c mvk call rng

def revokeSlot (idx : Nat) : Outcome :=
  match st.header.revokeSlot idx with
  | .error e => st.fails e
  | .ok header => st.changes header

/-- The blobs move with their slots. -/
def swapSlots (a b : Nat) : Outcome :=
  if h : a < 8 ∧ b < 8 then
    if a = b then (.ok (), st)
    else
      st.changes { st.header with
        keyslots := fun i => st.header.keyslots (Equiv.swap ⟨a, h.1⟩ ⟨b, h.2⟩ i)
        sepBlobs := fun i => st.header.sepBlobs (Equiv.swap ⟨a, h.1⟩ ⟨b, h.2⟩ i) }
  else (.error .io, st)

/-- The body of the three `update_*_at` functions. -/
def updateAt (idx : Nat) (call : NewSlot) (rng : SlotRng) : Outcome :=
  match call.build c st.header.cipherSuite st.header.headerSalt mvk rng with
  | .error e => st.fails e
  | .ok slot =>
      match st.header.installSlot idx slot with
      | .error e => st.fails e
      | .ok header => st.changes header

/-- The standard half of `persist_header`. -/
def persistHeader (padding : HeaderPadding) (fault : PersistFault) : Outcome :=
  if st.headerDirty = false then (.ok (), st)
  else if st.header.hasHeaderGeneration ∧ st.header.headerGeneration.toNat + 1 ≥ 2 ^ 64 then
    st.fails .invalidField
  else
    let flagged := st.header.bumpGeneration.markMirror
    let bytes := flagged.toBytes c mvk padding
    match fault with
    | .none => (.ok (), { st with header := flagged, headerDirty := false, disk := some bytes })
    | .write outcome =>
        (.error .io, { st with
          header := { flagged with headerGeneration := st.header.headerGeneration }
          disk := outcome.apply st.disk bytes })
    | .anchor =>
        (.error .io, { st with header := flagged, headerDirty := false, disk := some bytes })

/-- An open of what is on disk, by the same key. -/
def reopen : Outcome :=
  match st.disk with
  | none => (.error .io, st)
  | some bytes =>
      match Header.fromBytes bytes with
      | .error e => st.fails e
      | .ok header =>
          match header.verifyHmac c bytes mvk with
          | .error e => st.fails e
          | .ok () => (.ok (), { st with header := header, headerDirty := false })

def step : SlotOp → Outcome
  | .enroll call blob rng => st.enroll c mvk call blob rng
  | .revokeSlot idx => st.revokeSlot idx
  | .swapSlots a b => st.swapSlots a b
  | .updatePassphraseAt idx pw params rng => st.updateAt c mvk idx (.passphrase pw params) rng
  | .updateFido2At idx pw hs cred salt params rng =>
      st.updateAt c mvk idx (.fido2 pw hs cred salt params) rng
  | .updateTpm2At idx kek blob rng => st.updateAt c mvk idx (.tpm2 kek blob) rng
  | .persistHeader padding fault => st.persistHeader c mvk padding fault
  | .reopen => st.reopen c mvk

end SlotState

end Luksbox.Core
