import Luksbox.Lib.Bytes
import Mathlib.Data.Fintype.Pi
import Mathlib.Logic.Function.Basic

/-!
# The deniable header (`luksbox-format/src/deniable_header.rs`, `luksbox-core/src/deniable.rs`)

A deniable header is a salt, eight slots and an inner header, all of them
indistinguishable from noise. A slot in use is an envelope under a key derived
from the passphrase alone; inside lie the kind of the credential, the material
its second factors need, and the master key wrapped under all factors. The
inner header of format v3 also carries a generation and the digest of the slot
table it was sealed next to.

Cryptography is ideal and therefore symbolic. A key is the tuple of what it is
derived from, a ciphertext is the box it was sealed as, and a box opens under
exactly its own key and associated data. Random bytes open under no key, and so
does a mixture of two ciphertexts. The digest of a slot table is the table.
The 60 bytes of a wrapped master key are kept as the box they are, everything
before them in a payload is encoded and parsed byte by byte.

`accepts` stands for the parameter checks of the Argon2 crate.
-/

namespace Luksbox

open Lib

inductive DeniableKindTag where
  | passphrase
  | fido2Passphrase
  | tpmPassphrase
  | tpmFido2Passphrase
  | hybridPqPassphrase
  | hybridPqFido2Passphrase
  | hybridPqTpmPassphrase
  | hybridPqTpmFido2Passphrase
  | sepPassphrase
  | sepFido2Passphrase
  | hybridPqSepPassphrase
  | hybridPqSepFido2Passphrase
  deriving DecidableEq

namespace DeniableKindTag

def toU8 : DeniableKindTag → UInt8
  | passphrase => 1
  | fido2Passphrase => 2
  | tpmPassphrase => 3
  | tpmFido2Passphrase => 4
  | hybridPqPassphrase => 5
  | hybridPqFido2Passphrase => 6
  | hybridPqTpmPassphrase => 7
  | hybridPqTpmFido2Passphrase => 8
  | sepPassphrase => 9
  | sepFido2Passphrase => 10
  | hybridPqSepPassphrase => 11
  | hybridPqSepFido2Passphrase => 12

def fromU8 (v : UInt8) : Option DeniableKindTag :=
  if v = 1 then some passphrase
  else if v = 2 then some fido2Passphrase
  else if v = 3 then some tpmPassphrase
  else if v = 4 then some tpmFido2Passphrase
  else if v = 5 then some hybridPqPassphrase
  else if v = 6 then some hybridPqFido2Passphrase
  else if v = 7 then some hybridPqTpmPassphrase
  else if v = 8 then some hybridPqTpmFido2Passphrase
  else if v = 9 then some sepPassphrase
  else if v = 10 then some sepFido2Passphrase
  else if v = 11 then some hybridPqSepPassphrase
  else if v = 12 then some hybridPqSepFido2Passphrase
  else none

end DeniableKindTag

structure Argon2idParams where
  mCostKib : Nat
  tCost : Nat
  pCost : Nat
  deriving DecidableEq, Inhabited

/-- A credential of any kind. `secondaries` are the 32-byte outputs of the
further factors, in the order `derive_factors_kek` hashes them. -/
structure DeniableCredential where
  kindTag : DeniableKindTag
  passphrase : List UInt8
  argon2 : Argon2idParams
  secondaries : List (List UInt8)
  deriving DecidableEq

/-- `Argon2id(passphrase, salt, params)`. -/
structure EnvelopeKek where
  passphrase : List UInt8
  argon2 : Argon2idParams
  salt : Nat
  deriving DecidableEq

/-- `HKDF(salt, envelope_kek ‖ secondaries, label)`; every kind has a label of
its own. -/
structure FactorsKek where
  salt : Nat
  envelope : EnvelopeKek
  label : DeniableKindTag
  secondaries : List (List UInt8)
  deriving DecidableEq

inductive DeniableError where
  | opaqueUnlockFailed
  | invalidKeyslotIndex (idx : Nat)
  | invalidField
  | kdf
  | requiresEmptyVault
  | generationExhausted
  | io
  deriving DecidableEq

namespace DeniableCredential

def deriveEnvelopeKek (accepts : Argon2idParams → Bool) (c : DeniableCredential) (salt : Nat) :
    Except DeniableError EnvelopeKek :=
  if accepts c.argon2 then .ok ⟨c.passphrase, c.argon2, salt⟩ else .error .kdf

def deriveFactorsKek (c : DeniableCredential) (salt : Nat) (envelope : EnvelopeKek) : FactorsKek :=
  ⟨salt, envelope, c.kindTag, c.secondaries⟩

end DeniableCredential

/-- `nonce ‖ aead::seal(key, nonce, aad, pt)`; the AAD of a slot names the salt
and the slot index. -/
structure Sealed (κ α : Type) where
  key : κ
  nonce : Nat
  aad : Nat × Nat
  pt : α
  deriving DecidableEq

def Sealed.open? {κ α : Type} [DecidableEq κ] (box : Sealed κ α) (key : κ) (aad : Nat × Nat) :
    Option α :=
  if box.key = key ∧ box.aad = aad then some box.pt else none

/-! ## The payload of a slot -/

def credIdMaxLen : Nat := 1024

def hmacSaltLen : Nat := 32

def tpmBlobMaxLen : Nat := 3500

def materialBudget : Nat := 4000

/-- What an enrolment embeds besides the wrapped master key. -/
structure DeniableMaterial where
  credId : List UInt8
  hmacSalt : Option { salt : List UInt8 // salt.length = hmacSaltLen }
  tpmBlob : List UInt8
  deriving DecidableEq

structure SlotPayload where
  kind : DeniableKindTag
  material : DeniableMaterial
  wrappedMvk : Sealed FactorsKek Nat
  deriving DecidableEq

/-- The plaintext of an envelope: the bytes up to the wrapped master key, and
the wrapped master key. The padding behind it is never read. -/
structure PayloadPlaintext where
  bytes : List UInt8
  wrappedMvk : Sealed FactorsKek Nat
  deriving DecidableEq

namespace SlotPayload

def saltLenOf (material : DeniableMaterial) : Nat :=
  if material.hmacSalt.isSome then hmacSaltLen else 0

def new (kind : DeniableKindTag) (material : DeniableMaterial) (wrapped : Sealed FactorsKek Nat) :
    Except DeniableError SlotPayload :=
  if material.credId.length > credIdMaxLen then .error .invalidField
  else if material.tpmBlob.length > tpmBlobMaxLen then .error .invalidField
  else if material.credId.length + saltLenOf material + material.tpmBlob.length > materialBudget then
    .error .invalidField
  else .ok ⟨kind, material, wrapped⟩

def saltBytes (material : DeniableMaterial) : List UInt8 :=
  match material.hmacSalt with
  | some salt => salt.val
  | none => []

def encode (p : SlotPayload) : PayloadPlaintext where
  bytes := [p.kind.toU8] ++ leBytes 2 p.material.credId.length ++
    [UInt8.ofNat (saltLenOf p.material)] ++ leBytes 2 p.material.tpmBlob.length ++ [0, 0] ++
    (p.material.credId ++ (saltBytes p.material ++ p.material.tpmBlob))
  wrappedMvk := p.wrappedMvk

/-- The salt field of a payload whose length byte is `len`. -/
def decodeSalt (len : Nat) (rest : List UInt8) :
    Option { salt : List UInt8 // salt.length = hmacSaltLen } :=
  if h : len = hmacSaltLen ∧ (rest.take len).length = hmacSaltLen then some ⟨rest.take len, h.2⟩
  else none

def decode (pt : PayloadPlaintext) : Except DeniableError SlotPayload :=
  match pt.bytes with
  | k :: c0 :: c1 :: s :: t0 :: t1 :: r0 :: r1 :: rest =>
      match DeniableKindTag.fromU8 k with
      | none => .error .invalidField
      | some kind =>
          let credIdLen := leNat [c0, c1]
          let saltLen := s.toNat
          let tpmBlobLen := leNat [t0, t1]
          if r0 ≠ 0 ∨ r1 ≠ 0 then .error .invalidField
          else if credIdLen > credIdMaxLen then .error .invalidField
          else if ¬ (saltLen = 0 ∨ saltLen = hmacSaltLen) then .error .invalidField
          else if tpmBlobLen > tpmBlobMaxLen then .error .invalidField
          else if credIdLen + saltLen + tpmBlobLen > materialBudget then .error .invalidField
          -- the wrapped master key starts where the material ends
          else if rest.length ≠ credIdLen + saltLen + tpmBlobLen then .error .invalidField
          else .ok {
            kind := kind
            material := {
              credId := rest.take credIdLen
              hmacSalt := decodeSalt saltLen (rest.drop credIdLen)
              tpmBlob := (rest.drop (credIdLen + saltLen)).take tpmBlobLen }
            wrappedMvk := pt.wrappedMvk }
  | _ => .error .invalidField

end SlotPayload

/-! ## The 36 KiB header -/

inductive SlotRegion where
  | noise (fill : Nat)
  | envelope (box : Sealed EnvelopeKek PayloadPlaintext)
  | torn
  deriving DecidableEq

abbrev deniableSlotCount : Nat := 8

/-- The slot table; its own digest. -/
abbrev SlotTable := Fin deniableSlotCount → SlotRegion

structure DeniableInnerHeader where
  flags : Nat
  metadataOffset : Nat
  metadataSize : Nat
  dataOffset : Nat
  chunkSize : Nat
  deriving DecidableEq, Inhabited

structure DeniableHeaderV3 where
  headerGeneration : Nat
  slotTableDigest : SlotTable
  deriving DecidableEq

/-- `mvk` and the salt make the key, the salt and the label the AAD. -/
structure InnerBox where
  mvk : Nat
  salt : Nat
  nonce : Nat
  inner : DeniableInnerHeader
  v3 : Option DeniableHeaderV3
  deriving DecidableEq

inductive InnerRegion where
  | box (b : InnerBox)
  | torn
  deriving DecidableEq

structure DeniableHeader where
  salt : Option Nat
  slots : SlotTable
  inner : InnerRegion
  deriving DecidableEq

namespace DeniableHeader

def slotTableDigest (h : DeniableHeader) : SlotTable := h.slots

/-- A fresh nonce, and the v3 fields under the v3 label when there are any. -/
def sealInnerInto (h : DeniableHeader) (inner : DeniableInnerHeader) (v3 : Option DeniableHeaderV3)
    (mvk salt nonce : Nat) : DeniableHeader :=
  { h with inner := .box ⟨mvk, salt, nonce, inner, v3⟩ }

def resealInnerV3 (h : DeniableHeader) (inner : DeniableInnerHeader)
    (generation mvk salt nonce : Nat) : DeniableHeader × DeniableHeaderV3 :=
  let v3 : DeniableHeaderV3 := ⟨generation, h.slotTableDigest⟩
  (h.sealInnerInto inner (some v3) mvk salt nonce, v3)

/-- Both labels are tried; the box knows which one it was sealed under. -/
def openInnerRegion (region : InnerRegion) (mvk salt : Nat) :
    Except DeniableError (DeniableInnerHeader × Option DeniableHeaderV3) :=
  match region with
  | .torn => .error .opaqueUnlockFailed
  | .box b =>
      if b.mvk = mvk ∧ b.salt = salt then .ok (b.inner, b.v3) else .error .opaqueUnlockFailed

def checkSlotDigest (v3 : Option DeniableHeaderV3) (actual : SlotTable) :
    Except DeniableError Unit :=
  match v3 with
  | none => .ok ()
  | some v3 => if v3.slotTableDigest = actual then .ok () else .error .opaqueUnlockFailed

end DeniableHeader

/-! ## Opening -/

structure OpenedDeniableEnvelope where
  envelopeKek : EnvelopeKek
  perVaultSalt : Nat
  matchedSlotIdx : Fin deniableSlotCount
  payload : SlotPayload
  innerHeaderRegion : InnerRegion
  slotTableDigest : SlotTable

structure OpenedDeniableHeader where
  mvk : Nat
  inner : DeniableInnerHeader
  perVaultSalt : Nat
  matchedSlotIdx : Fin deniableSlotCount
  v3 : Option DeniableHeaderV3

/-- One trial decryption of the sweep. -/
def SlotRegion.openEnvelope (region : SlotRegion) (kek : EnvelopeKek) (salt idx : Nat) :
    Option PayloadPlaintext :=
  match region with
  | .envelope box => box.open? kek (salt, idx)
  | .noise _ => none
  | .torn => none

/-- The kind byte of a payload, zero for a slot that did not open. -/
def kindByte (pt : Option PayloadPlaintext) : UInt8 :=
  match pt with
  | some pt => pt.bytes.headD 0
  | none => 0

/-- The reverse sweep: every pick overwrites the one before, so the lowest
index wins. -/
def reverseSweep (picks : Fin deniableSlotCount → Bool) : Option (Fin deniableSlotCount) :=
  (List.finRange deniableSlotCount).reverse.foldl
    (fun found i => if picks i then some i else found) none

def tryOpenEnvelopeV2 (accepts : Argon2idParams → Bool) (h : DeniableHeader)
    (credential : DeniableCredential) (wantKind : Option DeniableKindTag) :
    Except DeniableError OpenedDeniableEnvelope :=
  match h.salt with
  -- a salt torn across sectors is some other salt
  | none => .error .opaqueUnlockFailed
  | some salt =>
      match credential.deriveEnvelopeKek accepts salt with
      | .error _ => .error .opaqueUnlockFailed
      | .ok kek =>
          let want := (wantKind.getD credential.kindTag).toU8
          let pts := fun i : Fin deniableSlotCount => (h.slots i).openEnvelope kek salt i.val
          let okAny := fun i => (pts i).isSome
          let okKind := fun i => (pts i).isSome && decide (kindByte (pts i) = want)
          match (reverseSweep okKind).orElse fun _ => reverseSweep okAny with
          | none => .error .opaqueUnlockFailed
          | some idx =>
              match pts idx with
              | none => .error .opaqueUnlockFailed
              | some pt =>
                  match SlotPayload.decode pt with
                  | .error _ => .error .opaqueUnlockFailed
                  | .ok payload => .ok {
                      envelopeKek := kek
                      perVaultSalt := salt
                      matchedSlotIdx := idx
                      payload := payload
                      innerHeaderRegion := h.inner
                      slotTableDigest := h.slotTableDigest }

def completeOpenV2 (opened : OpenedDeniableEnvelope) (credential : DeniableCredential) :
    Except DeniableError OpenedDeniableHeader := do
  if credential.kindTag ≠ opened.payload.kind then .error .opaqueUnlockFailed
  else
    let factorsKek := credential.deriveFactorsKek opened.perVaultSalt opened.envelopeKek
    match opened.payload.wrappedMvk.open? factorsKek
        (opened.perVaultSalt, opened.matchedSlotIdx.val) with
    | none => .error .opaqueUnlockFailed
    | some mvk => do
        let (inner, v3) ← DeniableHeader.openInnerRegion opened.innerHeaderRegion mvk
          opened.perVaultSalt
        DeniableHeader.checkSlotDigest v3 opened.slotTableDigest
        .ok ⟨mvk, inner, opened.perVaultSalt, opened.matchedSlotIdx, v3⟩

/-! ## Slot lifecycle -/

/-- What the system RNG hands out for one envelope. -/
structure SlotSeed where
  wrappedMvkNonce : Nat
  envNonce : Nat
  deriving Inhabited

/-- The two layers of a slot: the wrapped master key inside its envelope. -/
def sealSlot (accepts : Argon2idParams → Bool) (idx : Nat) (credential : DeniableCredential)
    (material : DeniableMaterial) (mvk salt : Nat) (seed : SlotSeed) :
    Except DeniableError SlotRegion := do
  let kek ← credential.deriveEnvelopeKek accepts salt
  let factorsKek := credential.deriveFactorsKek salt kek
  let wrapped : Sealed FactorsKek Nat := ⟨factorsKek, seed.wrappedMvkNonce, (salt, idx), mvk⟩
  let payload ← SlotPayload.new credential.kindTag material wrapped
  .ok (.envelope ⟨kek, seed.envNonce, (salt, idx), payload.encode⟩)

def installSlotV2 (accepts : Argon2idParams → Bool) (h : DeniableHeader) (slotIdx : Nat)
    (credential : DeniableCredential) (material : DeniableMaterial) (mvk salt : Nat)
    (seed : SlotSeed) : Except DeniableError DeniableHeader :=
  if lt : slotIdx < deniableSlotCount then do
    let slot ← sealSlot accepts slotIdx credential material mvk salt seed
    .ok { h with slots := Function.update h.slots ⟨slotIdx, lt⟩ slot }
  else .error (.invalidKeyslotIndex slotIdx)

def clearSlot (h : DeniableHeader) (slotIdx fill : Nat) : Except DeniableError DeniableHeader :=
  if lt : slotIdx < deniableSlotCount then
    .ok { h with slots := Function.update h.slots ⟨slotIdx, lt⟩ (.noise fill) }
  else .error (.invalidKeyslotIndex slotIdx)

/-- A slot a rotation keeps. -/
structure KeepSlot where
  slotIdx : Nat
  credential : DeniableCredential
  material : DeniableMaterial
  seed : SlotSeed

/-- No index twice: `seen` are the indices before. -/
def checkKeepSlots : List Nat → List KeepSlot → Except DeniableError Unit
  | _, [] => .ok ()
  | seen, k :: rest =>
      if seen.contains k.slotIdx then .error .invalidField
      else checkKeepSlots (k.slotIdx :: seen) rest

def checkKeepIndices : List KeepSlot → Except DeniableError Unit
  | [] => .ok ()
  | k :: rest =>
      if k.slotIdx ≥ deniableSlotCount then .error (.invalidKeyslotIndex k.slotIdx)
      else checkKeepIndices rest

/-- The kept slots over the noise, each sealed for the new salt and key. -/
def rebuildSlots (accepts : Argon2idParams → Bool) (mvk salt : Nat) :
    List KeepSlot → SlotTable → Except DeniableError SlotTable
  | [], table => .ok table
  | k :: rest, table =>
      if lt : k.slotIdx < deniableSlotCount then do
        let slot ← sealSlot accepts k.slotIdx k.credential k.material mvk salt k.seed
        rebuildSlots accepts mvk salt rest (Function.update table ⟨k.slotIdx, lt⟩ slot)
      else .error (.invalidKeyslotIndex k.slotIdx)

/-- The new header is built aside; an error leaves the old one in place. -/
def rotateMvkV2 (accepts : Argon2idParams → Bool) (inner : DeniableInnerHeader)
    (newSalt newMvk nonce : Nat) (fill : Fin deniableSlotCount → Nat) (keep : List KeepSlot) :
    Except DeniableError DeniableHeader := do
  checkKeepIndices keep
  checkKeepSlots [] keep
  let table ← rebuildSlots accepts newMvk newSalt keep fun i => .noise (fill i)
  let h : DeniableHeader := ⟨some newSalt, table, .torn⟩
  .ok (h.sealInnerInto inner none newMvk newSalt nonce)

/-- `create_with_credential_v2`: one slot in use, the others noise. -/
def createWithCredentialV2 (accepts : Argon2idParams → Bool) (credential : DeniableCredential)
    (material : DeniableMaterial) (slotIdx : Nat) (inner : DeniableInnerHeader)
    (salt mvk nonce : Nat) (fill : Fin deniableSlotCount → Nat) (seed : SlotSeed) :
    Except DeniableError DeniableHeader :=
  if lt : slotIdx < deniableSlotCount then do
    let slot ← sealSlot accepts slotIdx credential material mvk salt seed
    let h : DeniableHeader :=
      ⟨some salt, Function.update (fun i => .noise (fill i)) ⟨slotIdx, lt⟩ slot, .torn⟩
    .ok (h.sealInnerInto inner none mvk salt nonce)
  else .error (.invalidKeyslotIndex slotIdx)

/-! ## The container's side -/

/-- The deniable part of a container: the cached 36 KiB header and what was
decrypted of it. -/
structure DeniableState where
  bytes : DeniableHeader
  salt : Nat
  inner : DeniableInnerHeader
  v3 : Option DeniableHeaderV3
  unlockedSlotIdx : Nat
  deriving DecidableEq

/-- `next_header_generation`: a checked increment of a `u64`. -/
def nextHeaderGeneration (generation : Nat) : Option Nat :=
  if generation + 1 < 2 ^ 64 then some (generation + 1) else none

namespace DeniableState

/-- The state `persist_header` writes: on v3 the generation is bumped and the
inner header sealed over the slot table being written. -/
def resealed (den : DeniableState) (mvk nonce : Nat) : Except DeniableError DeniableState :=
  match den.v3 with
  | none => .ok den
  | some v3 =>
      match nextHeaderGeneration v3.headerGeneration with
      | none => .error .generationExhausted
      | some generation =>
          let r := den.bytes.resealInnerV3 den.inner generation mvk den.salt nonce
          .ok { den with bytes := r.1, v3 := some r.2 }

def enroll (accepts : Argon2idParams → Bool) (den : DeniableState) (mvk slotIdx : Nat)
    (credential : DeniableCredential) (material : DeniableMaterial) (seed : SlotSeed) :
    Except DeniableError DeniableState :=
  if slotIdx ≥ deniableSlotCount then .error (.invalidKeyslotIndex slotIdx)
  -- nobody overwrites the slot they came in through
  else if slotIdx = den.unlockedSlotIdx then .error .invalidField
  else do
    let bytes ← installSlotV2 accepts den.bytes slotIdx credential material mvk den.salt seed
    .ok { den with bytes := bytes }

def clear (den : DeniableState) (slotIdx fill : Nat) : Except DeniableError DeniableState :=
  if slotIdx ≥ deniableSlotCount then .error (.invalidKeyslotIndex slotIdx)
  else if slotIdx = den.unlockedSlotIdx then .error .invalidField
  else do
    let bytes ← clearSlot den.bytes slotIdx fill
    .ok { den with bytes := bytes }

/-- `rotate_mvk_v2_deniable_envelope_only`. -/
def rotate (accepts : Argon2idParams → Bool) (den : DeniableState) (newSalt newMvk nonce : Nat)
    (fill : Fin deniableSlotCount → Nat) (keep : List KeepSlot) :
    Except DeniableError DeniableState := do
  let bytes ← rotateMvkV2 accepts den.inner newSalt newMvk nonce fill keep
  .ok { den with bytes := bytes, salt := newSalt }

/-- `upgrade_header_to_v3`: the next write makes it generation 1. -/
def upgrade (den : DeniableState) : DeniableState :=
  match den.v3 with
  | some _ => den
  | none => { den with v3 := some ⟨0, fun _ => .noise 0⟩ }

end DeniableState

/-! ## Torn writes -/

def sectorSize : Nat := 512

/-- The sectors that hold bytes `off .. off + len`. -/
def sectorsOf (off len : Nat) : List Nat :=
  (List.range ((off + len - 1) / sectorSize + 1 - off / sectorSize)).map (· + off / sectorSize)

/-- A region of the header after a write of which only the sectors in `applied`
reached the disk. Both contents look random, so a region the write changes
differs in every sector it touches. -/
def mixRegion {α : Type} [DecidableEq α] (applied : Nat → Bool) (off len : Nat) (old new torn : α) :
    α :=
  if old = new then old
  else if (sectorsOf off len).all applied then new
  else if (sectorsOf off len).all (fun n => !applied n) then old
  else torn

def deniableSaltSize : Nat := 32

def deniableSlotSize : Nat := 4096

def deniableInnerOffset : Nat := 32800

def deniableInnerSize : Nat := 4064

/-- The 36 KiB header after a torn overwrite of `old` by `new`. -/
def DeniableHeader.torn (applied : Nat → Bool) (old new : DeniableHeader) : DeniableHeader where
  salt := mixRegion applied 0 deniableSaltSize old.salt new.salt none
  slots := fun i => mixRegion applied (deniableSaltSize + i.val * deniableSlotSize) deniableSlotSize
    (old.slots i) (new.slots i) .torn
  inner := mixRegion applied deniableInnerOffset deniableInnerSize old.inner new.inner .torn

/-! ## Sessions -/

structure DeniableVault where
  den : DeniableState
  mvk : Nat
  headerDirty : Bool
  disk : DeniableHeader

inductive DeniableOp where
  | enroll (slotIdx : Nat) (credential : DeniableCredential) (material : DeniableMaterial)
      (seed : SlotSeed)
  | clear (slotIdx fill : Nat)
  | rotate (newSalt newMvk nonce : Nat) (fill : Fin deniableSlotCount → Nat)
      (keep : List KeepSlot)
  | upgrade
  /-- `failed` is what a write that does not return `Ok` leaves on the disk. -/
  | persist (nonce : Nat) (failed : Option DeniableHeader)

namespace DeniableVault

/-- The state a call leaves and whether it returned `Ok`. -/
def exec (accepts : Argon2idParams → Bool) (v : DeniableVault) : DeniableOp → DeniableVault × Bool
  | .enroll slotIdx credential material seed =>
      match v.den.enroll accepts v.mvk slotIdx credential material seed with
      | .error _ => (v, false)
      | .ok den => ({ v with den := den, headerDirty := true }, true)
  | .clear slotIdx fill =>
      match v.den.clear slotIdx fill with
      | .error _ => (v, false)
      | .ok den => ({ v with den := den, headerDirty := true }, true)
  | .rotate newSalt newMvk nonce fill keep =>
      match v.den.rotate accepts newSalt newMvk nonce fill keep with
      | .error _ => (v, false)
      | .ok den => ({ v with den := den, mvk := newMvk, headerDirty := true }, true)
  | .upgrade =>
      match v.den.v3 with
      | some _ => (v, true)
      | none => ({ v with den := v.den.upgrade, headerDirty := true }, true)
  | .persist nonce failed =>
      if v.headerDirty = false then (v, true)
      else
        match v.den.resealed v.mvk nonce with
        | .error _ => (v, false)
        | .ok den =>
            match failed with
            | some left => ({ v with disk := left }, false)
            | none => ({ v with den := den, headerDirty := false, disk := den.bytes }, true)

def run (accepts : Argon2idParams → Bool) (v : DeniableVault) (ops : List DeniableOp) :
    DeniableVault :=
  ops.foldl (fun v op => (v.exec accepts op).1) v

/-- A new vault, as `create_with_credential_v2_deniable` leaves it. -/
def created (h : DeniableHeader) (salt mvk slotIdx : Nat) (inner : DeniableInnerHeader) :
    DeniableVault where
  den := ⟨h, salt, inner, none, slotIdx⟩
  mvk := mvk
  headerDirty := false
  disk := h

end DeniableVault

end Luksbox
