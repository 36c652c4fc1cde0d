import Luksbox.Lib.Buffer

/-!
# Keyslots (`luksbox-core/src/keyslot.rs`, `luksbox-core/src/kdf.rs`)

A keyslot is 512 bytes of a vault header: which factors it needs, the KDF
parameters and salts, and the master volume key wrapped under a key derived
from the factors. What is modelled here is the byte layout in its two versions,
the parser, the AAD that binds the fields to the wrapped key, and the
constructors and unlock functions of all slot kinds.

The primitives (Argon2id, HKDF, the AEADs, HMAC) are functions of a `Crypto`;
what is assumed of them is said where it is used. A constructor draws random
bytes; they come as a `SlotRng`, and a failing generator is an error that no
property is about. Errors carry what the source's carry.

An index that is out of range panics; a parser reads through `slice`, so that
this outcome exists and has to be excluded.
-/

namespace Luksbox.Core

open Lib

inductive Error where
  | invalidMagic
  | unsupportedVersion (major minor : UInt16)
  | unsupportedCipher (v : UInt16)
  | unsupportedKdf (v : UInt16)
  | unsupportedSlotKind (v : UInt8)
  | headerAuthFailed
  | keyslotAuthFailed
  | kdf
  | aead
  | invalidKeyslotIndex (idx : Nat)
  | noFreeKeyslot
  | sepRegionFull
  | invalidField
  | fido2CredIdTooLong (len : Nat)
  | bufferTooShort (expected got : Nat)
  /-- Not an error of the source: an index out of range. -/
  | panic
  deriving DecidableEq

abbrev Key := Bytes 32

/-! ## Parameters -/

inductive CipherSuite where
  | aes256Gcm
  | chaCha20Poly1305
  | aes256GcmSiv
  deriving DecidableEq, Inhabited

namespace CipherSuite

def toU16 : CipherSuite → UInt16
  | .aes256Gcm => 1
  | .chaCha20Poly1305 => 2
  | .aes256GcmSiv => 3

def fromU16 (v : UInt16) : Except Error CipherSuite :=
  if v = 1 then .ok .aes256Gcm
  else if v = 2 then .ok .chaCha20Poly1305
  else if v = 3 then .ok .aes256GcmSiv
  else .error (.unsupportedCipher v)

def tagLen (_ : CipherSuite) : Nat := 16

end CipherSuite

structure Argon2idParams where
  mCostKib : UInt32
  tCost : UInt32
  pCost : UInt32
  deriving DecidableEq, Inhabited

namespace Argon2idParams

def safeMCostKibMax : UInt32 := 4 * 1024 * 1024

def safeTCostMax : UInt32 := 16

def safePCostMax : UInt32 := 16

/-- The envelope of the on-disk parsers. -/
def isSaneForDisk (p : Argon2idParams) : Bool :=
  decide (p.mCostKib ≥ 8) && decide (p.mCostKib ≤ safeMCostKibMax) && decide (p.tCost ≥ 1)
    && decide (p.tCost ≤ safeTCostMax) && decide (p.pCost ≥ 1) && decide (p.pCost ≤ safePCostMax)

/-- What slots that run no Argon2id store. -/
def none : Argon2idParams := ⟨0, 0, 0⟩

end Argon2idParams

/-- The primitives. `argon2id` is the whole of `derive_kek`, with `none` for
parameters the crate refuses; `hkdf` is extract and expand to 32 bytes. -/
structure Crypto where
  argon2id : List UInt8 → List UInt8 → Argon2idParams → Option Key
  hkdf : List UInt8 → List UInt8 → String → Key
  aeadSeal : CipherSuite → Key → Bytes 12 → List UInt8 → List UInt8 → Option (List UInt8)
  aeadOpen : CipherSuite → Key → Bytes 12 → List UInt8 → List UInt8 → Option (List UInt8)
  hmac : Key → List UInt8 → Key

/-! ## Slot kinds -/

inductive SlotKind where
  | empty
  | passphrase
  | fido2HmacSecret
  | fido2DerivedMvk
  | hybridPqKemPassphrase
  | hybridPqKemFido2
  | hybridPqKem1024Passphrase
  | hybridPqKem1024Fido2
  | tpm2Sealed
  | tpm2Fido2
  | tpm2SealedPin
  | hybridPqKemTpm2
  | hybridPqKemTpm2Fido2
  | hybridPqKem1024Tpm2
  | hybridPqKem1024Tpm2Fido2
  | sepSealed
  | sepSealedBiometric
  | hybridPqKemSep
  | hybridPqKem1024Sep
  | sepFido2
  | hybridPqKemSepFido2
  | hybridPqKem1024SepFido2
  | sepPassphrase
  | hybridPqKemSepPassphrase
  | hybridPqKem1024SepPassphrase
  | sepFido2Passphrase
  | hybridPqKemSepFido2Passphrase
  | hybridPqKem1024SepFido2Passphrase
  deriving DecidableEq, Inhabited

namespace SlotKind

/-- The kinds in the order of their codes. -/
def all : List SlotKind :=
  [ .empty, .passphrase, .fido2HmacSecret, .fido2DerivedMvk, .hybridPqKemPassphrase,
    .hybridPqKemFido2, .hybridPqKem1024Passphrase, .hybridPqKem1024Fido2, .tpm2Sealed, .tpm2Fido2,
    .tpm2SealedPin, .hybridPqKemTpm2, .hybridPqKemTpm2Fido2, .hybridPqKem1024Tpm2,
    .hybridPqKem1024Tpm2Fido2, .sepSealed, .sepSealedBiometric, .hybridPqKemSep,
    .hybridPqKem1024Sep, .sepFido2, .hybridPqKemSepFido2, .hybridPqKem1024SepFido2,
    .sepPassphrase, .hybridPqKemSepPassphrase, .hybridPqKem1024SepPassphrase,
    .sepFido2Passphrase, .hybridPqKemSepFido2Passphrase, .hybridPqKem1024SepFido2Passphrase ]

/-- `self as u8`. -/
def toU8 (kind : SlotKind) : UInt8 := UInt8.ofNat (all.idxOf kind)

def fromU8 (v : UInt8) : Except Error SlotKind :=
  match all[v.toNat]? with
  | some kind => .ok kind
  | none => .error (.unsupportedSlotKind v)

def isHybridPq (kind : SlotKind) : Bool :=
  decide (kind ∈ [.hybridPqKemPassphrase, .hybridPqKemFido2, .hybridPqKem1024Passphrase,
    .hybridPqKem1024Fido2, .hybridPqKemTpm2, .hybridPqKemTpm2Fido2, .hybridPqKem1024Tpm2,
    .hybridPqKem1024Tpm2Fido2, .hybridPqKemSep, .hybridPqKem1024Sep, .hybridPqKemSepFido2,
    .hybridPqKem1024SepFido2, .hybridPqKemSepPassphrase, .hybridPqKem1024SepPassphrase,
    .hybridPqKemSepFido2Passphrase, .hybridPqKem1024SepFido2Passphrase])

def isHybridPqPassphrase (kind : SlotKind) : Bool :=
  decide (kind ∈ [.hybridPqKemPassphrase, .hybridPqKem1024Passphrase])

def isHybridPqFido2 (kind : SlotKind) : Bool :=
  decide (kind ∈ [.hybridPqKemFido2, .hybridPqKem1024Fido2])

def isSep (kind : SlotKind) : Bool :=
  decide (kind ∈ [.sepSealed, .sepSealedBiometric, .hybridPqKemSep, .hybridPqKem1024Sep, .sepFido2,
    .hybridPqKemSepFido2, .hybridPqKem1024SepFido2, .sepPassphrase, .hybridPqKemSepPassphrase,
    .hybridPqKem1024SepPassphrase, .sepFido2Passphrase, .hybridPqKemSepFido2Passphrase,
    .hybridPqKem1024SepFido2Passphrase])

def isSepFido2 (kind : SlotKind) : Bool :=
  decide (kind ∈ [.sepFido2, .hybridPqKemSepFido2, .hybridPqKem1024SepFido2, .sepFido2Passphrase,
    .hybridPqKemSepFido2Passphrase, .hybridPqKem1024SepFido2Passphrase])

def isSepPassphrase (kind : SlotKind) : Bool :=
  decide (kind ∈ [.sepPassphrase, .hybridPqKemSepPassphrase, .hybridPqKem1024SepPassphrase,
    .sepFido2Passphrase, .hybridPqKemSepFido2Passphrase, .hybridPqKem1024SepFido2Passphrase])

/-- The kinds that store a FIDO2 salt in the slot. -/
def hasInlineHmacSalt (kind : SlotKind) : Bool :=
  decide (kind ∈ [.fido2HmacSecret, .fido2DerivedMvk, .hybridPqKemFido2, .hybridPqKem1024Fido2,
    .tpm2Fido2, .hybridPqKemTpm2Fido2, .hybridPqKem1024Tpm2Fido2]) || kind.isSepFido2

/-- The kinds whose parameters `from_bytes` checks (`kdf_runs_argon2`). -/
def runsArgon2 (kind : SlotKind) : Bool :=
  decide (kind ∈ [.passphrase, .fido2HmacSecret, .hybridPqKemPassphrase, .hybridPqKemFido2,
    .hybridPqKem1024Passphrase, .hybridPqKem1024Fido2]) || kind.isSepPassphrase

/-- The kinds that keep a bare TPM blob in the variable region. -/
def holdsTpmBlob (kind : SlotKind) : Bool :=
  decide (kind ∈ [.tpm2Sealed, .tpm2SealedPin, .hybridPqKemTpm2, .hybridPqKem1024Tpm2])

/-- The kinds that keep a TPM blob and a credential id in it. -/
def holdsTpmPair (kind : SlotKind) : Bool :=
  decide (kind ∈ [.tpm2Fido2, .hybridPqKemTpm2Fido2, .hybridPqKem1024Tpm2Fido2])

end SlotKind

/-! ## The slot and its bytes -/

def slotSize : Nat := 512

def fido2CredIdMax : Nat := 352

def fido2CredIdMaxV1V2 : Nat := 128

def fido2HmacSaltLen : Nat := 32

def aadVersionV1 : UInt8 := 0

def aadVersionV2 : UInt8 := 1

def aadVersionV3 : UInt8 := 2

def aadVersionV4 : UInt8 := 3

def slotAadLen : Nat := 76

structure Keyslot where
  kind : SlotKind
  aadVersion : UInt8
  uuid : Bytes 16
  kdfParams : Argon2idParams
  kdfSalt : Bytes 32
  aeadNonce : Bytes 12
  wrappedCt : Bytes 32
  wrappedTag : Bytes 16
  fido2CredId : List UInt8
  fido2HmacSalt : Bytes 32
  deriving DecidableEq

/-- The capacity for the credential id and the offset of the salt. -/
def slotLayout (aadVersion : UInt8) : Nat × Nat :=
  if aadVersion = aadVersionV1 ∨ aadVersion = aadVersionV2 then (fido2CredIdMaxV1V2, 256)
  else (fido2CredIdMax, 480)

namespace Keyslot

def empty : Keyslot where
  kind := .empty
  aadVersion := aadVersionV1
  uuid := Bytes.zero 16
  kdfParams := Argon2idParams.none
  kdfSalt := Bytes.zero 32
  aeadNonce := Bytes.zero 12
  wrappedCt := Bytes.zero 32
  wrappedTag := Bytes.zero 16
  fido2CredId := []
  fido2HmacSalt := Bytes.zero 32

def isEmpty (s : Keyslot) : Bool := decide (s.kind = .empty)

/-- `write_aad_region`: the copies into offsets 0..76. -/
def aadRegion (s : Keyslot) : List (Nat × List UInt8) :=
  [ (0, [s.kind.toU8]),
    (1, [s.aadVersion]),
    (2, [0, 0]),
    (4, s.uuid.val),
    (20, leBytes 4 s.kdfParams.mCostKib.toNat),
    (24, leBytes 4 s.kdfParams.tCost.toNat),
    (28, leBytes 4 s.kdfParams.pCost.toNat),
    (32, s.kdfSalt.val),
    (64, s.aeadNonce.val) ]

/-- The credential id as far as it fits the region. -/
def cred (s : Keyslot) : List UInt8 := s.fido2CredId.take (slotLayout s.aadVersion).1

def saltLen (s : Keyslot) : Nat := if s.kind.hasInlineHmacSalt then fido2HmacSaltLen else 0

/-- The copies into the variable region, which `to_bytes` and `build_aead_aad`
both make: the two lengths, the credential id and, where there is one, the
salt. -/
def variableRegion (s : Keyslot) : List (Nat × List UInt8) :=
  [ (124, leBytes 2 s.cred.length),
    (126, leBytes 2 s.saltLen),
    (128, s.cred) ]
    ++ if s.saltLen > 0 then [((slotLayout s.aadVersion).2, s.fido2HmacSalt.val)] else []

/-- `padding` is what the random fill left. -/
def toBytes (s : Keyslot) (padding : Buf 512) : Buf 512 :=
  if s.isEmpty then padding.put 0 [0]
  else
    padding.putAll (s.aadRegion ++ [(76, s.wrappedCt.val), (108, s.wrappedTag.val)]
      ++ s.variableRegion)

/-- The AAD of the wrapped key: the slot's fields as `to_bytes` lays them out,
over zeros, without the wrapped key itself. -/
def buildAeadAad (s : Keyslot) (headerSalt : Bytes 32) : List UInt8 :=
  let zeros : Buf 512 := fun _ => 0
  let buf := zeros.putAll
    (s.aadRegion ++ if s.aadVersion ≥ aadVersionV2 then s.variableRegion else [])
  let aadTailEnd := if s.aadVersion ≥ aadVersionV3 then slotSize else 256 + fido2HmacSaltLen
  buf.read 0 slotAadLen
    ++ (if s.aadVersion ≥ aadVersionV2 then buf.read 124 (aadTailEnd - 124) else [])
    ++ headerSalt.val

end Keyslot

/-! ## The parser -/

def orPanic {α : Type} : Option α → Except Error α
  | some a => .ok a
  | none => .error .panic

section Reading

variable {n : Nat}

def byteAt (b : Buf n) (i : Nat) : Except Error UInt8 := do
  let bs ← orPanic (b.slice i 1)
  .ok (bs.headD 0)

def natAt (b : Buf n) (i len : Nat) : Except Error Nat := do
  let bs ← orPanic (b.slice i len)
  .ok (leNat bs)

def u16At (b : Buf n) (i : Nat) : Except Error UInt16 := do
  .ok (UInt16.ofNat (← natAt b i 2))

def u32At (b : Buf n) (i : Nat) : Except Error UInt32 := do
  .ok (UInt32.ofNat (← natAt b i 4))

def u64At (b : Buf n) (i : Nat) : Except Error UInt64 := do
  .ok (UInt64.ofNat (← natAt b i 8))

/-- `let mut x = [0u8; len]; x.copy_from_slice(&b[i..i + len])`. -/
def bytesAt (b : Buf n) (i len : Nat) : Except Error (Bytes len) := do
  let _ ← orPanic (b.slice i len)
  .ok (b.bytes i len)

end Reading

namespace Keyslot

/-- What the parser keeps of the variable region, by kind. -/
def readVariable (b : Buf 512) (kind : SlotKind) (credLen saltLen offHmacSalt : Nat) :
    Except Error (List UInt8 × Bytes 32) := do
  if kind.hasInlineHmacSalt then
    if saltLen ≠ fido2HmacSaltLen then .error .invalidField
    else do
      let credId ← orPanic (b.slice 128 credLen)
      let salt ← bytesAt b offHmacSalt 32
      .ok (credId, salt)
  else if kind.holdsTpmBlob then
    if saltLen ≠ 0 then .error .invalidField
    else do
      let credId ← orPanic (b.slice 128 credLen)
      .ok (credId, Bytes.zero 32)
  else if kind.isSep then
    if saltLen ≠ 0 ∨ credLen ≠ 0 then .error .invalidField
    else .ok ([], Bytes.zero 32)
  else .ok ([], Bytes.zero 32)

/-- The parser on a slot that is not empty. -/
def readFields (b : Buf 512) (kind : SlotKind) : Except Error Keyslot := do
  let aadVersion ← byteAt b 1
  if aadVersion > aadVersionV4 then .error .invalidField
  else do
    let uuid ← bytesAt b 4 16
    let mCostKib ← u32At b 20
    let tCost ← u32At b 24
    let pCost ← u32At b 28
    let kdfSalt ← bytesAt b 32 32
    let aeadNonce ← bytesAt b 64 12
    let wrappedCt ← bytesAt b 76 32
    let wrappedTag ← bytesAt b 108 16
    let credLen ← natAt b 124 2
    let saltLen ← natAt b 126 2
    if credLen > (slotLayout aadVersion).1 then .error (.fido2CredIdTooLong credLen)
    else if kind.runsArgon2 ∧ ¬ (Argon2idParams.mk mCostKib tCost pCost).isSaneForDisk then
      .error .invalidField
    else do
      let (fido2CredId, fido2HmacSalt) ←
        readVariable b kind credLen saltLen (slotLayout aadVersion).2
      .ok {
        kind := kind
        aadVersion := aadVersion
        uuid := uuid
        kdfParams := ⟨mCostKib, tCost, pCost⟩
        kdfSalt := kdfSalt
        aeadNonce := aeadNonce
        wrappedCt := wrappedCt
        wrappedTag := wrappedTag
        fido2CredId := fido2CredId
        fido2HmacSalt := fido2HmacSalt }

def fromBytes (b : Buf 512) : Except Error Keyslot := do
  let kind ← SlotKind.fromU8 (← byteAt b 0)
  if kind = .empty then .ok empty
  else readFields b kind

end Keyslot

end Luksbox.Core
