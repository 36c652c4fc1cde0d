import Luksbox.Model.HeaderCodec

/-!
# Opening a container (`luksbox-format/src/container.rs`, `deniable_header.rs`)

The files are read, the header is parsed, the keyslots are tried with what the
user supplied, and the HMAC is checked under the key that comes out. A live
header that does not parse is replaced by the sidecar mirror, and a deniable
vault has its layout in an inner header of its own.

What is modelled is what decides which key and which layout an open returns. A
file is its bytes; locking and the checks on paths and inodes only add further
errors and are left out. The callback that asks the TPM or the Secure Enclave is
a function of the blob.
-/

namespace Luksbox.Core

open Lib

/-- `luksbox_format::Error`, as far as opening returns it. -/
inductive OpenError where
  | crypto (e : Error)
  | io
  | unlockFailed
  | fido2CredNotFound
  | opaqueUnlockFailed
  deriving DecidableEq

/-- `map_err(Error::Crypto)`. -/
def liftCrypto {α : Type} : Except Error α → Except OpenError α
  | .ok a => .ok a
  | .error e => .error (.crypto e)

/-! ## Trying the keyslots -/

inductive UnlockMaterial where
  | passphrase (pw : List UInt8)
  | fido2 (passphrase : Option (List UInt8)) (credId : List UInt8) (hmacSecret : Key)
  | hybridPqPassphrase (passphrase : List UInt8) (pqShared : Key)
  | hybridPqFido2 (passphrase : Option (List UInt8)) (credId : List UInt8)
      (hmacSecret pqShared : Key)
  | tpm2 (unsealBlob : List UInt8 → Option Key)
  | tpm2Fido2 (unsealBlob : List UInt8 → Option Key) (credId : List UInt8) (hmacSecret : Key)
  | hybridPqTpm2 (unsealBlob : List UInt8 → Option Key) (pqShared : Key)
  | hybridPqTpm2Fido2 (unsealBlob : List UInt8 → Option Key) (credId : List UInt8)
      (hmacSecret pqShared : Key)
  | sep (unsealBlob : List UInt8 → Option Key) (hmacSecret : Option Key)
      (passphrase : Option (List UInt8)) (pqShared : Option Key)

/-- Try every slot and keep the first key (the passphrase arms, which go on after
a match). -/
def keepFirst (attempt : Fin 8 → Option (Except Error Key)) :
    List (Fin 8) → Option Key → Option Key
  | [], found => found
  | i :: rest, found =>
      match attempt i with
      | some (.ok mvk) => keepFirst attempt rest (if found.isNone then some mvk else found)
      | _ => keepFirst attempt rest found

/-- Return the first key (the TPM and Secure Enclave arms). -/
def firstSuccess (attempt : Fin 8 → Option (Except Error Key)) : List (Fin 8) → Option Key
  | [] => none
  | i :: rest =>
      match attempt i with
      | some (.ok mvk) => some mvk
      | _ => firstSuccess attempt rest

/-- Return what the first slot that matches gives, an error included (the FIDO2
arms). -/
def firstMatch (attempt : Fin 8 → Option (Except Error Key)) :
    List (Fin 8) → Option (Except Error Key)
  | [] => none
  | i :: rest =>
      match attempt i with
      | some r => some r
      | none => firstMatch attempt rest

section TryUnlock

variable (c : Crypto) (h : Header)

def okOrFailed : Option Key → Except OpenError Key
  | some mvk => .ok mvk
  | none => .error .unlockFailed

def matchOrNotFound : Option (Except Error Key) → Except OpenError Key
  | some r => liftCrypto r
  | none => .error .fido2CredNotFound

/-- What an arm does with one slot: `none` where it goes on to the next one
without a result, the result of the unlock function otherwise. -/
def attempt (material : UnlockMaterial) (i : Fin 8) : Option (Except Error Key) :=
  let slot := h.keyslots i
  match material with
  | .passphrase pw =>
      if slot.kind ≠ .passphrase then none
      else some (slot.unlockPassphrase c h.cipherSuite h.headerSalt pw)
  | .fido2 passphrase credId hmacSecret =>
      if slot.fido2CredId ≠ credId then none
      else if slot.kind = .fido2HmacSecret then
        some (slot.unlockFido2 c h.cipherSuite h.headerSalt passphrase hmacSecret)
      else if slot.kind = .fido2DerivedMvk then some (slot.unlockFido2DerivedMvk c hmacSecret)
      else none
  | .hybridPqPassphrase passphrase pqShared =>
      if slot.kind.isHybridPqPassphrase = false then none
      else some (slot.unlockHybridPqPassphrase c h.cipherSuite h.headerSalt passphrase pqShared)
  | .hybridPqFido2 passphrase credId hmacSecret pqShared =>
      if slot.kind.isHybridPqFido2 = false then none
      else if slot.fido2CredId ≠ credId then none
      else
        some (slot.unlockHybridPqFido2 c h.cipherSuite h.headerSalt passphrase hmacSecret pqShared)
  | .tpm2 unsealBlob =>
      if slot.kind ≠ .tpm2Sealed ∧ slot.kind ≠ .tpm2SealedPin then none
      else do
        let kek ← unsealBlob (← slot.tpm2SealedBlob)
        some (slot.unlockTpm2 c h.cipherSuite h.headerSalt kek)
  | .tpm2Fido2 unsealBlob credId hmacSecret =>
      if slot.kind ≠ .tpm2Fido2 then none
      else do
        let storedCred ← slot.tpm2Fido2CredId
        if storedCred ≠ credId then none
        else do
          let tpmUnsealed ← unsealBlob (← slot.tpm2Fido2SealedBlob)
          some (slot.unlockTpm2Fido2 c h.cipherSuite h.headerSalt tpmUnsealed hmacSecret)
  | .hybridPqTpm2 unsealBlob pqShared =>
      if slot.kind ≠ .hybridPqKemTpm2 ∧ slot.kind ≠ .hybridPqKem1024Tpm2 then none
      else do
        let tpmKek ← unsealBlob (← slot.tpm2SealedBlob)
        some (slot.unlockHybridPqTpm2 c h.cipherSuite h.headerSalt tpmKek pqShared)
  | .hybridPqTpm2Fido2 unsealBlob credId hmacSecret pqShared =>
      if slot.kind ≠ .hybridPqKemTpm2Fido2 ∧ slot.kind ≠ .hybridPqKem1024Tpm2Fido2 then none
      else do
        let storedCred ← slot.tpm2Fido2CredId
        if storedCred ≠ credId then none
        else do
          let tpmUnsealed ← unsealBlob (← slot.tpm2Fido2SealedBlob)
          some (slot.unlockHybridPqTpm2Fido2 c h.cipherSuite h.headerSalt tpmUnsealed hmacSecret
            pqShared)
  | .sep unsealBlob hmacSecret passphrase pqShared =>
      if slot.kind.isSep = false then none
      else if slot.kind.isSepFido2 ≠ hmacSecret.isSome
          ∨ slot.kind.isSepPassphrase ≠ passphrase.isSome
          ∨ slot.kind.isHybridPq ≠ pqShared.isSome then none
      else do
        let sepShared ← unsealBlob (← h.sepBlobs i)
        some (slot.unlockSep c h.cipherSuite h.headerSalt
          { sepShared := sepShared, hmacSecret := hmacSecret, passphrase := passphrase,
            pqShared := pqShared })

def tryUnlock (material : UnlockMaterial) : Except OpenError Key :=
  let slots := List.finRange 8
  match material with
  | .passphrase _ | .hybridPqPassphrase .. =>
      okOrFailed (keepFirst (attempt c h material) slots none)
  | .fido2 .. | .hybridPqFido2 .. => matchOrNotFound (firstMatch (attempt c h material) slots)
  | _ => okOrFailed (firstSuccess (attempt c h material) slots)

/-- The closure of `Container::open`. -/
def unlockAndVerify (material : UnlockMaterial) (h : Header) (raw : Buf 8192) :
    Except OpenError Key := do
  let mvk ← tryUnlock c h material
  liftCrypto (h.verifyHmac c raw mvk)
  .ok mvk

/-- The closure of `Container::open_with_mvk`. -/
def verifyWithMvk (mvk : Key) (h : Header) (raw : Buf 8192) : Except OpenError Key := do
  liftCrypto (h.verifyHmac c raw mvk)
  .ok mvk

end TryUnlock

/-! ## Standard vaults -/

inductive HeaderStorage where
  | inline
  | detached
  deriving DecidableEq

/-- The files an open reads: the vault, the sidecar header if the caller names
one, and what lies at the mirror's path. -/
structure VaultFiles where
  vault : List UInt8
  header : Option (List UInt8)
  mirror : Option (List UInt8)

def VaultFiles.storage (f : VaultFiles) : HeaderStorage :=
  match f.header with
  | some _ => .detached
  | none => .inline

def bufOf (bytes : List UInt8) : Buf 8192 := fun i => bytes.getD i.val 0

/-- `read_exact` from the start of a file. -/
def readHeaderBytes (bytes : List UInt8) : Except OpenError (Buf 8192) :=
  if bytes.length < headerSize then .error .io else .ok (bufOf bytes)

/-- Read and parse the live header; an inline one must lie in front of the two
regions. -/
def loadLockedHeader (f : VaultFiles) : Except OpenError (Buf 8192 × Header) := do
  let bytes ← readHeaderBytes (f.header.getD f.vault)
  let header ← liftCrypto (Header.fromBytes bytes)
  if f.storage = .inline
      ∧ (header.metadataOffset.toNat < headerSize ∨ header.dataOffset.toNat < headerSize) then
    .error (.crypto .invalidField)
  else .ok (bytes, header)

/-- `none` where there is no mirror. -/
def tryUnlockViaMirror (mirror : Option (List UInt8))
    (unlock : Header → Buf 8192 → Except OpenError Key) :
    Option (Except OpenError (Header × Key)) :=
  match mirror with
  | none => none
  | some bytes => some do
      -- the helper reads files of exactly this length
      if bytes.length ≠ headerSize then .error .io
      else do
        let header ← liftCrypto (Header.fromBytes (bufOf bytes))
        let mvk ← unlock header (bufOf bytes)
        .ok (header, mvk)

/-- What an open leaves in the container. -/
structure Opened where
  storage : HeaderStorage
  header : Header
  mvk : Key
  headerDirty : Bool

def openLockedWithHeaderRecovery (f : VaultFiles)
    (unlock : Header → Buf 8192 → Except OpenError Key) : Except OpenError Opened :=
  match loadLockedHeader f with
  | .ok (bytes, header) => do
      let mvk ← unlock header bytes
      .ok ⟨f.storage, header, mvk, false⟩
  | .error liveErr =>
      match tryUnlockViaMirror f.mirror unlock with
      | some (.ok (header, mvk)) => .ok ⟨f.storage, header, mvk, true⟩
      | _ => .error liveErr

/-- `Container::open`. -/
def openContainer (c : Crypto) (f : VaultFiles) (material : UnlockMaterial) :
    Except OpenError Opened :=
  openLockedWithHeaderRecovery f (unlockAndVerify c material)

/-- `Container::open_with_mvk`. -/
def openContainerWithMvk (c : Crypto) (f : VaultFiles) (mvk : Key) : Except OpenError Opened :=
  openLockedWithHeaderRecovery f (verifyWithMvk c mvk)

/-! ## Deniable vaults -/

def deniableHeaderSize : Nat := 36864

structure DeniableInnerHeader where
  formatVersionMinor : UInt16
  cipherSuite : CipherSuite
  kdfId : KdfId
  flags : UInt32
  metadataOffset : UInt64
  metadataSize : UInt64
  dataOffset : UInt64
  chunkSize : UInt32
  deriving DecidableEq

namespace DeniableInnerHeader

/-- The bytes `lo..lo + len` as a number. -/
def field (buf : List UInt8) (lo len : Nat) : Nat := leNat ((buf.drop lo).take len)

/-- `u64::saturating_add`. -/
def saturatingAdd (a b : Nat) : Nat := min (a + b) (2 ^ 64 - 1)

def parse (buf : List UInt8) : Except Error DeniableInnerHeader := do
  if buf.length < 38 then .error (.bufferTooShort 38 buf.length)
  else do
    let cipherSuite ← CipherSuite.fromU16 (UInt16.ofNat (field buf 2 2))
    let kdfId ← KdfId.fromU16 (UInt16.ofNat (field buf 4 2))
    let metadataOffset := field buf 10 8
    let metadataSize := field buf 18 8
    let dataOffset := field buf 26 8
    let chunkSize := UInt32.ofNat (field buf 34 4)
    if metadataSize > maxMetadataSize.toNat then .error .invalidField
    else if chunkSize ∉ [(512 : UInt32), 1024, 2048, 4096, 8192, 16384, 32768, 65536] then
      .error .invalidField
    else if dataOffset < saturatingAdd metadataOffset metadataSize then .error .invalidField
    else if metadataOffset < deniableHeaderSize then .error .invalidField
    else .ok {
      formatVersionMinor := UInt16.ofNat (field buf 0 2)
      cipherSuite := cipherSuite
      kdfId := kdfId
      flags := UInt32.ofNat (field buf 6 4)
      metadataOffset := UInt64.ofNat metadataOffset
      metadataSize := UInt64.ofNat metadataSize
      dataOffset := UInt64.ofNat dataOffset
      chunkSize := chunkSize }

end DeniableInnerHeader

/-- The plaintexts the inner region may have, under the label of the third
header version and under the one before it; `none` where the AEAD does not
open. -/
structure InnerRegion where
  underV3 : Option (List UInt8)
  underV2 : Option (List UInt8)
  /-- Whether the digest in a plaintext is the one of the slot table. -/
  digestMatches : List UInt8 → Bool

def innerV3End : Nat := 78

/-- `open_inner_region` and `check_slot_digest`. Every failure is opaque. -/
def openInnerRegion (r : InnerRegion) : Except OpenError DeniableInnerHeader :=
  match r.underV3 with
  | some pt =>
      match DeniableInnerHeader.parse pt with
      | .error _ => .error .opaqueUnlockFailed
      | .ok inner =>
          if pt.length < innerV3End then .error .opaqueUnlockFailed
          else if r.digestMatches pt then .ok inner
          else .error .opaqueUnlockFailed
  | none =>
      match r.underV2 with
      | none => .error .opaqueUnlockFailed
      | some pt =>
          match DeniableInnerHeader.parse pt with
          | .error _ => .error .opaqueUnlockFailed
          | .ok inner => .ok inner

/-- `open_with_mvk_deniable`: the copy handed over must be the one on disk. -/
def openWithMvkDeniable (r : InnerRegion) (inner : DeniableInnerHeader) :
    Except OpenError DeniableInnerHeader := do
  let diskInner ← openInnerRegion r
  if diskInner ≠ inner then .error .opaqueUnlockFailed
  else .ok inner

/-! ## Writes -/

/-- Bytes of the vault file, from `lo` on and, where there is an end, before
`hi`. -/
structure Extent where
  lo : Nat
  hi : Option Nat

def chunkSlotSize : Nat := 4124

/-- Where `write_metadata` writes. -/
def Header.Extents.metadataWrite (e : Header.Extents) : Extent :=
  ⟨e.metadataOffset.toNat, some (e.metadataOffset.toNat + e.metadataSize.toNat)⟩

/-- Where the chunk with the given id is written; `none` where `checked_mul` or
`checked_add` refuses. -/
def Header.Extents.chunkWrite (e : Header.Extents) (chunkId : Nat) : Option Extent :=
  let off := e.dataOffset.toNat + chunkId * chunkSlotSize
  if chunkId * chunkSlotSize ≥ 2 ^ 64 ∨ off ≥ 2 ^ 64 then none
  else some ⟨off, some (off + chunkSlotSize)⟩

/-- What `truncate_data_file` cuts off; `none` where it refuses. -/
def Header.Extents.truncateDataFile (e : Header.Extents) (len : Nat) : Option Extent :=
  if len < e.dataOffset.toNat then none else some ⟨len, none⟩

end Luksbox.Core
