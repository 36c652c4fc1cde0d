import Luksbox.Model.SlotKeys

/-!
# The header's bytes (`luksbox-core/src/header.rs`)

The 8 KiB header: fixed fields, eight keyslots, a packed table of Secure Enclave
blobs in what is otherwise random padding, and an HMAC over all of it under a key
derived from the master volume key. `serializeUnauth` is the sequence of copies
the source makes, over the padding it drew; `fromBytes` parses without a key.

Blobs and slots live in two parallel arrays with a flag that says whether there
is a table at all.
-/

namespace Luksbox.Core

open Lib

inductive KdfId where
  | argon2id
  deriving DecidableEq, Inhabited

def KdfId.toU16 : KdfId → UInt16
  | .argon2id => 1

def KdfId.fromU16 (v : UInt16) : Except Error KdfId :=
  if v = 1 then .ok .argon2id else .error (.unsupportedKdf v)

def headerSize : Nat := 8192

def maxKeyslots : Nat := 8

def minChunkSize : UInt32 := 512

def maxChunkSize : UInt32 := 1048576

def maxMetadataSize : UInt64 := 67108864

def versionMajorV1 : UInt16 := 1

def versionMajorV2 : UInt16 := 2

def versionMajorV3 : UInt16 := 3

/-- `b"LUKSBOX1"`. -/
def magicV1 : List UInt8 := [0x4c, 0x55, 0x4b, 0x53, 0x42, 0x4f, 0x58, 0x31]

def magicV2 : List UInt8 := [0x4c, 0x55, 0x4b, 0x53, 0x42, 0x4f, 0x58, 0x32]

def magicV3 : List UInt8 := [0x4c, 0x55, 0x4b, 0x53, 0x42, 0x4f, 0x58, 0x33]

def flagHasSepRegion : UInt32 := 16

def offKeyslots : Nat := 96

def offSepRegion : Nat := 4192

def offHmac : Nat := 8160

def sepRegionLen : Nat := 3968

structure Header where
  cipherSuite : CipherSuite
  kdf : KdfId
  chunkSize : UInt32
  flags : UInt32
  headerSalt : Bytes 32
  metadataOffset : UInt64
  metadataSize : UInt64
  dataOffset : UInt64
  keyslots : Fin 8 → Keyslot
  sepBlobs : Fin 8 → Option (List UInt8)
  versionMajor : UInt16
  headerGeneration : UInt64

/-- The random fill of the padding: the reserved area and each slot. -/
structure HeaderPadding where
  reserved : Bytes 3968
  slots : Fin 8 → Buf 512

namespace Header

def hasSepRegion (h : Header) : Bool := decide (h.flags &&& flagHasSepRegion ≠ 0)

def hasHeaderGeneration (h : Header) : Bool := decide (h.versionMajor ≥ versionMajorV3)

/-- The blobs that are there, with the slot of each. -/
def sepEntries (h : Header) : List (Fin 8 × List UInt8) :=
  (List.finRange 8).filterMap fun i => (h.sepBlobs i).map fun blob => (i, blob)

def sepRegionRequiredLen (h : Header) : Nat :=
  1 + (h.sepEntries.map fun e => 3 + e.2.length).sum

/-! ## Slots and blobs -/

def flagHasHeaderMirror : UInt32 := 4

def hasHeaderMirror (h : Header) : Bool := decide (h.flags &&& flagHasHeaderMirror ≠ 0)

/-- A new header with the salt that was drawn. -/
def tryNew (cipherSuite : CipherSuite) (kdf : KdfId) (chunkSize : UInt32) (dataOffset : UInt64)
    (headerSalt : Bytes 32) : Header where
  cipherSuite := cipherSuite
  kdf := kdf
  chunkSize := chunkSize
  flags := 0
  headerSalt := headerSalt
  metadataOffset := UInt64.ofNat headerSize
  metadataSize := 0
  dataOffset := dataOffset
  keyslots := fun _ => Keyslot.empty
  sepBlobs := fun _ => none
  versionMajor := versionMajorV1
  headerGeneration := 0

/-- A blob that does not fit leaves the header as it was. -/
def setSepBlob (h : Header) (idx : Nat) (blob : List UInt8) : Except Error Header :=
  if hi : idx < 8 then
    let h' := { h with sepBlobs := Function.update h.sepBlobs ⟨idx, hi⟩ (some blob) }
    if h'.sepRegionRequiredLen > sepRegionLen then .error .sepRegionFull
    else .ok { h' with flags := h.flags ||| flagHasSepRegion }
  else .error (.invalidKeyslotIndex idx)

def clearSepBlob (h : Header) (idx : Nat) : Header :=
  let blobs := if hi : idx < 8 then Function.update h.sepBlobs ⟨idx, hi⟩ none else h.sepBlobs
  { h with
    sepBlobs := blobs
    flags :=
      if (List.finRange 8).all fun i => (blobs i).isNone then h.flags &&& ~~~flagHasSepRegion
      else h.flags }

def firstFreeSlot (h : Header) : Except Error (Fin 8) :=
  match (List.finRange 8).find? fun i => (h.keyslots i).isEmpty with
  | some i => .ok i
  | none => .error .noFreeKeyslot

def installSlot (h : Header) (idx : Nat) (slot : Keyslot) : Except Error Header :=
  if hi : idx < 8 then .ok { h with keyslots := Function.update h.keyslots ⟨idx, hi⟩ slot }
  else .error (.invalidKeyslotIndex idx)

def revokeSlot (h : Header) (idx : Nat) : Except Error Header :=
  if hi : idx < 8 then
    .ok ({ h with keyslots := Function.update h.keyslots ⟨idx, hi⟩ Keyslot.empty }.clearSepBlob idx)
  else .error (.invalidKeyslotIndex idx)

/-! ## Writing -/

/-- The magic that goes with a version, the first one for any other value. -/
def magicOf (version : UInt16) : List UInt8 :=
  if version = versionMajorV2 then magicV2
  else if version = versionMajorV3 then magicV3
  else magicV1

def fixedFields (h : Header) : List (Nat × List UInt8) :=
  [ (0, magicOf h.versionMajor),
    (8, leBytes 2 h.versionMajor.toNat),
    (10, leBytes 2 0),
    (12, leBytes 4 headerSize),
    (16, leBytes 2 h.cipherSuite.toU16.toNat),
    (18, leBytes 2 h.kdf.toU16.toNat),
    (20, leBytes 4 h.chunkSize.toNat),
    (24, h.headerSalt.val),
    (56, leBytes 8 h.metadataOffset.toNat),
    (64, leBytes 8 h.metadataSize.toNat),
    (72, leBytes 8 h.dataOffset.toNat),
    (80, leBytes 4 maxKeyslots),
    (84, leBytes 4 h.flags.toNat) ]
    ++ if h.hasHeaderGeneration then [(88, leBytes 8 h.headerGeneration.toNat)] else []

def slotFields (h : Header) (padding : HeaderPadding) : List (Nat × List UInt8) :=
  (List.finRange 8).map fun i =>
    (offKeyslots + i.val * slotSize, ((h.keyslots i).toBytes (padding.slots i)).toList)

/-- The loop over the blobs from the place `w` on. An entry that would reach the
HMAC ends it. -/
def packSep : Nat → List (Fin 8 × List UInt8) → List (Nat × List UInt8)
  | _, [] => []
  | w, (i, blob) :: rest =>
      if w + (3 + blob.length) > offHmac then []
      else
        (w, [UInt8.ofNat i.val]) :: (w + 1, leBytes 2 blob.length) :: (w + 3, blob)
          :: packSep (w + (3 + blob.length)) rest

def sepFields (h : Header) : List (Nat × List UInt8) :=
  if h.hasSepRegion then
    (offSepRegion, [UInt8.ofNat h.sepEntries.length]) :: packSep (offSepRegion + 1) h.sepEntries
  else []

def serializeUnauth (h : Header) (padding : HeaderPadding) : Buf 8192 :=
  let zeros : Buf 8192 := fun _ => 0
  (zeros.put offSepRegion padding.reserved.val).putAll
    (h.fixedFields ++ h.slotFields padding ++ h.sepFields)

/-- `derive_subkey(header_salt, HEADER_MAC_INFO)`. -/
def macKey (c : Crypto) (h : Header) (mvk : Key) : Key :=
  c.hkdf h.headerSalt.val mvk.val "lbx:header-mac/v1"

def toBytes (c : Crypto) (h : Header) (mvk : Key) (padding : HeaderPadding) : Buf 8192 :=
  let buf := h.serializeUnauth padding
  buf.put offHmac (c.hmac (h.macKey c mvk) (buf.read 0 offHmac)).val

def verifyHmac (c : Crypto) (h : Header) (raw : Buf 8192) (mvk : Key) : Except Error Unit :=
  if (c.hmac (h.macKey c mvk) (raw.read 0 offHmac)).val = raw.read offHmac 32 then .ok ()
  else .error .headerAuthFailed

/-! ## Parsing -/

/-- The loop of `parse_sep_region` over the entries that remain, from the place
`p` of the region on. -/
def parseSepEntries (region : Buf 3968) :
    Nat → Nat → (Fin 8 → Option (List UInt8)) → Except Error (Fin 8 → Option (List UInt8))
  | 0, _, out => .ok out
  | count + 1, p, out =>
      if p + 3 > sepRegionLen then .error .invalidField
      else do
        let slotIdx ← byteAt region p
        let blobLen ← natAt region (p + 1) 2
        if h : slotIdx.toNat < 8 then
          if p + 3 + blobLen > sepRegionLen then .error .invalidField
          else if (out ⟨slotIdx.toNat, h⟩).isSome then .error .invalidField
          else do
            let blob ← orPanic (region.slice (p + 3) blobLen)
            parseSepEntries region count (p + 3 + blobLen)
              (Function.update out ⟨slotIdx.toNat, h⟩ (some blob))
        else .error .invalidField

def parseSepRegion (buf : Buf 8192) : Except Error (Fin 8 → Option (List UInt8)) := do
  let _ ← orPanic (buf.slice offSepRegion sepRegionLen)
  let count ← byteAt (buf.sub offSepRegion 3968) 0
  if count.toNat > maxKeyslots then .error .invalidField
  else parseSepEntries (buf.sub offSepRegion 3968) count.toNat 1 fun _ => none

/-- The loop over the slots. -/
def parseSlots (buf : Buf 8192) :
    List (Fin 8) → (Fin 8 → Keyslot) → Except Error (Fin 8 → Keyslot)
  | [], slots => .ok slots
  | i :: rest, slots => do
      let _ ← orPanic (buf.slice (offKeyslots + i.val * slotSize) slotSize)
      let slot ← Keyslot.fromBytes (buf.sub (offKeyslots + i.val * slotSize) 512)
      parseSlots buf rest (Function.update slots i slot)

def versionOfMagic (magic : List UInt8) : Except Error UInt16 :=
  if magic = magicV1 then .ok versionMajorV1
  else if magic = magicV2 then .ok versionMajorV2
  else if magic = magicV3 then .ok versionMajorV3
  else .error .invalidMagic

/-- The places of the metadata and of the data. -/
structure Extents where
  metadataOffset : UInt64
  metadataSize : UInt64
  dataOffset : UInt64

/-- The checks on the three of them: the cap, `checked_add`, the inline header
and the overlap. -/
def Extents.check (e : Extents) : Except Error Unit :=
  if e.metadataSize > maxMetadataSize then .error .invalidField
  else if e.metadataOffset.toNat + e.metadataSize.toNat ≥ 2 ^ 64 then .error .invalidField
  else if 0 < e.metadataOffset.toNat ∧ e.metadataOffset.toNat < headerSize then
    .error .invalidField
  else if e.dataOffset.toNat < e.metadataOffset.toNat + e.metadataSize.toNat then
    .error .invalidField
  else .ok ()

def readExtents (buf : Buf 8192) : Except Error Extents := do
  let metadataOffset ← u64At buf 56
  let metadataSize ← u64At buf 64
  let dataOffset ← u64At buf 72
  .ok ⟨metadataOffset, metadataSize, dataOffset⟩

/-- The fields before the offsets, in the order of their checks. -/
def readParams (buf : Buf 8192) :
    Except Error (UInt16 × CipherSuite × KdfId × UInt32) := do
  let magic ← orPanic (buf.slice 0 8)
  let versionMajor ← versionOfMagic magic
  let major ← u16At buf 8
  let minor ← u16At buf 10
  if major ≠ versionMajor then .error (.unsupportedVersion major minor)
  else do
    let size ← u32At buf 12
    if size.toNat ≠ headerSize then .error .invalidField
    else do
      let cipherSuite ← CipherSuite.fromU16 (← u16At buf 16)
      let kdf ← KdfId.fromU16 (← u16At buf 18)
      let chunkSize ← u32At buf 20
      if chunkSize < minChunkSize ∨ maxChunkSize < chunkSize then .error .invalidField
      else .ok (versionMajor, cipherSuite, kdf, chunkSize)

/-- A counter only from the third version on. -/
def readGeneration (buf : Buf 8192) (versionMajor : UInt16) : Except Error UInt64 :=
  if versionMajor ≥ versionMajorV3 then u64At buf 88 else .ok 0

/-- The table, if the flag says that there is one. -/
def readSepBlobs (buf : Buf 8192) (flags : UInt32) :
    Except Error (Fin 8 → Option (List UInt8)) :=
  if flags &&& flagHasSepRegion ≠ 0 then parseSepRegion buf else .ok fun _ => none

def fromBytes (buf : Buf 8192) : Except Error Header := do
  let (versionMajor, cipherSuite, kdf, chunkSize) ← readParams buf
  let flags ← u32At buf 84
  let headerGeneration ← readGeneration buf versionMajor
  let headerSalt ← bytesAt buf 24 32
  let e ← readExtents buf
  e.check
  let keyslotCount ← u32At buf 80
  if keyslotCount.toNat ≠ maxKeyslots then .error .invalidField
  else do
    let keyslots ← parseSlots buf (List.finRange 8) fun _ => Keyslot.empty
    let sepBlobs ← readSepBlobs buf flags
    .ok {
      cipherSuite := cipherSuite
      kdf := kdf
      chunkSize := chunkSize
      flags := flags
      headerSalt := headerSalt
      metadataOffset := e.metadataOffset
      metadataSize := e.metadataSize
      dataOffset := e.dataOffset
      keyslots := keyslots
      sepBlobs := sepBlobs
      versionMajor := versionMajor
      headerGeneration := headerGeneration }

end Header

end Luksbox.Core
