import Luksbox.Model.SeedFile

/-!
# The anchor file (`luksbox-format/src/anchor.rs`, `container.rs`)

The bytes of an anchor, in the format with a magic and an HMAC and in the one
that looks like random bytes, and the calls of a container that attach, make and
advance one. A file is its bytes, and the files are a function of the path; that
a path is a symlink only adds further errors and is left out.

Around the calls stands a world in which someone else may put any bytes at any
path between them: roll an anchor back, copy it elsewhere, or remove it.
-/

namespace Luksbox.Anchor

open Lib Luksbox.Core
open Pq (Files CommitFault)

inductive Error where
  | io
  | crypto
  | anchorCorrupt
  | anchorAuthFailed
  | opaqueUnlockFailed
  | headerRollbackDetected (anchorHeaderGen headerGen : UInt64)
  /-- Not an error of the source: an index out of range. -/
  | panic
  deriving DecidableEq

structure AnchorContents where
  generation : UInt64
  headerGeneration : Option UInt64
  deriving DecidableEq

/-- `u64::to_le_bytes` -/
def toLeBytes (v : UInt64) : List UInt8 := leBytes 8 v.toNat

/-- `u64::from_le_bytes` of the eight bytes at a place. -/
def readU64 (buf : List UInt8) (off : Nat) : Except Error UInt64 := do
  let part ← okOr .panic (sliceOf buf off (off + 8))
  .ok (UInt64.ofNat (leNat part))

/-! ## The standard format -/

/-- The text `LBXANCH1`. -/
def magic : List UInt8 := [76, 66, 88, 65, 78, 67, 72, 49]

/-- The text `LBXANCH2`. -/
def magicV2 : List UInt8 := [76, 66, 88, 65, 78, 67, 72, 50]

def anchorInfo : String := "lbx:anchor-mac/v1"

def anchorSize : Nat := 48

def anchorV2Size : Nat := 56

def anchorKey (c : Crypto) (mvk : Key) (headerSalt : Bytes 32) : Key :=
  c.hkdf headerSalt.val mvk.val anchorInfo

def computeMac (c : Crypto) (key : Key) (data : List UInt8) : Bytes 32 := c.hmac key data

/-- The match on the magic and the length. -/
def bodyLen (buf : List UInt8) : Except Error Nat :=
  match sliceOf buf 0 8 with
  | none => .error .anchorCorrupt
  | some m =>
      if m = magic ∧ buf.length = anchorSize then .ok 16
      else if m = magicV2 ∧ buf.length = anchorV2Size then .ok 24
      else .error .anchorCorrupt

/-- `read_and_verify` from the bytes on. -/
def verify (c : Crypto) (mvk : Key) (headerSalt : Bytes 32) (buf : List UInt8) :
    Except Error AnchorContents := do
  let len ← bodyLen buf
  let body ← okOr .panic (sliceOf buf 0 len)
  let tag ← okOr .panic (sliceOf buf len buf.length)
  if (computeMac c (anchorKey c mvk headerSalt) body).val ≠ tag then .error .anchorAuthFailed
  else do
    let generation ← readU64 buf 8
    if len = 24 then do
      let headerGeneration ← readU64 buf 16
      .ok ⟨generation, some headerGeneration⟩
    else .ok ⟨generation, none⟩

/-- A read is bounded by one byte more than the longer format has. -/
def readAndVerify (c : Crypto) (files : Files) (path : String) (mvk : Key)
    (headerSalt : Bytes 32) : Except Error AnchorContents :=
  match files path with
  | none => .error .io
  | some file => verify c mvk headerSalt (file.take (anchorV2Size + 1))

/-- What the HMAC of an anchor is over. -/
def body (a : AnchorContents) : List UInt8 :=
  match a.headerGeneration with
  | none => magic ++ toLeBytes a.generation
  | some hg => magicV2 ++ toLeBytes a.generation ++ toLeBytes hg

def buildAnchorBuf (c : Crypto) (a : AnchorContents) (mvk : Key) (headerSalt : Bytes 32) :
    List UInt8 :=
  body a ++ (computeMac c (anchorKey c mvk headerSalt) (body a)).val

/-- How a write that replaces a file ends, and one that must not. -/
def commit (files : Files) (path : String) (buf : List UInt8) (fault : CommitFault) :
    Except Error Unit × Files :=
  match files.atomicSecureWrite path buf fault with
  | (true, files') => (.ok (), files')
  | (false, files') => (.error .io, files')

def commitNew (files : Files) (path : String) (buf : List UInt8) (fault : CommitFault) :
    Except Error Unit × Files :=
  match files.atomicSecureCreateNew path buf fault with
  | (true, files') => (.ok (), files')
  | (false, files') => (.error .io, files')

def write (c : Crypto) (files : Files) (path : String) (a : AnchorContents) (mvk : Key)
    (headerSalt : Bytes 32) (fault : CommitFault) : Except Error Unit × Files :=
  commit files path (buildAnchorBuf c a mvk headerSalt) fault

def writeInitial (c : Crypto) (files : Files) (path : String) (a : AnchorContents) (mvk : Key)
    (headerSalt : Bytes 32) (fault : CommitFault) : Except Error Unit × Files :=
  commitNew files path (buildAnchorBuf c a mvk headerSalt) fault

/-! ## The deniable format -/

def deniableAnchorSize : Nat := 256

def deniableAnchorNonceLen : Nat := 12

def deniableAnchorPlaintextLen : Nat := 212

def deniableAnchorCtLen : Nat := deniableAnchorPlaintextLen + 16

def deniableAnchorTrailingPad : Nat := 16

def deniableAnchorInfo : String := "luksbox-deniable-v1/anchor"

def deniableAnchorAadLabel : List UInt8 :=
  deniableAnchorInfo.toList.map fun ch => UInt8.ofNat ch.toNat

/-- The text `LBXDAHG2`. -/
def deniableAnchorHgMarker : List UInt8 := [76, 66, 88, 68, 65, 72, 71, 50]

def deniableAnchorKey (c : Crypto) (mvk : Key) (perVaultSalt : Bytes 32) : Key :=
  c.hkdf perVaultSalt.val mvk.val deniableAnchorInfo

def deniableAnchorAad (perVaultSalt : Bytes 32) : List UInt8 :=
  deniableAnchorAadLabel ++ perVaultSalt.val

/-- The random bytes of a deniable write; `none` for a generator that fails. -/
structure Draws where
  padding : Option (Bytes 204)
  nonce : Option (Bytes 12)
  trailing : Option (Bytes 16)

/-- What is sealed. The random bytes fill all of the plaintext behind the
generation, and the header generation is put over the first of them. -/
def deniableAnchorPlaintext (a : AnchorContents) (padding : Bytes 204) : List UInt8 :=
  match a.headerGeneration with
  | none => toLeBytes a.generation ++ padding.val
  | some hg =>
      toLeBytes a.generation ++ deniableAnchorHgMarker ++ toLeBytes hg ++ padding.val.drop 16

def buildDeniableAnchorBuf (c : Crypto) (a : AnchorContents) (mvk : Key)
    (perVaultSalt : Bytes 32) (suite : CipherSuite) (draws : Draws) :
    Except Error (List UInt8) := do
  let padding ← okOr .crypto draws.padding
  let nonce ← okOr .crypto draws.nonce
  let ct ← okOr .crypto (c.aeadSeal suite (deniableAnchorKey c mvk perVaultSalt) nonce
    (deniableAnchorAad perVaultSalt) (deniableAnchorPlaintext a padding))
  if deniableAnchorSize < deniableAnchorNonceLen + ct.length then .error .panic
  else do
    let trailing ← okOr .crypto draws.trailing
    let buf := nonce.val ++ ct
      ++ List.replicate (deniableAnchorSize - deniableAnchorNonceLen - ct.length) 0
    .ok (buf.take (deniableAnchorSize - deniableAnchorTrailingPad) ++ trailing.val)

def deniableWrite (c : Crypto) (files : Files) (path : String) (a : AnchorContents) (mvk : Key)
    (perVaultSalt : Bytes 32) (suite : CipherSuite) (draws : Draws) (fault : CommitFault) :
    Except Error Unit × Files :=
  match buildDeniableAnchorBuf c a mvk perVaultSalt suite draws with
  | .error e => (.error e, files)
  | .ok buf => commit files path buf fault

def deniableWriteInitial (c : Crypto) (files : Files) (path : String) (a : AnchorContents)
    (mvk : Key) (perVaultSalt : Bytes 32) (suite : CipherSuite) (draws : Draws)
    (fault : CommitFault) : Except Error Unit × Files :=
  match buildDeniableAnchorBuf c a mvk perVaultSalt suite draws with
  | .error e => (.error e, files)
  | .ok buf => commitNew files path buf fault

/-- The fields of a plaintext. -/
def parseDeniable (pt : List UInt8) : Except Error AnchorContents :=
  if pt.length ≠ deniableAnchorPlaintextLen then .error .opaqueUnlockFailed
  else do
    let marker ← okOr .panic (sliceOf pt 8 16)
    let generation ← readU64 pt 0
    if marker = deniableAnchorHgMarker then do
      let headerGeneration ← readU64 pt 16
      .ok ⟨generation, some headerGeneration⟩
    else .ok ⟨generation, none⟩

/-- `deniable_read_and_verify` from the bytes on. `read_exact` wants
`deniableAnchorSize` of them and leaves the rest of the file alone. -/
def deniableVerify (c : Crypto) (mvk : Key) (perVaultSalt : Bytes 32) (suite : CipherSuite)
    (file : List UInt8) : Except Error AnchorContents := do
  let buf ← okOr .opaqueUnlockFailed (sliceOf file 0 deniableAnchorSize)
  let start ← okOr .panic (sliceOf buf 0 deniableAnchorNonceLen)
  let ct ← okOr .panic
    (sliceOf buf deniableAnchorNonceLen (deniableAnchorNonceLen + deniableAnchorCtLen))
  if h : start.length = 12 then
    match c.aeadOpen suite (deniableAnchorKey c mvk perVaultSalt) ⟨start, h⟩
        (deniableAnchorAad perVaultSalt) ct with
    | none => .error .opaqueUnlockFailed
    | some pt => parseDeniable pt
  else .error .opaqueUnlockFailed

def deniableReadAndVerify (c : Crypto) (files : Files) (path : String) (mvk : Key)
    (perVaultSalt : Bytes 32) (suite : CipherSuite) : Except Error AnchorContents :=
  match files path with
  | none => .error .opaqueUnlockFailed
  | some file => deniableVerify c mvk perVaultSalt suite file

/-! ## The calls of a container -/

/-- What the anchor calls read of a container, and what they keep in it.
`deniable` is the salt of a deniable vault. -/
structure Anchored where
  mvk : Key
  headerSalt : Bytes 32
  deniable : Option (Bytes 32)
  cipherSuite : CipherSuite
  headerGeneration : Option UInt64
  anchorPath : Option String
  anchoredMetadataGen : Option UInt64

namespace Anchored

def readAnchor (c : Crypto) (v : Anchored) (files : Files) (path : String) :
    Except Error AnchorContents :=
  match v.deniable with
  | some salt => deniableReadAndVerify c files path v.mvk salt v.cipherSuite
  | none => readAndVerify c files path v.mvk v.headerSalt

/-- The header half of rollback detection. -/
def headerHalf (v : Anchored) (a : AnchorContents) : Except Error Unit :=
  match a.headerGeneration with
  | none => .ok ()
  | some anchorHg =>
      let hg := v.headerGeneration.getD 0
      if anchorHg > hg then .error (.headerRollbackDetected anchorHg hg) else .ok ()

def setAnchor (c : Crypto) (v : Anchored) (files : Files) :
    Option String → Except Error (Option UInt64) × Anchored
  | none => (.ok none, { v with anchorPath := none })
  | some p =>
      match v.readAnchor c files p with
      | .error e => (.error e, v)
      | .ok a =>
          match v.headerHalf a with
          | .error e => (.error e, v)
          | .ok () =>
              (.ok (some a.generation),
                { v with anchorPath := some p, anchoredMetadataGen := some a.generation })

def initAnchor (c : Crypto) (v : Anchored) (files : Files) (path : String) (generation : UInt64)
    (draws : Draws) (fault : CommitFault) : Except Error Unit × Files × Anchored :=
  let a : AnchorContents := ⟨generation, v.headerGeneration⟩
  let done := match v.deniable with
    | some salt => deniableWriteInitial c files path a v.mvk salt v.cipherSuite draws fault
    | none => writeInitial c files path a v.mvk v.headerSalt fault
  match done with
  | (.error e, files') => (.error e, files', v)
  | (.ok (), files') =>
      (.ok (), files',
        { v with anchorPath := some path, anchoredMetadataGen := some generation })

def writeAnchor (c : Crypto) (v : Anchored) (files : Files) (generation : UInt64)
    (draws : Draws) (fault : CommitFault) : Except Error Unit × Files × Anchored :=
  let a : AnchorContents := ⟨generation, v.headerGeneration⟩
  match v.anchorPath with
  | none => (.ok (), files, v)
  | some p =>
      let done := match v.deniable with
        | some salt => deniableWrite c files p a v.mvk salt v.cipherSuite draws fault
        | none => write c files p a v.mvk v.headerSalt fault
      match done with
      | (.error e, files') => (.error e, files', v)
      | (.ok (), files') =>
          (.ok (), files', { v with anchoredMetadataGen := some generation })

/-- `anchored_metadata_generation` -/
def anchoredMetadataGeneration (v : Anchored) : Option UInt64 :=
  v.anchorPath.bind fun _ => v.anchoredMetadataGen

end Anchored

/-! ## Runs -/

structure World where
  files : Files
  vault : Anchored

/-- A call of the vault, a header of another generation, whichever way it came
about, or someone else at the files: `none` removes one. -/
inductive Event where
  | setAnchor (path : Option String)
  | initAnchor (path : String) (generation : UInt64) (draws : Draws) (fault : CommitFault)
  | writeAnchor (generation : UInt64) (draws : Draws) (fault : CommitFault)
  | header (generation : Option UInt64)
  | outside (path : String) (bytes : Option (List UInt8))

def World.step (c : Crypto) (w : World) : Event → World
  | .setAnchor path => { w with vault := (w.vault.setAnchor c w.files path).2 }
  | .initAnchor path generation draws fault =>
      let after := (w.vault.initAnchor c w.files path generation draws fault).2
      ⟨after.1, after.2⟩
  | .writeAnchor generation draws fault =>
      let after := (w.vault.writeAnchor c w.files generation draws fault).2
      ⟨after.1, after.2⟩
  | .header generation => { w with vault := { w.vault with headerGeneration := generation } }
  | .outside path bytes => { w with files := fun p => if p = path then bytes else w.files p }

def World.run (c : Crypto) (w : World) (events : List Event) : World := events.foldl (step c) w

end Luksbox.Anchor
