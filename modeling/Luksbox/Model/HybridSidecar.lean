import Luksbox.Model.SeedFile

/-!
# The hybrid sidecar (`luksbox-format/src/hybrid_sidecar.rs`)

The public ML-KEM blobs of the hybrid keyslots are in a file next to the vault:
a header of 16 bytes, in the third version the salt of the vault's header behind
it, and then the entries one after the other. The length of an entry depends on
its level byte, except in the first version, which knows one level only.

The file is read before anything is authenticated. The parser checks every
length before it slices; here a slice that is out of range is a `panic`, so that
this has to be proved. An index fits a `usize`: the bytes are in memory.
-/

namespace Luksbox.Sidecar

open Lib Pq

inductive Error where
  | io (message : String)
  /-- Not an error of the source: an index out of range. -/
  | panic
  deriving DecidableEq

/-- The text `lbxhybr1`. -/
def magic : List UInt8 := [108, 98, 120, 104, 121, 98, 114, 49]

def versionV1 : UInt8 := 1

def versionV2 : UInt8 := 2

def versionV3 : UInt8 := 3

def headerLen : Nat := 16

def bindingLen : Nat := 32

def headerLenV3 : Nat := headerLen + bindingLen

def pubkeyLen768 : Nat := 1184

def ciphertextLen768 : Nat := 1088

def entryLenV1 : Nat := 1 + pubkeyLen768 + ciphertextLen768

def maxEntries : Nat := 8

structure HybridEntry where
  slotIdx : UInt8
  level : PqParams
  pubkey : List UInt8
  ciphertext : List UInt8
  deriving DecidableEq

structure SidecarBundle where
  entries : List HybridEntry
  binding : Option (Bytes 32)
  deriving DecidableEq

/-- `{:?}` of a level. -/
def debugLevel : PqParams → String
  | .ml768 => "Ml768"
  | .ml1024 => "Ml1024"

/-! ## Checks -/

/-- The loop over the entries; `seen` are the slots so far. -/
def rejectDuplicates : (UInt8 → Bool) → List HybridEntry → Except Error Unit
  | _, [] => .ok ()
  | seen, e :: rest =>
      let idx := e.slotIdx
      if seen idx then
        .error (.io (s!"hybrid sidecar: duplicate entry for slot {idx} (rejected to "
          ++ "eliminate find()-returns-first ambiguity; rebuild the sidecar from the wizard)"))
      else rejectDuplicates (fun i => decide (i = idx) || seen i) rest

def rejectDuplicateSlotIdx (entries : List HybridEntry) : Except Error Unit :=
  rejectDuplicates (fun _ => false) entries

def checkLens : List HybridEntry → Except Error Unit
  | [] => .ok ()
  | e :: rest =>
      let level := debugLevel e.level
      let pk := e.pubkey.length
      let ct := e.ciphertext.length
      let pkLen := e.level.publicKeyLen
      let ctLen := e.level.ciphertextLen
      if pk ≠ pkLen then
        .error (.io s!"hybrid entry {level}: pubkey len {pk} != expected {pkLen}")
      else if ct ≠ ctLen then
        .error (.io s!"hybrid entry {level}: ciphertext len {ct} != expected {ctLen}")
      else checkLens rest

def validateEntries (entries : List HybridEntry) : Except Error Unit :=
  let count := entries.length
  if count > maxEntries then
    .error (.io s!"too many hybrid entries: {count} (max {maxEntries})")
  else do
    checkLens entries
    rejectDuplicateSlotIdx entries

/-! ## Writing -/

/-- The body of the loop over the entries. -/
def encodeEntry (e : HybridEntry) : List UInt8 :=
  [e.slotIdx] ++ [e.level.levelByte] ++ e.pubkey ++ e.ciphertext

def encodeEntries (entries : List HybridEntry) : List UInt8 := entries.flatMap encodeEntry

/-- The header of all versions. -/
def encodeHeader (version : UInt8) (count : Nat) : List UInt8 :=
  magic ++ [version] ++ [UInt8.ofNat count] ++ List.replicate 6 0

def commit (files : Files) (path : String) (buf : List UInt8) (fault : CommitFault) :
    Except Error Unit × Files :=
  match files.atomicSecureWrite path buf fault with
  | (true, files) => (.ok (), files)
  | (false, files) => (.error (.io "atomic_secure_write"), files)

/-- The writer of the third version. -/
def writeWithBinding (files : Files) (path : String) (entries : List HybridEntry)
    (binding : Bytes 32) (fault : CommitFault) : Except Error Unit × Files :=
  match validateEntries entries with
  | .error e => (.error e, files)
  | .ok () =>
      commit files path (encodeHeader versionV3 entries.length ++ binding.val
        ++ encodeEntries entries) fault

/-- The writer of the second version. -/
def write (files : Files) (path : String) (entries : List HybridEntry) (fault : CommitFault) :
    Except Error Unit × Files :=
  match validateEntries entries with
  | .error e => (.error e, files)
  | .ok () => commit files path (encodeHeader versionV2 entries.length ++ encodeEntries entries) fault

/-! ## Parsing -/

/-- The loop of `read_v1_body` from the place `off` on. -/
def readV1Entries (bytes : List UInt8) : Nat → Nat → Except Error (List HybridEntry)
  | 0, _ => .ok []
  | count + 1, off => do
      let slotIdx ← okOr .panic bytes[off]?
      let pk ← okOr .panic (sliceOf bytes (off + 1) (off + 1 + pubkeyLen768))
      let ct ← okOr .panic (sliceOf bytes (off + 1 + pubkeyLen768)
        (off + 1 + pubkeyLen768 + ciphertextLen768))
      let rest ← readV1Entries bytes count (off + entryLenV1)
      .ok (⟨slotIdx, .ml768, pk, ct⟩ :: rest)

def readV1Body (bytes : List UInt8) (count : Nat) : Except Error (List HybridEntry) :=
  let len := bytes.length
  let expected := headerLen + count * entryLenV1
  if len ≠ expected then
    .error (.io s!"hybrid sidecar v1: length {len} != expected {expected}")
  else readV1Entries bytes count headerLen

/-- The body of the loop of `read_v2_body`: entry `i`, and where it ends. -/
def readV2Entry (bytes : List UInt8) (i off : Nat) : Except Error (HybridEntry × Nat) :=
  if off + 2 > bytes.length then .error (.io s!"hybrid sidecar v2: truncated at entry {i}")
  else do
    let slotIdx ← okOr .panic bytes[off]?
    let levelByte ← okOr .panic bytes[off + 1]?
    match PqParams.fromLevelByte levelByte with
    | .error _ =>
        .error (.io s!"hybrid sidecar v2 entry {i}: unknown level byte {levelByte}")
    | .ok level => do
        let pkLen := level.publicKeyLen
        let ctLen := level.ciphertextLen
        let bodyOff := off + 2
        let stop := bodyOff + pkLen + ctLen
        if stop > bytes.length then
          let name := debugLevel level
          let got := bytes.length
          .error (.io (s!"hybrid sidecar v2: entry {i} ({name}) overruns file "
            ++ "(need " ++ toString stop ++ " bytes, have " ++ toString got ++ ")"))
        else do
          let pk ← okOr .panic (sliceOf bytes bodyOff (bodyOff + pkLen))
          let ct ← okOr .panic (sliceOf bytes (bodyOff + pkLen) stop)
          .ok (⟨slotIdx, level, pk, ct⟩, stop)

/-- The loop: `count` entries from the `i`-th at `off` on, and where they end. -/
def readV2Entries (bytes : List UInt8) : Nat → Nat → Nat → Except Error (List HybridEntry × Nat)
  | 0, _, off => .ok ([], off)
  | count + 1, i, off => do
      let (e, stop) ← readV2Entry bytes i off
      let (rest, off) ← readV2Entries bytes count (i + 1) stop
      .ok (e :: rest, off)

def readV2Body (bytes : List UInt8) (count startOff : Nat) : Except Error (List HybridEntry) := do
  let (entries, off) ← readV2Entries bytes count 0 startOff
  if off ≠ bytes.length then
    let trailing := bytes.length - off
    .error (.io s!"hybrid sidecar v2: trailing {trailing} bytes past last entry")
  else .ok entries

/-- The binding behind the header; `copy_from_slice` panics where the lengths
differ. -/
def readBinding (bytes : List UInt8) : Except Error (Bytes 32) := do
  let part ← okOr .panic (sliceOf bytes headerLen headerLenV3)
  if h : part.length = 32 then .ok ⟨part, h⟩ else .error .panic

/-- The `match` on the version. -/
def readBody (bytes : List UInt8) (version : UInt8) (count : Nat) : Except Error SidecarBundle :=
  if version = versionV1 then do
    let entries ← readV1Body bytes count
    .ok ⟨entries, none⟩
  else if version = versionV2 then do
    let entries ← readV2Body bytes count headerLen
    .ok ⟨entries, none⟩
  else if version = versionV3 then
    if bytes.length < headerLenV3 then
      .error (.io "hybrid sidecar v3: too short for binding header")
    else do
      let binding ← readBinding bytes
      let entries ← readV2Body bytes count headerLenV3
      .ok ⟨entries, some binding⟩
  else .error (.io s!"hybrid sidecar: unsupported version {version} (expected 1, 2, or 3)")

def parseBundle (bytes : List UInt8) : Except Error SidecarBundle :=
  if bytes.length < headerLen then .error (.io "hybrid sidecar too short for header")
  else do
    let found ← okOr .panic (sliceOf bytes 0 8)
    if found ≠ magic then .error (.io "hybrid sidecar: missing magic bytes")
    else do
      let version ← okOr .panic bytes[8]?
      let countByte ← okOr .panic bytes[9]?
      let count := countByte.toNat
      if count > maxEntries then
        .error (.io s!"hybrid sidecar: count {count} exceeds max {maxEntries}")
      else do
        let bundle ← readBody bytes version count
        rejectDuplicateSlotIdx bundle.entries
        .ok bundle

/-! ## Reading -/

def maxSidecarBytes : Nat := 32 * 1024

def readSidecarBytes (files : Files) (path : String) : Except Error (List UInt8) :=
  match files path with
  | none => .error (.io "not found")
  | some bytes =>
      let len := bytes.length
      if len > maxSidecarBytes then
        .error (.io (s!"hybrid sidecar {path}: {len} bytes exceeds max {maxSidecarBytes} "
          ++ "(DoS preflight)"))
      else .ok bytes

def readBundle (files : Files) (path : String) : Except Error SidecarBundle := do
  let bytes ← readSidecarBytes files path
  parseBundle bytes

def verifyBinding (bundle : SidecarBundle) (expectedSalt : Bytes 32) : Except Error Unit :=
  match bundle.binding with
  | none => .ok ()
  | some b =>
      if b = expectedSalt then .ok ()
      else .error (.io ("hybrid sidecar v3: vault binding mismatch (sidecar belongs to a "
        ++ "different vault, or vault header was rotated; rebuild the sidecar from the wizard)"))

def readVerified (files : Files) (path : String) (expectedSalt : Bytes 32) :
    Except Error (List HybridEntry) := do
  let bundle ← readBundle files path
  verifyBinding bundle expectedSalt
  .ok bundle.entries

end Luksbox.Sidecar
