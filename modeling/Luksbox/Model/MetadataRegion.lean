import Luksbox.Model.AnchorFile

/-!
# The metadata region in bytes (`luksbox-format/src/metadata.rs`, `container.rs`)

How a metadata plaintext lies in its region on disk, and how a container keeps a
region and its mirror: the mirror is replaced first, by a rename, and then the
region is written over in its place. The container model of the VFS has a region
as the plaintext it authenticates to; here it is bytes.

A call draws its nonce and the keystream of its padding; they come with the
call. Of the file system a write sees a rename that fails before or after it took
effect, and a write in place that may stop anywhere and leave anything.
-/

namespace Luksbox.MetadataRegion

open Lib Luksbox.Core
open Anchor (toLeBytes)
open Pq (CommitFault)

inductive Error where
  | io
  | crypto
  | metadataTooLarge
  | metadataCorrupt
  /-- An index out of range, or the `expect` on the generator of the padding. -/
  | panic
  deriving DecidableEq

def metadataOverhead : Nat := 12 + 8 + 16

def nonceLen : Nat := 12

def lenFieldLen : Nat := 8

def tagLen : Nat := 16

def metadataKeyInfo : String := "lbx:metadata-key/v1"

def metadataLenMaskInfo : String := "lbx:metadata-len-mask/v1"

/-- What the functions take besides the plaintext and the region. -/
structure Keys where
  suite : CipherSuite
  mvk : Key
  headerSalt : Bytes 32
  maskLen : Bool

namespace Keys

def metadataKey (c : Crypto) (k : Keys) : Key :=
  c.hkdf k.headerSalt.val k.mvk.val metadataKeyInfo

/-- The mask of the length field, a `u64` of the HMAC of the nonce. -/
def lenMask (c : Crypto) (k : Keys) (nonce : List UInt8) : UInt64 :=
  UInt64.ofNat (leNat ((c.hmac (c.hkdf k.headerSalt.val k.mvk.val metadataLenMaskInfo) nonce).val.take 8))

/-- The length field for a length, and the length of a field. -/
def masked (c : Crypto) (k : Keys) (nonce : List UInt8) (len : UInt64) : UInt64 :=
  if k.maskLen then len ^^^ k.lenMask c nonce else len

def aad (k : Keys) (ctLen : UInt64) : List UInt8 := k.headerSalt.val ++ toLeBytes ctLen

end Keys

/-- The random bytes of a write; `none` for a generator that fails. -/
structure Draws where
  nonce : Option (Bytes 12)
  padding : Option (Nat → UInt8)

/-- `write_metadata_opts`; `regionLen` is the length of the region. -/
def writeMetadata (c : Crypto) (k : Keys) (plaintext : List UInt8) (regionLen : Nat)
    (draws : Draws) : Except Error (List UInt8) :=
  if plaintext.length + metadataOverhead > regionLen then .error .metadataTooLarge
  else do
    let nonce ← okOr .crypto draws.nonce
    let ctLen := UInt64.ofNat (plaintext.length + tagLen)
    let ct ← okOr .crypto (c.aeadSeal k.suite (k.metadataKey c) nonce (k.aad ctLen) plaintext)
    let padding ← okOr .panic draws.padding
    if nonceLen + lenFieldLen + ct.length > regionLen then .error .panic
    else
      .ok (nonce.val ++ toLeBytes (k.masked c nonce.val ctLen) ++ ct
        ++ ((List.range regionLen).map padding).drop (nonceLen + lenFieldLen + ct.length))

/-- `read_metadata_opts` -/
def readMetadata (c : Crypto) (k : Keys) (region : List UInt8) : Except Error (List UInt8) :=
  if region.length < metadataOverhead then .error .metadataCorrupt
  else do
    let nonce ← okOr .panic (sliceOf region 0 nonceLen)
    let field ← okOr .panic (sliceOf region nonceLen (nonceLen + lenFieldLen))
    let ctLen := k.masked c nonce (UInt64.ofNat (leNat field))
    let bodyStart := nonceLen + lenFieldLen
    let bodyEnd := bodyStart + ctLen.toNat
    if bodyEnd ≥ 2 ^ 64 then .error .metadataCorrupt
    else if ctLen.toNat < tagLen ∨ bodyEnd > region.length then .error .metadataCorrupt
    else do
      let ct ← okOr .panic (sliceOf region bodyStart bodyEnd)
      if h : nonce.length = 12 then
        okOr .crypto (c.aeadOpen k.suite (k.metadataKey c) ⟨nonce, h⟩ (k.aad ctLen) ct)
      else .error .panic

/-! ## The region and its mirror -/

/-- What the metadata calls read of a container, and what they write. `mirrored`
is `is_v2_format`; `live` is what the file has of the region, which is less than
`regionSize` bytes where it ends too early. -/
structure Store where
  keys : Keys
  regionSize : Nat
  mirrored : Bool
  live : List UInt8
  mirror : Option (List UInt8)
  recovered : Bool

/-- How the write of the region in its place ends. -/
inductive LiveFault where
  | none
  | before
  | torn (left : List UInt8)
  /-- All is written, and a sync fails. -/
  | after

/-- The mirror, if the format has one. `false` is an error. -/
def Store.writeMirror (s : Store) (region : List UInt8) (fault : CommitFault) : Bool × Store :=
  if s.mirrored then
    match fault with
    | .none => (true, { s with mirror := some region })
    | .before => (false, s)
    | .after => (false, { s with mirror := some region })
  else (true, s)

def Store.writeLive (s : Store) (region : List UInt8) : LiveFault → Bool × Store
  | .none => (true, { s with live := region })
  | .before => (false, s)
  | .torn left => (false, { s with live := left })
  | .after => (false, { s with live := region })

/-- `Container::write_metadata` -/
def Store.write (c : Crypto) (s : Store) (plaintext : List UInt8) (draws : Draws)
    (mirror : CommitFault) (live : LiveFault) : Except Error Unit × Store :=
  if plaintext.length + metadataOverhead > s.regionSize then (.error .metadataTooLarge, s)
  else
    match writeMetadata c s.keys plaintext s.regionSize draws with
    | .error e => (.error e, s)
    | .ok region =>
        match s.writeMirror region mirror with
        | (false, s₁) => (.error .io, s₁)
        | (true, s₁) =>
            match s₁.writeLive region live with
            | (false, s₂) => (.error .io, s₂)
            | (true, s₂) => (.ok (), s₂)

/-- Which of the two files the system lets a call read. -/
structure Readable where
  live : Bool
  mirror : Bool

/-- `Container::read_metadata`. What `read_exact` refuses is not looked for in the
mirror, and a mirror of another size is not read. -/
def Store.read (c : Crypto) (s : Store) (readable : Readable) :
    Except Error (List UInt8) × Store :=
  if readable.live = false ∨ s.live.length ≠ s.regionSize then (.error .io, s)
  else
    match readMetadata c s.keys s.live with
    | .ok pt => (.ok pt, s)
    | .error e =>
        match s.mirror with
        | none => (.error e, s)
        | some bytes =>
            if readable.mirror = false ∨ bytes.length ≠ s.regionSize then (.error e, s)
            else
              match readMetadata c s.keys bytes with
              | .ok pt => (.ok pt, { s with recovered := true })
              | .error _ => (.error e, s)

/-- A step in the life of a store: a call, or damage to the region. -/
inductive Event where
  | write (plaintext : List UInt8) (draws : Draws) (mirror : CommitFault) (live : LiveFault)
  | read (readable : Readable)
  /-- The file has these bytes of the region now, and may end in it. -/
  | damage (bytes : List UInt8)

def Store.step (c : Crypto) (s : Store) : Event → Store
  | .write plaintext draws mirror live => (s.write c plaintext draws mirror live).2
  | .read readable => (s.read c readable).2
  | .damage bytes => { s with live := bytes }

def Store.run (c : Crypto) (s : Store) (events : List Event) : Store := events.foldl (step c) s

end Luksbox.MetadataRegion
