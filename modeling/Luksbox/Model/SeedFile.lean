import Luksbox.Lib.Slices
import Luksbox.Lib.Wp
import Luksbox.Model.Keyslot

/-!
# ML-KEM parameters and the seed file (`luksbox-pq/src/lib.rs`, `seed_file.rs`)

The decapsulation key of a hybrid keyslot comes from a seed of 64 bytes, which
the user keeps in a file of its own. The seed is sealed with AES-256-GCM under a
key that Argon2id derives from a passphrase; the cost factors, the salt and the
nonce stand in front of the box and are its AAD.

A file is its bytes, and the files are a function of the path
(`luksbox-core/src/file_util.rs`). That a path is a symlink, a device or a
directory only adds further errors and is left out. A call draws its salt and
its nonce from the operating system; they come with the call, and `none` stands
for a generator that fails. The texts of the errors are the source's; what a
crate says about its own errors is not.
-/

namespace Luksbox.Pq

open Lib Luksbox.Core

inductive Error where
  | seedFile (message : String)
  | io
  /-- Not an error of the source: an index out of range. -/
  | panic
  deriving DecidableEq

/-! ## Parameter sets -/

inductive PqParams where
  | ml768
  | ml1024
  deriving DecidableEq

namespace PqParams

def publicKeyLen : PqParams → Nat
  | .ml768 => 1184
  | .ml1024 => 1568

def ciphertextLen : PqParams → Nat
  | .ml768 => 1088
  | .ml1024 => 1568

def levelByte : PqParams → UInt8
  | .ml768 => 1
  | .ml1024 => 2

def fromLevelByte (b : UInt8) : Except Error PqParams :=
  if b = 1 then .ok .ml768
  else if b = 2 then .ok .ml1024
  else .error (.seedFile
    s!"unknown PQ level byte: {b} (expected 1 for ML-KEM-768 or 2 for ML-KEM-1024)")

end PqParams

/-! ## Files -/

/-- The regular files. -/
abbrev Files := String → Option (List UInt8)

def Files.put (files : Files) (path : String) (bytes : List UInt8) : Files :=
  fun p => if p = path then some bytes else files p

/-- Where a commit fails: before the rename or the link, or at the sync of the
directory after it. -/
inductive CommitFault where
  | none
  | before
  | after
  deriving DecidableEq

/-- `atomic_secure_write`; `false` is an error. -/
def Files.atomicSecureWrite (files : Files) (path : String) (bytes : List UInt8) :
    CommitFault → Bool × Files
  | .none => (true, files.put path bytes)
  | .before => (false, files)
  | .after => (false, files.put path bytes)

/-! ## The seed file -/

def seedLen : Nat := 64

/-- The text `lbxkyb01`. -/
def magic : List UInt8 := [108, 98, 120, 107, 121, 98, 48, 49]

def version : UInt8 := 1

def kdfSaltLen : Nat := 16

def nonceLen : Nat := 12

def tagLen : Nat := 16

def fileLen : Nat := 8 + 1 + 4 + 1 + 1 + kdfSaltLen + nonceLen + seedLen + tagLen

structure KdfParams where
  mCostKib : UInt32 := 256 * 1024
  tCost : UInt8 := 3
  pCost : UInt8 := 4
  deriving DecidableEq

/-- What `derive_kek` hands to the crate. -/
def KdfParams.argon2id (kdf : KdfParams) : Core.Argon2idParams :=
  ⟨kdf.mCostKib, kdf.tCost.toUInt32, kdf.pCost.toUInt32⟩

def deriveKek (c : Crypto) (passphrase : List UInt8) (salt : Bytes 16) (kdf : KdfParams) :
    Except Error Key :=
  okOr (.seedFile "Argon2id") (c.argon2id passphrase salt.val kdf.argon2id)

def buildAad (kdf : KdfParams) (salt : Bytes 16) (nonce : Bytes 12) : List UInt8 :=
  magic ++ [version] ++ leBytes 4 kdf.mCostKib.toNat ++ [kdf.tCost] ++ [kdf.pCost] ++ salt.val
    ++ nonce.val

/-- The arguments of a call of `write` and the random bytes it draws. -/
structure SeedWrite where
  seed : Bytes 64
  passphrase : List UInt8
  kdf : KdfParams
  salt : Option (Bytes 16)
  nonce : Option (Bytes 12)

def rngFailure (what : String) : Error := .seedFile s!"OS RNG failure generating {what}"

/-- The bytes `write` makes. -/
def SeedWrite.encode (c : Crypto) (w : SeedWrite) : Except Error (List UInt8) := do
  let salt ← okOr (rngFailure "salt") w.salt
  let nonce ← okOr (rngFailure "nonce") w.nonce
  let kek ← deriveKek c w.passphrase salt w.kdf
  match c.aeadSeal .aes256Gcm kek nonce (buildAad w.kdf salt nonce) w.seed.val with
  | none => .error (.seedFile "AES-GCM encrypt")
  | some ct =>
      .ok (magic ++ [version] ++ leBytes 4 w.kdf.mCostKib.toNat ++ [w.kdf.tCost] ++ [w.kdf.pCost]
        ++ salt.val ++ nonce.val ++ ct)

/-- `atomic_secure_create_new`: the link fails where there is a file. -/
def Files.atomicSecureCreateNew (files : Files) (path : String) (bytes : List UInt8)
    (fault : CommitFault) : Bool × Files :=
  if (files path).isSome then (false, files) else files.atomicSecureWrite path bytes fault

def alreadyExists (path : String) : Error :=
  .seedFile s!"{path} already exists; refusing to overwrite"

def write (c : Crypto) (files : Files) (path : String) (w : SeedWrite) (fault : CommitFault) :
    Except Error Unit × Files :=
  if (files path).isSome then (.error (alreadyExists path), files)
  else
    match w.encode c with
    | .error e => (.error e, files)
    | .ok out =>
        match files.atomicSecureCreateNew path out fault with
        | (true, files') => (.ok (), files')
        | (false, files') =>
            (.error (if (files path).isSome then alreadyExists path else .io), files')

def safeMCostKibMax : UInt32 := 512 * 1024

def safeTCostMax : UInt8 := 16

def safePCostMax : UInt8 := 16

/-- The bounds of the reader. -/
def KdfParams.isSafe (kdf : KdfParams) : Bool :=
  decide (8 ≤ kdf.mCostKib) && decide (kdf.mCostKib ≤ safeMCostKibMax)
    && decide (1 ≤ kdf.tCost) && decide (kdf.tCost ≤ safeTCostMax)
    && decide (1 ≤ kdf.pCost) && decide (kdf.pCost ≤ safePCostMax)

def hostileParams (kdf : KdfParams) : Error :=
  let m := kdf.mCostKib
  let t := kdf.tCost
  let p := kdf.pCost
  .seedFile (s!"rejecting hostile on-disk Argon2id params (m_cost_kib={m}, t_cost={t}, p_cost={p}), "
    ++ s!"outside safe bounds (m<={safeMCostKibMax} KiB, t<={safeTCostMax}, p<={safePCostMax})")

/-- `read` from the key of the box on. -/
def openBox (c : Crypto) (passphrase : List UInt8) (kdf : KdfParams) (salt : Bytes 16)
    (nonce : Bytes 12) (ct : List UInt8) : Except Error (Bytes 64) := do
  let kek ← deriveKek c passphrase salt kdf
  match c.aeadOpen .aes256Gcm kek nonce (buildAad kdf salt nonce) ct with
  | none => .error (.seedFile
      "decryption failed, wrong passphrase, or the file has been tampered with")
  | some pt =>
      if h : pt.length = 64 then .ok ⟨pt, h⟩
      else
        let got := pt.length
        .error (.seedFile s!"decrypted seed has wrong length: got {got}, expected {seedLen}")

/-- `read` from the bytes of the file on. -/
def decode (c : Crypto) (bytes : List UInt8) (passphrase : List UInt8) :
    Except Error (Bytes 64) := do
  let start ← okOr .panic (sliceOf bytes 0 8)
  if start ≠ magic then
    .error (.seedFile "missing magic bytes, not a .kyber file")
  else do
    let found ← okOr .panic bytes[8]?
    if found ≠ version then
      .error (.seedFile s!"unsupported version {found}, expected {version}")
    else do
      let mCostKib ← okOr .panic (sliceOf bytes 9 13)
      let tCost ← okOr .panic bytes[13]?
      let pCost ← okOr .panic bytes[14]?
      let kdf : KdfParams := ⟨UInt32.ofNat (leNat mCostKib), tCost, pCost⟩
      if kdf.isSafe = false then .error (hostileParams kdf)
      else do
        let salt ← okOr .panic (arrayAt bytes 15 kdfSaltLen)
        let nonce ← okOr .panic (arrayAt bytes (15 + kdfSaltLen) nonceLen)
        let ct ← okOr .panic (sliceOf bytes (15 + kdfSaltLen + nonceLen) bytes.length)
        openBox c passphrase kdf salt nonce ct

def read (c : Crypto) (files : Files) (path : String) (passphrase : List UInt8) :
    Except Error (Bytes 64) :=
  match files path with
  | none => .error .io
  | some bytes =>
      let got := bytes.length
      if got ≠ fileLen then
        .error (.seedFile s!"wrong file size: got {got} bytes, expected {fileLen}")
      else decode c bytes passphrase

end Luksbox.Pq
