import Luksbox.Model.Keyslot

/-!
# Creating and unlocking keyslots (`luksbox-core/src/keyslot.rs`)

Every constructor derives a key from its factors and wraps the master volume
key under it; the unlock function of the kind derives the same key from the
same factors and the salts the slot stores. They differ in the kind they write,
in what goes into the variable region, and in the derivation. `blank` is the
part of a slot that is filled in before the wrap, the same for all of them.

`NewSlot` is a call of one of the constructors with its arguments.
-/

namespace Luksbox.Core

open Lib

/-- What a constructor draws from the generator. `renewedNonce` is the second
nonce of the two constructors that wrap twice, `junkCt` and `junkTag` fill the
wrap fields of a slot that wraps nothing. -/
structure SlotRng where
  uuid : Bytes 16
  kdfSalt : Bytes 32
  aeadNonce : Bytes 12
  renewedNonce : Bytes 12
  junkCt : Bytes 32
  junkTag : Bytes 16

/-! ## Key derivation -/

namespace Crypto

variable (c : Crypto)

def deriveKek (passphrase salt : List UInt8) (params : Argon2idParams) : Except Error Key :=
  match c.argon2id passphrase salt params with
  | some kek => .ok kek
  | none => .error .kdf

/-- The bytes of `b"lbx:fido"`. -/
def fidoPrefix : List UInt8 := [0x6c, 0x62, 0x78, 0x3a, 0x66, 0x69, 0x64, 0x6f]

def deriveKekWithFido2 (passphrase : List UInt8) (hmacSecret : Key) (salt : List UInt8)
    (params : Argon2idParams) : Except Error Key :=
  if passphrase.contains 0xff then .error .invalidField
  else c.deriveKek (fidoPrefix ++ passphrase ++ [0xff] ++ hmacSecret.val) salt params

def deriveHybridFido2Kek (passphrase : List UInt8) (hmacSecret pqShared : Key)
    (salt : List UInt8) (params : Argon2idParams) : Except Error Key := do
  let classical ← c.deriveKekWithFido2 passphrase hmacSecret salt params
  .ok (c.hkdf salt (classical.val ++ pqShared.val) "lbx:hybrid-fido-kek/v1")

def deriveHybridKek (passphrase : List UInt8) (pqShared : Key) (salt : List UInt8)
    (params : Argon2idParams) : Except Error Key := do
  let classical ← c.deriveKek passphrase salt params
  .ok (c.hkdf salt (classical.val ++ pqShared.val) "lbx:hybrid-kek/v1")

def deriveTpm2Fido2Kek (tpmUnsealed hmacSecret : Key) (headerSalt : Bytes 32) : Key :=
  c.hkdf headerSalt.val (tpmUnsealed.val ++ hmacSecret.val) "lbx:tpm2-fido2-kek/v1"

def deriveHybridTpm2Kek (tpmUnsealed pqShared : Key) (headerSalt : Bytes 32) : Key :=
  c.hkdf headerSalt.val (tpmUnsealed.val ++ pqShared.val) "lbx:hybrid-tpm-kek/v1"

def deriveHybridTpm2Fido2Kek (tpmUnsealed hmacSecret pqShared : Key) (headerSalt : Bytes 32) :
    Key :=
  c.hkdf headerSalt.val (tpmUnsealed.val ++ hmacSecret.val ++ pqShared.val)
    "lbx:hybrid-tpm-fido2-kek/v1"

/-- The bytes of a factor that may be absent. -/
def factorBytes : Option Key → List UInt8
  | some k => k.val
  | none => []

def deriveSepKek (sepShared : Key) (passphraseKek hmacSecret pqShared : Option Key)
    (headerSalt : Bytes 32) : Key :=
  c.hkdf headerSalt.val
    (sepShared.val ++ factorBytes passphraseKek ++ factorBytes hmacSecret ++ factorBytes pqShared)
    "lbx:sep-kek/v1"

def deriveMvkFromFido2 (salt : Bytes 32) (hmacSecret : Key) : Key :=
  c.hkdf salt.val hmacSecret.val "lbx:mvk-fido/v1"

end Crypto

namespace Keyslot

variable (c : Crypto)

/-! ## Wrapping -/

def wrapMvk (s : Keyslot) (suite : CipherSuite) (kek mvk : Key) (headerSalt : Bytes 32) :
    Except Error Keyslot :=
  match c.aeadSeal suite kek s.aeadNonce (s.buildAeadAad headerSalt) mvk.val with
  | none => .error .aead
  | some ct =>
      if h : ct.length = 32 + 16 then
        .ok { s with
          wrappedCt := ⟨ct.take 32, by rw [List.length_take, h]; rfl⟩
          wrappedTag := ⟨ct.drop 32, by rw [List.length_drop, h]⟩ }
      else .error .aead

def unwrapMvk (s : Keyslot) (suite : CipherSuite) (kek : Key) (headerSalt : Bytes 32) :
    Except Error Key :=
  match c.aeadOpen suite kek s.aeadNonce (s.buildAeadAad headerSalt)
      (s.wrappedCt.val ++ s.wrappedTag.val) with
  | none => .error .keyslotAuthFailed
  | some pt => if h : pt.length = 32 then .ok ⟨pt, h⟩ else .error .keyslotAuthFailed

/-- A new slot before its wrap. -/
def blank (kind : SlotKind) (rng : SlotRng) (params : Argon2idParams) (credId : List UInt8)
    (hmacSalt : Bytes 32) : Keyslot where
  kind := kind
  aadVersion := aadVersionV4
  uuid := rng.uuid
  kdfParams := params
  kdfSalt := rng.kdfSalt
  aeadNonce := rng.aeadNonce
  wrappedCt := Bytes.zero 32
  wrappedTag := Bytes.zero 16
  fido2CredId := credId
  fido2HmacSalt := hmacSalt

/-! ## Constructors -/

section New

variable (suite : CipherSuite) (mvk : Key) (headerSalt : Bytes 32) (rng : SlotRng)

def newPassphrase (passphrase : List UInt8) (params : Argon2idParams) : Except Error Keyslot := do
  let kek ← c.deriveKek passphrase rng.kdfSalt.val params
  (blank .passphrase rng params [] (Bytes.zero 32)).wrapMvk c suite kek mvk headerSalt

def newFido2 (passphrase : Option (List UInt8)) (hmacSecret : Key) (credId : List UInt8)
    (hmacSalt : Bytes 32) (params : Argon2idParams) : Except Error Keyslot := do
  if credId.length > fido2CredIdMax then .error (.fido2CredIdTooLong credId.length)
  else do
    let kek ← c.deriveKekWithFido2 (passphrase.getD []) hmacSecret rng.kdfSalt.val params
    (blank .fido2HmacSecret rng params credId hmacSalt).wrapMvk c suite kek mvk headerSalt

/-- The body of `new_tpm2`, `new_tpm2_pin` and `new_hybrid_pq_tpm2`, which
differ in the kind and in the key. -/
def buildTpm2 (kind : SlotKind) (kek : Key) (sealedBlob : List UInt8) : Except Error Keyslot :=
  if sealedBlob.length > fido2CredIdMax then .error (.fido2CredIdTooLong sealedBlob.length)
  else
    (blank kind rng Argon2idParams.none sealedBlob (Bytes.zero 32)).wrapMvk c suite kek mvk headerSalt

def newTpm2 (kekFromTpm : Key) (sealedBlob : List UInt8) : Except Error Keyslot :=
  buildTpm2 c suite mvk headerSalt rng .tpm2Sealed kekFromTpm sealedBlob

def newTpm2Pin (kekFromTpm : Key) (sealedBlob : List UInt8) : Except Error Keyslot :=
  buildTpm2 c suite mvk headerSalt rng .tpm2SealedPin kekFromTpm sealedBlob

def newHybridPqTpm2 (kekFromTpm pqShared : Key) (sealedBlob : List UInt8) : Except Error Keyslot :=
  buildTpm2 c suite mvk headerSalt rng .hybridPqKemTpm2
    (c.deriveHybridTpm2Kek kekFromTpm pqShared headerSalt) sealedBlob

/-- `[tpm_blob_len: u16 LE | tpm_blob | cred_id]`. -/
def packPair (sealedBlob credId : List UInt8) : List UInt8 :=
  leBytes 2 sealedBlob.length ++ sealedBlob ++ credId

/-- The body of `new_tpm2_fido2` and `new_hybrid_pq_tpm2_fido2`. -/
def buildTpm2Fido2 (kind : SlotKind) (kek : Key) (sealedBlob credId : List UInt8)
    (hmacSalt : Bytes 32) : Except Error Keyslot :=
  if 2 + sealedBlob.length + credId.length > fido2CredIdMax then
    .error (.fido2CredIdTooLong (2 + sealedBlob.length + credId.length))
  else if sealedBlob.length > 65535 then .error .invalidField
  else
    (blank kind rng Argon2idParams.none (packPair sealedBlob credId) hmacSalt).wrapMvk c suite kek
      mvk headerSalt

def newTpm2Fido2 (tpmUnsealed hmacSecret : Key) (sealedBlob credId : List UInt8)
    (hmacSalt : Bytes 32) : Except Error Keyslot :=
  buildTpm2Fido2 c suite mvk headerSalt rng .tpm2Fido2
    (c.deriveTpm2Fido2Kek tpmUnsealed hmacSecret headerSalt) sealedBlob credId hmacSalt

def newHybridPqTpm2Fido2 (tpmUnsealed hmacSecret pqShared : Key) (sealedBlob credId : List UInt8)
    (hmacSalt : Bytes 32) : Except Error Keyslot :=
  buildTpm2Fido2 c suite mvk headerSalt rng .hybridPqKemTpm2Fido2
    (c.deriveHybridTpm2Fido2Kek tpmUnsealed hmacSecret pqShared headerSalt) sealedBlob credId
    hmacSalt

/-- The second half of the ML-KEM-1024 TPM constructors: the slot gets its own
kind and a fresh nonce and is wrapped again. -/
def rewrapAs (kind : SlotKind) (kek : Key) (s : Keyslot) : Except Error Keyslot :=
  { s with
    kind := kind
    wrappedCt := Bytes.zero 32
    wrappedTag := Bytes.zero 16
    aeadNonce := rng.renewedNonce }.wrapMvk c suite kek mvk headerSalt

def newHybridPq1024Tpm2 (kekFromTpm pqShared : Key) (sealedBlob : List UInt8) :
    Except Error Keyslot := do
  let s ← newHybridPqTpm2 c suite mvk headerSalt rng kekFromTpm pqShared sealedBlob
  rewrapAs c suite mvk headerSalt rng .hybridPqKem1024Tpm2
    (c.deriveHybridTpm2Kek kekFromTpm pqShared headerSalt) s

def newHybridPq1024Tpm2Fido2 (tpmUnsealed hmacSecret pqShared : Key)
    (sealedBlob credId : List UInt8) (hmacSalt : Bytes 32) : Except Error Keyslot := do
  let s ← newHybridPqTpm2Fido2 c suite mvk headerSalt rng tpmUnsealed hmacSecret pqShared
    sealedBlob credId hmacSalt
  rewrapAs c suite mvk headerSalt rng .hybridPqKem1024Tpm2Fido2
    (c.deriveHybridTpm2Fido2Kek tpmUnsealed hmacSecret pqShared headerSalt) s

def buildHybridPqPassphrase (kind : SlotKind) (passphrase : List UInt8) (pqShared : Key)
    (params : Argon2idParams) : Except Error Keyslot := do
  let kek ← c.deriveHybridKek passphrase pqShared rng.kdfSalt.val params
  (blank kind rng params [] (Bytes.zero 32)).wrapMvk c suite kek mvk headerSalt

def newHybridPqPassphrase (passphrase : List UInt8) (pqShared : Key) (params : Argon2idParams) :
    Except Error Keyslot :=
  buildHybridPqPassphrase c suite mvk headerSalt rng .hybridPqKemPassphrase passphrase pqShared params

def newHybridPq1024Passphrase (passphrase : List UInt8) (pqShared : Key)
    (params : Argon2idParams) : Except Error Keyslot :=
  buildHybridPqPassphrase c suite mvk headerSalt rng .hybridPqKem1024Passphrase passphrase pqShared
    params

def buildHybridPqFido2 (kind : SlotKind) (passphrase : Option (List UInt8))
    (hmacSecret pqShared : Key) (credId : List UInt8) (hmacSalt : Bytes 32)
    (params : Argon2idParams) : Except Error Keyslot := do
  if credId.length > fido2CredIdMax then .error (.fido2CredIdTooLong credId.length)
  else do
    let kek ← c.deriveHybridFido2Kek (passphrase.getD []) hmacSecret pqShared rng.kdfSalt.val params
    (blank kind rng params credId hmacSalt).wrapMvk c suite kek mvk headerSalt

def newHybridPqFido2 (passphrase : Option (List UInt8)) (hmacSecret pqShared : Key)
    (credId : List UInt8) (hmacSalt : Bytes 32) (params : Argon2idParams) : Except Error Keyslot :=
  buildHybridPqFido2 c suite mvk headerSalt rng .hybridPqKemFido2 passphrase hmacSecret pqShared
    credId hmacSalt params

def newHybridPq1024Fido2 (passphrase : Option (List UInt8)) (hmacSecret pqShared : Key)
    (credId : List UInt8) (hmacSalt : Bytes 32) (params : Argon2idParams) : Except Error Keyslot :=
  buildHybridPqFido2 c suite mvk headerSalt rng .hybridPqKem1024Fido2 passphrase hmacSecret
    pqShared credId hmacSalt params

/-- Nothing is wrapped: the master volume key comes from the authenticator. -/
def newFido2DerivedMvk (credId : List UInt8) (hmacSalt : Bytes 32) : Except Error Keyslot :=
  if credId.length > fido2CredIdMax then .error (.fido2CredIdTooLong credId.length)
  else
    .ok { blank .fido2DerivedMvk rng Argon2idParams.none credId hmacSalt with
      wrappedCt := rng.junkCt
      wrappedTag := rng.junkTag }

/-- Validate that the factors are the ones the kind needs. -/
def checkSepFactors (kind : SlotKind) (hasFido2 hasPassphrase hasPq : Bool) : Except Error Unit :=
  if kind.isSep = false ∨ kind.isSepFido2 ≠ hasFido2 ∨ kind.isSepPassphrase ≠ hasPassphrase
      ∨ kind.isHybridPq ≠ hasPq then .error .invalidField
  else .ok ()

def rejectNullFactor (factor : Key) : Except Error Unit :=
  if factor.val.all (· == 0) then .error .invalidField else .ok ()

def rejectNullFactor? : Option Key → Except Error Unit
  | some factor => rejectNullFactor factor
  | none => .ok ()

/-- The factors of a Secure Enclave slot. -/
structure SepFactors where
  sepShared : Key
  hmacSecret : Option Key
  passphrase : Option (List UInt8)
  pqShared : Option Key

def SepFactors.check (f : SepFactors) (kind : SlotKind) : Except Error Unit := do
  checkSepFactors kind f.hmacSecret.isSome f.passphrase.isSome f.pqShared.isSome
  rejectNullFactor f.sepShared
  rejectNullFactor? f.hmacSecret
  rejectNullFactor? f.pqShared

/-- The key of a Secure Enclave slot, with Argon2id over `kdfSalt` if there is
a passphrase. -/
def SepFactors.kek (f : SepFactors) (kdfSalt : List UInt8) (params : Argon2idParams) :
    Except Error Key := do
  let ppKek ← match f.passphrase with
    | some pp => some <$> c.deriveKek pp kdfSalt params
    | none => .ok none
  .ok (c.deriveSepKek f.sepShared ppKek f.hmacSecret f.pqShared headerSalt)

def checkSepCred (kind : SlotKind) (credId : List UInt8) : Except Error Unit :=
  if kind.isSepFido2 then
    if credId = [] ∨ credId.length > fido2CredIdMax then .error (.fido2CredIdTooLong credId.length)
    else .ok ()
  else if credId ≠ [] then .error .invalidField
  else .ok ()

def newSep (kind : SlotKind) (f : SepFactors) (params : Argon2idParams) (credId : List UInt8)
    (hmacSalt : Bytes 32) : Except Error Keyslot := do
  f.check kind
  checkSepCred kind credId
  let kek ← f.kek c headerSalt rng.kdfSalt.val params
  let storedParams := if f.passphrase.isSome then params else Argon2idParams.none
  (blank kind rng storedParams (if kind.isSepFido2 then credId else [])
    (if kind.isSepFido2 then hmacSalt else Bytes.zero 32)).wrapMvk c suite kek mvk headerSalt

end New

/-! ## Unlocking -/

section Unlock

variable (s : Keyslot) (suite : CipherSuite) (headerSalt : Bytes 32)

def unlockPassphrase (passphrase : List UInt8) : Except Error Key := do
  if s.kind ≠ .passphrase then .error .invalidField
  else do
    let kek ← c.deriveKek passphrase s.kdfSalt.val s.kdfParams
    s.unwrapMvk c suite kek headerSalt

def unlockFido2 (passphrase : Option (List UInt8)) (hmacSecret : Key) : Except Error Key := do
  if s.kind ≠ .fido2HmacSecret then .error .invalidField
  else do
    let kek ← c.deriveKekWithFido2 (passphrase.getD []) hmacSecret s.kdfSalt.val s.kdfParams
    s.unwrapMvk c suite kek headerSalt

def unlockFido2DerivedMvk (hmacSecret : Key) : Except Error Key :=
  if s.kind ≠ .fido2DerivedMvk then .error .invalidField
  else .ok (c.deriveMvkFromFido2 s.fido2HmacSalt hmacSecret)

def unlockTpm2 (kekFromTpm : Key) : Except Error Key :=
  if s.kind ≠ .tpm2Sealed ∧ s.kind ≠ .tpm2SealedPin then .error .invalidField
  else s.unwrapMvk c suite kekFromTpm headerSalt

def unlockTpm2Fido2 (tpmUnsealed hmacSecret : Key) : Except Error Key :=
  if s.kind ≠ .tpm2Fido2 then .error .invalidField
  else s.unwrapMvk c suite (c.deriveTpm2Fido2Kek tpmUnsealed hmacSecret headerSalt) headerSalt

def unlockHybridPqTpm2 (kekFromTpm pqShared : Key) : Except Error Key :=
  if s.kind ≠ .hybridPqKemTpm2 ∧ s.kind ≠ .hybridPqKem1024Tpm2 then .error .invalidField
  else s.unwrapMvk c suite (c.deriveHybridTpm2Kek kekFromTpm pqShared headerSalt) headerSalt

def unlockHybridPqTpm2Fido2 (tpmUnsealed hmacSecret pqShared : Key) : Except Error Key :=
  if s.kind ≠ .hybridPqKemTpm2Fido2 ∧ s.kind ≠ .hybridPqKem1024Tpm2Fido2 then .error .invalidField
  else
    s.unwrapMvk c suite (c.deriveHybridTpm2Fido2Kek tpmUnsealed hmacSecret pqShared headerSalt)
      headerSalt

def unlockHybridPqPassphrase (passphrase : List UInt8) (pqShared : Key) : Except Error Key := do
  if s.kind.isHybridPqPassphrase = false then .error .invalidField
  else do
    let kek ← c.deriveHybridKek passphrase pqShared s.kdfSalt.val s.kdfParams
    s.unwrapMvk c suite kek headerSalt

def unlockHybridPqFido2 (passphrase : Option (List UInt8)) (hmacSecret pqShared : Key) :
    Except Error Key := do
  if s.kind.isHybridPqFido2 = false then .error .invalidField
  else do
    let kek ← c.deriveHybridFido2Kek (passphrase.getD []) hmacSecret pqShared s.kdfSalt.val
      s.kdfParams
    s.unwrapMvk c suite kek headerSalt

def unlockSep (f : SepFactors) : Except Error Key := do
  f.check s.kind
  let kek ← f.kek c headerSalt s.kdfSalt.val s.kdfParams
  s.unwrapMvk c suite kek headerSalt

end Unlock

/-! ## The variable region of the TPM kinds -/

def tpm2SealedBlob (s : Keyslot) : Option (List UInt8) :=
  if s.kind.holdsTpmBlob then some s.fido2CredId else none

def tpm2Fido2SealedBlob (s : Keyslot) : Option (List UInt8) :=
  if s.kind.holdsTpmPair = false then none
  else if s.fido2CredId.length < 2 then none
  else
    let blobLen := leNat (s.fido2CredId.take 2)
    if s.fido2CredId.length < 2 + blobLen then none
    else some ((s.fido2CredId.drop 2).take blobLen)

def tpm2Fido2CredId (s : Keyslot) : Option (List UInt8) :=
  if s.kind.holdsTpmPair = false then none
  else if s.fido2CredId.length < 2 then none
  else
    let blobLen := leNat (s.fido2CredId.take 2)
    if s.fido2CredId.length < 2 + blobLen then none
    else some (s.fido2CredId.drop (2 + blobLen))

end Keyslot

/-! ## Calls of the constructors -/

inductive NewSlot where
  | passphrase (passphrase : List UInt8) (params : Argon2idParams)
  | fido2 (passphrase : Option (List UInt8)) (hmacSecret : Key) (credId : List UInt8)
      (hmacSalt : Bytes 32) (params : Argon2idParams)
  | fido2DerivedMvk (hmacSecret : Key) (credId : List UInt8) (hmacSalt : Bytes 32)
  | tpm2 (kekFromTpm : Key) (sealedBlob : List UInt8)
  | tpm2Pin (kekFromTpm : Key) (sealedBlob : List UInt8)
  | tpm2Fido2 (tpmUnsealed hmacSecret : Key) (sealedBlob credId : List UInt8) (hmacSalt : Bytes 32)
  | hybridPqPassphrase (passphrase : List UInt8) (pqShared : Key) (params : Argon2idParams)
  | hybridPq1024Passphrase (passphrase : List UInt8) (pqShared : Key) (params : Argon2idParams)
  | hybridPqFido2 (passphrase : Option (List UInt8)) (hmacSecret pqShared : Key)
      (credId : List UInt8) (hmacSalt : Bytes 32) (params : Argon2idParams)
  | hybridPq1024Fido2 (passphrase : Option (List UInt8)) (hmacSecret pqShared : Key)
      (credId : List UInt8) (hmacSalt : Bytes 32) (params : Argon2idParams)
  | hybridPqTpm2 (kekFromTpm pqShared : Key) (sealedBlob : List UInt8)
  | hybridPq1024Tpm2 (kekFromTpm pqShared : Key) (sealedBlob : List UInt8)
  | hybridPqTpm2Fido2 (tpmUnsealed hmacSecret pqShared : Key) (sealedBlob credId : List UInt8)
      (hmacSalt : Bytes 32)
  | hybridPq1024Tpm2Fido2 (tpmUnsealed hmacSecret pqShared : Key) (sealedBlob credId : List UInt8)
      (hmacSalt : Bytes 32)
  | sep (kind : SlotKind) (factors : Keyslot.SepFactors) (params : Argon2idParams)
      (credId : List UInt8) (hmacSalt : Bytes 32)

namespace NewSlot

variable (c : Crypto) (suite : CipherSuite) (headerSalt : Bytes 32)

/-- The call. -/
def build (mvk : Key) (rng : SlotRng) : NewSlot → Except Error Keyslot
  | .passphrase pw params => Keyslot.newPassphrase c suite mvk headerSalt rng pw params
  | .fido2 pw hs cred salt params => Keyslot.newFido2 c suite mvk headerSalt rng pw hs cred salt params
  | .fido2DerivedMvk _ cred salt => Keyslot.newFido2DerivedMvk rng cred salt
  | .tpm2 kek blob => Keyslot.newTpm2 c suite mvk headerSalt rng kek blob
  | .tpm2Pin kek blob => Keyslot.newTpm2Pin c suite mvk headerSalt rng kek blob
  | .tpm2Fido2 tpm hs blob cred salt =>
      Keyslot.newTpm2Fido2 c suite mvk headerSalt rng tpm hs blob cred salt
  | .hybridPqPassphrase pw pq params =>
      Keyslot.newHybridPqPassphrase c suite mvk headerSalt rng pw pq params
  | .hybridPq1024Passphrase pw pq params =>
      Keyslot.newHybridPq1024Passphrase c suite mvk headerSalt rng pw pq params
  | .hybridPqFido2 pw hs pq cred salt params =>
      Keyslot.newHybridPqFido2 c suite mvk headerSalt rng pw hs pq cred salt params
  | .hybridPq1024Fido2 pw hs pq cred salt params =>
      Keyslot.newHybridPq1024Fido2 c suite mvk headerSalt rng pw hs pq cred salt params
  | .hybridPqTpm2 kek pq blob => Keyslot.newHybridPqTpm2 c suite mvk headerSalt rng kek pq blob
  | .hybridPq1024Tpm2 kek pq blob =>
      Keyslot.newHybridPq1024Tpm2 c suite mvk headerSalt rng kek pq blob
  | .hybridPqTpm2Fido2 tpm hs pq blob cred salt =>
      Keyslot.newHybridPqTpm2Fido2 c suite mvk headerSalt rng tpm hs pq blob cred salt
  | .hybridPq1024Tpm2Fido2 tpm hs pq blob cred salt =>
      Keyslot.newHybridPq1024Tpm2Fido2 c suite mvk headerSalt rng tpm hs pq blob cred salt
  | .sep kind f params cred salt =>
      Keyslot.newSep c suite mvk headerSalt rng kind f params cred salt

/-- The matching unlock function with the same factors. -/
def unlock (s : Keyslot) : NewSlot → Except Error Key
  | .passphrase pw _ => s.unlockPassphrase c suite headerSalt pw
  | .fido2 pw hs _ _ _ => s.unlockFido2 c suite headerSalt pw hs
  | .fido2DerivedMvk hs _ _ => s.unlockFido2DerivedMvk c hs
  | .tpm2 kek _ => s.unlockTpm2 c suite headerSalt kek
  | .tpm2Pin kek _ => s.unlockTpm2 c suite headerSalt kek
  | .tpm2Fido2 tpm hs _ _ _ => s.unlockTpm2Fido2 c suite headerSalt tpm hs
  | .hybridPqPassphrase pw pq _ => s.unlockHybridPqPassphrase c suite headerSalt pw pq
  | .hybridPq1024Passphrase pw pq _ => s.unlockHybridPqPassphrase c suite headerSalt pw pq
  | .hybridPqFido2 pw hs pq _ _ _ => s.unlockHybridPqFido2 c suite headerSalt pw hs pq
  | .hybridPq1024Fido2 pw hs pq _ _ _ => s.unlockHybridPqFido2 c suite headerSalt pw hs pq
  | .hybridPqTpm2 kek pq _ => s.unlockHybridPqTpm2 c suite headerSalt kek pq
  | .hybridPq1024Tpm2 kek pq _ => s.unlockHybridPqTpm2 c suite headerSalt kek pq
  | .hybridPqTpm2Fido2 tpm hs pq _ _ _ => s.unlockHybridPqTpm2Fido2 c suite headerSalt tpm hs pq
  | .hybridPq1024Tpm2Fido2 tpm hs pq _ _ _ => s.unlockHybridPqTpm2Fido2 c suite headerSalt tpm hs pq
  | .sep _ f _ _ _ => s.unlockSep c suite headerSalt f

end NewSlot

end Luksbox.Core
