import Luksbox.Model.SeedFile
import Luksbox.Proofs.HeaderCodec

/-!
# What is in a seed file

The reader takes a file apart into the fields of the AAD and the box behind
them; it accepts exactly the files that consist of these (`decode_ok`), and what
the writer makes is such a file (`encode_ok`). The two agree on everything but
the cost factors. The reader has bounds for them and the writer has none, so a
seed that was written can be read exactly if its cost factors are in the bounds.

For the other direction an AEAD is ideal: it opens what was sealed and nothing
else. Then a file that is read at all is one that an earlier call has made, byte
for byte.
-/

namespace Luksbox.Pq

open Lib Luksbox.Core

theorem deriveKek_ok {c : Crypto} {passphrase : List UInt8} {salt : Bytes 16} {kdf : KdfParams}
    {kek : Key} :
    deriveKek c passphrase salt kdf = .ok kek
      ↔ c.argon2id passphrase salt.val kdf.argon2id = some kek :=
  okOr_eq_ok

/-! ## The layout -/

section Layout

variable {bytes ct : List UInt8} {kdf : KdfParams} {salt : Bytes 16} {nonce : Bytes 12}

theorem buildAad_length : (buildAad kdf salt nonce).length = 43 := by
  unfold buildAad
  rw [List.length_append, List.length_append, salt.property, nonce.property]
  rfl

/-- The fields of a file, one behind the other. -/
theorem hasAt_file :
    HasAt bytes 0 (buildAad kdf salt nonce ++ ct)
      ↔ HasAt bytes 0 magic ∧ HasAt bytes 8 [version] ∧ HasAt bytes 9 (leBytes 4 kdf.mCostKib.toNat)
        ∧ HasAt bytes 13 [kdf.tCost] ∧ HasAt bytes 14 [kdf.pCost] ∧ HasAt bytes 15 salt.val
        ∧ HasAt bytes 31 nonce.val ∧ HasAt bytes 43 ct := by
  rw [hasAt_append, buildAad_length]
  unfold buildAad
  rw [hasAt_append, hasAt_append, hasAt_append, hasAt_append, hasAt_append, hasAt_append]
  have hlen : (magic ++ [version] ++ leBytes 4 kdf.mCostKib.toNat ++ [kdf.tCost] ++ [kdf.pCost]
      ++ salt.val).length = 31 := by
    rw [List.length_append, salt.property]
    rfl
  rw [hlen]
  simp only [and_assoc, Nat.zero_add]
  rfl

end Layout

/-! ## The writer -/

section Codec

variable {c : Crypto} {w : SeedWrite} {out bytes passphrase : List UInt8} {seed : Bytes 64}

/-- What the writer makes: the AAD, and the box behind it. -/
theorem encode_ok :
    w.encode c = .ok out
      ↔ ∃ salt nonce kek ct, w.salt = some salt ∧ w.nonce = some nonce
        ∧ c.argon2id w.passphrase salt.val w.kdf.argon2id = some kek
        ∧ c.aeadSeal .aes256Gcm kek nonce (buildAad w.kdf salt nonce) w.seed.val = some ct
        ∧ out = buildAad w.kdf salt nonce ++ ct := by
  unfold SeedWrite.encode
  constructor
  · intro h
    obtain ⟨salt, hsalt, h⟩ := except_bind_eq_ok.mp h
    obtain ⟨nonce, hnonce, h⟩ := except_bind_eq_ok.mp h
    obtain ⟨kek, hkek, h⟩ := except_bind_eq_ok.mp h
    rw [okOr_eq_ok] at hsalt hnonce
    rw [deriveKek_ok] at hkek
    split at h
    · cases h
    next ct hseal =>
      exact ⟨salt, nonce, kek, ct, hsalt, hnonce, hkek, hseal, (Except.ok.inj h).symm⟩
  · rintro ⟨salt, nonce, kek, ct, hsalt, hnonce, hkek, hseal, rfl⟩
    refine except_bind_eq_ok.mpr ⟨salt, okOr_eq_ok.mpr hsalt, ?_⟩
    refine except_bind_eq_ok.mpr ⟨nonce, okOr_eq_ok.mpr hnonce, ?_⟩
    refine except_bind_eq_ok.mpr ⟨kek, deriveKek_ok.mpr hkek, ?_⟩
    rw [hseal]
    rfl

/-! ## The reader -/

theorem leBytes_ofNat {l : List UInt8} (h : l.length = 4) :
    leBytes 4 (UInt32.ofNat (leNat l)).toNat = l := by
  have hlt := leNat_lt l
  rw [h] at hlt
  rw [UInt32.toNat_ofNat_of_lt' hlt, ← h, leBytes_leNat]

theorem openBox_ok {kdf : KdfParams} {salt : Bytes 16} {nonce : Bytes 12} {ct : List UInt8} :
    openBox c passphrase kdf salt nonce ct = .ok seed
      ↔ ∃ kek, c.argon2id passphrase salt.val kdf.argon2id = some kek
        ∧ c.aeadOpen .aes256Gcm kek nonce (buildAad kdf salt nonce) ct = some seed.val := by
  unfold openBox
  rw [except_bind_eq_ok]
  constructor
  · rintro ⟨kek, hkek, h⟩
    refine ⟨kek, deriveKek_ok.mp hkek, ?_⟩
    split at h
    · cases h
    next pt hopen =>
      split at h
      · cases h
        exact hopen
      · cases h
  · rintro ⟨kek, hkek, hopen⟩
    refine ⟨kek, deriveKek_ok.mpr hkek, ?_⟩
    rw [hopen]
    exact dif_pos seed.property

theorem openBox_ne_panic {kdf : KdfParams} {salt : Bytes 16} {nonce : Bytes 12}
    {ct : List UInt8} : openBox c passphrase kdf salt nonce ct ≠ .error .panic := by
  unfold openBox
  refine except_bind_ne_error ?_ fun kek _ => ?_
  · unfold deriveKek
    cases c.argon2id passphrase salt.val kdf.argon2id <;> exact nofun
  · split
    · exact nofun
    · split <;> exact nofun

/-- The fields that `decode` finds, whatever they are. -/
theorem decode_eq {kdf : KdfParams} {salt : Bytes 16} {nonce : Bytes 12} {ct : List UInt8}
    (heq : bytes = buildAad kdf salt nonce ++ ct) :
    decode c bytes passphrase
      = if kdf.isSafe = false then .error (hostileParams kdf)
        else openBox c passphrase kdf salt nonce ct := by
  have hlen : bytes.length = 43 + ct.length := by
    rw [heq, List.length_append, buildAad_length]
  have hat : HasAt bytes 0 (buildAad kdf salt nonce ++ ct) := by
    rw [← heq]
    exact hasAt_drop (Nat.zero_le _)
  obtain ⟨hmagic, hversion, hm, ht, hp, hsalt, hnonce, hct⟩ := hasAt_file.mp hat
  have hkdf : (⟨UInt32.ofNat (leNat (leBytes 4 kdf.mCostKib.toNat)), kdf.tCost, kdf.pCost⟩ :
      KdfParams) = kdf := by
    rw [leNat_leBytes_of_lt kdf.mCostKib.toNat_lt, UInt32.ofNat_toNat]
  have hstart : sliceOf bytes 0 8 = some magic := sliceOf_eq_some_iff.mpr ⟨rfl, hmagic⟩
  have hcost : sliceOf bytes 9 13 = some (leBytes 4 kdf.mCostKib.toNat) :=
    sliceOf_eq_some_iff.mpr ⟨rfl, hm⟩
  have hbox : sliceOf bytes (15 + kdfSaltLen + nonceLen) bytes.length = some ct :=
    sliceOf_eq_some_iff.mpr ⟨hlen, hct⟩
  have hsalt : arrayAt bytes 15 kdfSaltLen = some salt := arrayAt_eq_some.mpr hsalt
  have hnonce : arrayAt bytes (15 + kdfSaltLen) nonceLen = some nonce :=
    arrayAt_eq_some.mpr hnonce
  unfold decode
  rw [hstart, getElem?_eq_some_iff_hasAt.mpr hversion, hcost,
    getElem?_eq_some_iff_hasAt.mpr ht, getElem?_eq_some_iff_hasAt.mpr hp, hsalt, hnonce, hbox]
  simp only [okOr, ok_bind, ne_eq, not_true_eq_false, if_false, hkdf]
  rfl

/-- The reader accepts the files that the writer could have made with cost
factors in its bounds, and with a box that opens. -/
theorem decode_ok :
    decode c bytes passphrase = .ok seed
      ↔ ∃ kdf salt nonce ct, bytes = buildAad kdf salt nonce ++ ct ∧ kdf.isSafe = true
        ∧ openBox c passphrase kdf salt nonce ct = .ok seed := by
  constructor
  · intro h
    unfold decode at h
    obtain ⟨start, hstart, h⟩ := except_bind_eq_ok.mp h
    obtain ⟨hmagic, h⟩ := except_ite_eq_ok.mp h
    obtain ⟨found, hfound, h⟩ := except_bind_eq_ok.mp h
    obtain ⟨hversion, h⟩ := except_ite_eq_ok.mp h
    obtain ⟨mCost, hm, h⟩ := except_bind_eq_ok.mp h
    obtain ⟨tCost, ht, h⟩ := except_bind_eq_ok.mp h
    obtain ⟨pCost, hp, h⟩ := except_bind_eq_ok.mp h
    obtain ⟨hsafe, h⟩ := except_ite_eq_ok.mp h
    obtain ⟨(salt : Bytes 16), hsalt, h⟩ := except_bind_eq_ok.mp h
    obtain ⟨(nonce : Bytes 12), hnonce, h⟩ := except_bind_eq_ok.mp h
    obtain ⟨ct, hct, h⟩ := except_bind_eq_ok.mp h
    rw [okOr_eq_ok, sliceOf_eq_some_iff] at hstart hm hct
    rw [okOr_eq_ok, getElem?_eq_some_iff_hasAt] at hfound ht hp
    have hsalt : HasAt bytes 15 salt.val := arrayAt_eq_some.mp (okOr_eq_ok.mp hsalt)
    have hnonce : HasAt bytes 31 nonce.val := arrayAt_eq_some.mp (okOr_eq_ok.mp hnonce)
    rw [not_not.mp hmagic] at hstart
    rw [not_not.mp hversion] at hfound
    have hfour : mCost.length = 4 := by omega
    have hend : bytes.length = 43 + ct.length := hct.1
    refine ⟨⟨UInt32.ofNat (leNat mCost), tCost, pCost⟩, salt, nonce, ct, ?_,
      Bool.eq_true_of_not_eq_false hsafe, h⟩
    have hm' : HasAt bytes 9 (leBytes 4 (UInt32.ofNat (leNat mCost)).toNat) := by
      rw [leBytes_ofNat hfour]
      exact hm.2
    have hat := @hasAt_file bytes ct ⟨UInt32.ofNat (leNat mCost), tCost, pCost⟩ salt nonce |>.mpr
      ⟨hstart.2, hfound, hm', ht, hp, hsalt, hnonce, hct.2⟩
    refine hat.drop_eq ?_
    rw [List.length_append, buildAad_length, hend, Nat.zero_add]
  · rintro ⟨kdf, salt, nonce, ct, heq, hsafe, hopen⟩
    rw [decode_eq heq, if_neg (by rw [hsafe]; decide)]
    exact hopen

/-- A file of the right length is read without an index out of range. -/
theorem decode_ne_panic (hlen : 43 ≤ bytes.length) : decode c bytes passphrase ≠ .error .panic := by
  have harray {lo len : Nat} (h : lo + len ≤ 43) : ∃ part, arrayAt bytes lo len = some part :=
    ⟨_, dif_pos (by omega)⟩
  unfold decode
  refine except_bind_ne_error ?_ fun start _ => ?_
  · obtain ⟨part, hpart, -⟩ := @sliceOf_of_le _ bytes 0 8 (by omega) (by omega)
    exact okOr_ne_error ⟨part, hpart⟩
  split
  · exact nofun
  refine except_bind_ne_error (okOr_ne_error (getElem?_of_lt (by omega))) fun found _ => ?_
  split
  · exact nofun
  refine except_bind_ne_error ?_ fun mCost _ => ?_
  · obtain ⟨part, hpart, -⟩ := @sliceOf_of_le _ bytes 9 13 (by omega) (by omega)
    exact okOr_ne_error ⟨part, hpart⟩
  refine except_bind_ne_error (okOr_ne_error (getElem?_of_lt (by omega))) fun tCost _ => ?_
  refine except_bind_ne_error (okOr_ne_error (getElem?_of_lt (by omega))) fun pCost _ => ?_
  dsimp only
  split
  · exact nofun
  refine except_bind_ne_error (okOr_ne_error (harray (by decide))) fun salt _ => ?_
  refine except_bind_ne_error (okOr_ne_error (harray (by decide))) fun nonce _ => ?_
  refine except_bind_ne_error ?_ fun ct _ => openBox_ne_panic
  obtain ⟨part, hpart, -⟩ := @sliceOf_of_le _ bytes 43 bytes.length hlen le_rfl
  exact okOr_ne_error ⟨part, hpart⟩

end Codec

/-! ## Calls -/

/-- What a call puts into its box. -/
structure Boxed where
  key : Key
  nonce : Bytes 12
  aad : List UInt8
  pt : List UInt8
  deriving DecidableEq

def SeedWrite.boxed (c : Crypto) (w : SeedWrite) : Option Boxed := do
  let salt ← w.salt
  let nonce ← w.nonce
  let kek ← c.argon2id w.passphrase salt.val w.kdf.argon2id
  some ⟨kek, nonce, buildAad w.kdf salt nonce, w.seed.val⟩

/-- A box is its text and a tag. -/
def SealsWithTag (c : Crypto) (suite : CipherSuite) : Prop :=
  ∀ key nonce aad pt ct, c.aeadSeal suite key nonce aad pt = some ct →
    ct.length = pt.length + suite.tagLen

/-- An ideal AEAD: a box that was made opens, and nothing else does. -/
def OpensExactly (c : Crypto) (log : List Boxed) : Prop :=
  ∀ key nonce aad ct pt, c.aeadOpen .aes256Gcm key nonce aad ct = some pt
    ↔ ⟨key, nonce, aad, pt⟩ ∈ log ∧ c.aeadSeal .aes256Gcm key nonce aad pt = some ct

/-- The cost factors that the reader accepts. -/
structure InBounds (kdf : KdfParams) : Prop where
  mCostKib : 8 ≤ kdf.mCostKib.toNat ∧ kdf.mCostKib.toNat ≤ 512 * 1024
  tCost : 1 ≤ kdf.tCost.toNat ∧ kdf.tCost.toNat ≤ 16
  pCost : 1 ≤ kdf.pCost.toNat ∧ kdf.pCost.toNat ≤ 16

theorem isSafe_iff {kdf : KdfParams} : kdf.isSafe = true ↔ InBounds kdf := by
  unfold KdfParams.isSafe
  simp only [Bool.and_eq_true, decide_eq_true_eq, UInt32.le_iff_toNat_le, UInt8.le_iff_toNat_le]
  constructor
  · rintro ⟨⟨⟨⟨⟨hm, hm'⟩, ht⟩, ht'⟩, hp⟩, hp'⟩
    exact ⟨⟨hm, hm'⟩, ⟨ht, ht'⟩, hp, hp'⟩
  · rintro ⟨⟨hm, hm'⟩, ⟨ht, ht'⟩, hp, hp'⟩
    exact ⟨⟨⟨⟨⟨hm, hm'⟩, ht⟩, ht'⟩, hp⟩, hp'⟩

section Calls

variable {c : Crypto} {files files' : Files} {path : String} {w : SeedWrite} {fault : CommitFault}
  {out passphrase : List UInt8}

theorem boxed_eq_some {b : Boxed} :
    w.boxed c = some b
      ↔ ∃ salt nonce kek, w.salt = some salt ∧ w.nonce = some nonce
        ∧ c.argon2id w.passphrase salt.val w.kdf.argon2id = some kek
        ∧ b = ⟨kek, nonce, buildAad w.kdf salt nonce, w.seed.val⟩ := by
  unfold SeedWrite.boxed
  simp only [Option.bind_eq_bind, Option.bind_eq_some_iff, Option.some.injEq]
  constructor
  · rintro ⟨salt, hsalt, nonce, hnonce, kek, hkek, rfl⟩
    exact ⟨salt, nonce, kek, hsalt, hnonce, hkek, rfl⟩
  · rintro ⟨salt, nonce, kek, hsalt, hnonce, hkek, rfl⟩
    exact ⟨salt, hsalt, nonce, hnonce, kek, hkek, rfl⟩

/-- A call that succeeds leaves the file it has made. -/
theorem write_ok (h : write c files path w fault = (.ok (), files')) :
    ∃ out, w.encode c = .ok out ∧ files' path = some out := by
  unfold write at h
  split at h
  · cases (Prod.mk.inj h).1
  next hfree =>
    split at h
    · cases (Prod.mk.inj h).1
    next out hout =>
      refine ⟨out, hout, ?_⟩
      unfold Files.atomicSecureCreateNew at h
      rw [if_neg hfree] at h
      cases fault with
      | none =>
          rw [← (Prod.mk.inj h).2]
          exact if_pos rfl
      | before => cases (Prod.mk.inj h).1
      | after => cases (Prod.mk.inj h).1

theorem write_of_encode (hfree : files path = none) (hout : w.encode c = .ok out) :
    write c files path w .none = (.ok (), files.put path out) := by
  unfold write Files.atomicSecureCreateNew
  rw [hfree, hout]
  rfl

theorem encode_length (htag : SealsWithTag c .aes256Gcm) (hout : w.encode c = .ok out) :
    out.length = fileLen := by
  obtain ⟨salt, nonce, kek, ct, -, -, -, hseal, rfl⟩ := encode_ok.mp hout
  rw [List.length_append, buildAad_length, htag _ _ _ _ _ hseal, w.seed.property]
  rfl

/-- What `read` finds in a file that a call has made. -/
theorem read_encoded (htag : SealsWithTag c .aes256Gcm) (hout : w.encode c = .ok out)
    (hfile : files path = some out) :
    read c files path passphrase = decode c out passphrase := by
  unfold read
  rw [hfile]
  exact if_neg (not_not.mpr (encode_length htag hout))

/-- The reader rejects a file for the cost factors in it. -/
theorem read_hostile (htag : SealsWithTag c .aes256Gcm) (hout : w.encode c = .ok out)
    (hfile : files path = some out) (hbounds : ¬ InBounds w.kdf) :
    read c files path passphrase = .error (hostileParams w.kdf) := by
  obtain ⟨salt, nonce, kek, ct, -, -, -, -, heq⟩ := encode_ok.mp hout
  have hsafe : w.kdf.isSafe = false := Bool.eq_false_iff.mpr (mt isSafe_iff.mp hbounds)
  rw [read_encoded htag hout hfile, decode_eq heq, if_pos hsafe]

theorem read_inBounds {log : List Boxed} (htag : SealsWithTag c .aes256Gcm) (hopens : OpensExactly c log)
    (hlog : ∀ b, w.boxed c = some b → b ∈ log) (hout : w.encode c = .ok out)
    (hfile : files path = some out) (hbounds : InBounds w.kdf) :
    read c files path w.passphrase = .ok w.seed := by
  obtain ⟨salt, nonce, kek, ct, hsalt, hnonce, hkek, hseal, heq⟩ := encode_ok.mp hout
  have hmem := hlog _ (boxed_eq_some.mpr ⟨salt, nonce, kek, hsalt, hnonce, hkek, rfl⟩)
  rw [read_encoded htag hout hfile]
  refine decode_ok.mpr ⟨w.kdf, salt, nonce, ct, heq, isSafe_iff.mpr hbounds, ?_⟩
  exact openBox_ok.mpr ⟨kek, hkek, (hopens _ _ _ _ _).mpr ⟨hmem, hseal⟩⟩

theorem read_ne_panic : read c files path passphrase ≠ .error .panic := by
  unfold read
  split
  · exact nofun
  next bytes _ =>
    dsimp only
    split
    · exact nofun
    next hlen =>
      have hlen : bytes.length = fileLen := not_not.mp hlen
      refine decode_ne_panic ?_
      rw [hlen]
      decide

/-- A file that is read is one that a call has made. -/
theorem read_ok_made {calls : List SeedWrite} {seed : Bytes 64}
    (hopens : OpensExactly c (calls.filterMap (·.boxed c)))
    (h : read c files path passphrase = .ok seed) :
    ∃ w ∈ calls, w.seed = seed ∧ ∃ bytes, files path = some bytes ∧ w.encode c = .ok bytes := by
  unfold read at h
  split at h
  · cases h
  next bytes hfile =>
    obtain ⟨-, h⟩ := except_ite_eq_ok.mp h
    obtain ⟨kdf, salt, nonce, ct, heq, -, h⟩ := decode_ok.mp h
    obtain ⟨kek, -, hopen⟩ := openBox_ok.mp h
    obtain ⟨hmem, hseal⟩ := (hopens _ _ _ _ _).mp hopen
    obtain ⟨w, hw, hboxed⟩ := List.mem_filterMap.mp hmem
    obtain ⟨salt', nonce', kek', hsalt, hnonce, hkek, hbox⟩ := boxed_eq_some.mp hboxed
    obtain ⟨rfl, rfl, haad, hseed⟩ := Boxed.mk.inj hbox
    refine ⟨w, hw, Subtype.ext hseed.symm, bytes, hfile, encode_ok.mpr ?_⟩
    refine ⟨salt', nonce, kek, ct, hsalt, hnonce, hkek, ?_, ?_⟩
    · rw [← haad, ← hseed]
      exact hseal
    · rw [← haad]
      exact heq

end Calls

/-- A seed that was written is read again exactly if the cost factors of its
file are ones the reader accepts, and every file that is read holds the seed of
an earlier call. -/
theorem written_seed_is_read_iff {c : Crypto} {calls : List SeedWrite} (htag : SealsWithTag c .aes256Gcm)
    (hopens : OpensExactly c (calls.filterMap (·.boxed c))) :
    (∀ w ∈ calls, ∀ files path fault files', write c files path w fault = (.ok (), files') →
        (read c files' path w.passphrase = .ok w.seed ↔ InBounds w.kdf))
      ∧ ∀ files path passphrase, read c files path passphrase ≠ .error .panic
        ∧ ∀ seed, read c files path passphrase = .ok seed →
          ∃ w ∈ calls, w.seed = seed
            ∧ ∃ bytes, files path = some bytes ∧ w.encode c = .ok bytes := by
  refine ⟨fun w hw files path fault files' h => ?_, fun files path passphrase => ?_⟩
  · obtain ⟨out, hout, hfile⟩ := write_ok h
    constructor
    · intro hread
      by_contra hbounds
      rw [read_hostile htag hout hfile hbounds] at hread
      cases hread
    · refine read_inBounds htag hopens (fun b hb => ?_) hout hfile
      exact List.mem_filterMap.mpr ⟨w, hw, hb⟩
  · exact ⟨read_ne_panic, fun seed => read_ok_made hopens⟩

/-! ## The preset for high security -/

/-- `plainCrypto` that opens only what is in the log. -/
def boxingCrypto (log : List Boxed) : Crypto where
  argon2id := plainCrypto.argon2id
  hkdf := plainCrypto.hkdf
  aeadSeal := plainCrypto.aeadSeal
  aeadOpen _ key nonce aad ct :=
    if ct.drop (ct.length - 16) = key.val.take 16
        ∧ ⟨key, nonce, aad, ct.take (ct.length - 16)⟩ ∈ log then
      some (ct.take (ct.length - 16))
    else none
  hmac := plainCrypto.hmac

theorem boxingCrypto_tag (log : List Boxed) : SealsWithTag (boxingCrypto log) .aes256Gcm := by
  intro key nonce aad pt ct h
  rw [← Option.some.inj h, List.length_append, List.length_take, key.property]
  rfl

theorem boxingCrypto_opens (log : List Boxed) : OpensExactly (boxingCrypto log) log := by
  intro key nonce aad ct pt
  show ite _ _ _ = _ ↔ _ ∧ some (pt ++ key.val.take 16) = some ct
  constructor
  · intro h
    split at h
    next hcond =>
      cases h
      refine ⟨hcond.2, ?_⟩
      rw [← hcond.1, List.take_append_drop]
    · cases h
  · rintro ⟨hmem, h⟩
    have htag : (key.val.take 16).length = 16 := by
      rw [List.length_take, key.property]
      rfl
    have hlen : (pt ++ key.val.take 16).length - 16 = pt.length := by
      rw [List.length_append, htag, Nat.add_sub_cancel]
    rw [← Option.some.inj h, hlen, List.drop_left, List.take_left]
    exact if_pos ⟨rfl, hmem⟩

section Sample

/-- A call with the seed `firstBytes 64 [7]`. -/
def seedCall (kdf : KdfParams) : SeedWrite where
  seed := firstBytes 64 [7]
  passphrase := [112, 119]
  kdf := kdf
  salt := some (firstBytes 16 [1])
  nonce := some (firstBytes 12 [2])

/-- The cost factors of `Argon2idParams::SENSITIVE`. -/
def sensitiveKdf : KdfParams := ⟨1024 * 1024, 5, 4⟩

/-- The crypto after the call. -/
def seedCrypto (kdf : KdfParams) : Crypto :=
  boxingCrypto ([seedCall kdf].filterMap (·.boxed plainCrypto))

theorem seedCrypto_tag (kdf : KdfParams) : SealsWithTag (seedCrypto kdf) .aes256Gcm := boxingCrypto_tag _

theorem seedCrypto_opens (kdf : KdfParams) :
    OpensExactly (seedCrypto kdf) ([seedCall kdf].filterMap (·.boxed (seedCrypto kdf))) :=
  boxingCrypto_opens _

theorem seedCall_encode {kdf : KdfParams}
    (hkdf : plainCrypto.argon2id [112, 119] (firstBytes 16 [1]).val kdf.argon2id
      = some (firstBytes 32 ([112, 119] ++ (firstBytes 16 [1]).val))) :
    ∃ out, (seedCall kdf).encode (seedCrypto kdf) = .ok out :=
  ⟨_, encode_ok.mpr ⟨_, _, _, _, rfl, rfl, hkdf, rfl, rfl⟩⟩

/-- With the factors of the preset the seed is written, and its file is rejected. -/
theorem sensitive_seed_is_not_read :
    SealsWithTag (seedCrypto sensitiveKdf) .aes256Gcm
      ∧ OpensExactly (seedCrypto sensitiveKdf)
          ([seedCall sensitiveKdf].filterMap (·.boxed (seedCrypto sensitiveKdf)))
      ∧ ∃ files, write (seedCrypto sensitiveKdf) (fun _ => none) "alice.kyber"
            (seedCall sensitiveKdf) .none = (.ok (), files)
          ∧ read (seedCrypto sensitiveKdf) files "alice.kyber" (seedCall sensitiveKdf).passphrase
            = .error (hostileParams sensitiveKdf) := by
  obtain ⟨out, hout⟩ := @seedCall_encode sensitiveKdf rfl
  have hbounds : ¬ InBounds (seedCall sensitiveKdf).kdf := fun h => absurd h.mCostKib.2 (by decide)
  have hwrite := @write_of_encode _ (fun _ => none) "alice.kyber" _ _ rfl hout
  obtain ⟨out', hout', hfile⟩ := write_ok hwrite
  have hread := @read_hostile _ _ _ _ _ [112, 119] (seedCrypto_tag _) hout' hfile hbounds
  exact ⟨seedCrypto_tag _, seedCrypto_opens _, _, hwrite, hread⟩

/-- With the default factors it is written and read. -/
theorem written_seed_is_read_default :
    ∃ files, write (seedCrypto {}) (fun _ => none) "alice.kyber" (seedCall {}) .none
        = (.ok (), files)
      ∧ read (seedCrypto {}) files "alice.kyber" (seedCall {}).passphrase
        = .ok (seedCall {}).seed := by
  obtain ⟨out, hout⟩ := @seedCall_encode {} rfl
  have hwrite := @write_of_encode _ (fun _ => none) "alice.kyber" _ _ rfl hout
  obtain ⟨hreads, -⟩ := @written_seed_is_read_iff (seedCrypto {}) [seedCall {}]
    (seedCrypto_tag _) (seedCrypto_opens _)
  have hbounds : InBounds (seedCall {}).kdf := ⟨by decide, by decide, by decide⟩
  exact ⟨_, hwrite, (hreads _ (List.mem_singleton_self _) _ _ _ _ hwrite).mpr hbounds⟩

end Sample

end Luksbox.Pq
