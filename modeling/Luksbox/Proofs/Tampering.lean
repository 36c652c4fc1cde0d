import Luksbox.Proofs.SlotKeys

/-!
# Tampered keyslots

The AAD of a slot's wrap is made of two ranges of the slot, laid out as
`to_bytes` lays them out. Its first 76 bytes hold the version, and the version
decides the rest of the layout, so equal AADs come from slots that agree in
every field but the wrapped key (`eq_of_aad_eq`).

An AEAD that opens only what was sealed under the key therefore opens, under the
key of a created slot, only slots that the constructor has wrapped. There is one
of them, the created slot, except for the two ML-KEM-1024 TPM constructors:
these wrap an ML-KEM-768 slot under the same key first and drop it.
-/

namespace Luksbox.Core

open Lib

/-- Equal ranges of two buffers agree on every part. -/
theorem read_eq_of_read_eq {n m : Nat} {b : Buf n} {b' : Buf m} {a size : Nat}
    (h : b.read a size = b'.read a size) (i len : Nat) (hle : i + len ≤ size) :
    b.read (a + i) len = b'.read (a + i) len := by
  refine List.ext_getElem (by rw [Buf.read_length, Buf.read_length]) fun j h₁ h₂ => ?_
  rw [Buf.read_length] at h₁
  have hj : (b.read a size)[i + j]? = (b'.read a size)[i + j]? := by rw [h]
  rw [List.getElem?_eq_getElem (by rw [Buf.read_length]; omega),
    List.getElem?_eq_getElem (by rw [Buf.read_length]; omega)] at hj
  have hj := Option.some.inj hj
  rw [Buf.read_getElem, Buf.read_getElem] at hj
  rw [Buf.read_getElem, Buf.read_getElem, Nat.add_assoc]
  exact hj

theorem SlotKind.toU8_injective {k k' : SlotKind} (h : k.toU8 = k'.toU8) : k = k' := by
  have hk := SlotKind.fromU8_toU8 k
  rw [h, SlotKind.fromU8_toU8] at hk
  exact (Except.ok.inj hk).symm

theorem u32_eq_of_leBytes {v v' : UInt32} (h : leBytes 4 v.toNat = leBytes 4 v'.toNat) : v = v' := by
  rw [← ofNat_leBytes_u32 v, h, ofNat_leBytes_u32]

namespace Keyslot

/-! ## The AAD determines the slot -/

section Aad

variable (s : Keyslot)

/-- The copies behind the AAD. -/
def aadFields : List (Nat × List UInt8) :=
  s.aadRegion ++ if s.aadVersion ≥ aadVersionV2 then s.variableRegion else []

def aadBuf : Buf 512 := Buf.putAll (fun _ => 0) s.aadFields

def aadTailEnd : Nat := if s.aadVersion ≥ aadVersionV3 then slotSize else 256 + fido2HmacSaltLen

theorem buildAeadAad_eq (headerSalt : Bytes 32) :
    s.buildAeadAad headerSalt
      = s.aadBuf.read 0 76
        ++ (if s.aadVersion ≥ aadVersionV2 then s.aadBuf.read 124 (s.aadTailEnd - 124) else [])
        ++ headerSalt.val := rfl

theorem aadFields_inOrder : Buf.InOrder s.aadFields := by
  refine List.Pairwise.sublist ?_ s.fields_inOrder
  unfold aadFields fields
  rw [List.append_assoc]
  refine List.Sublist.append (List.Sublist.refl _) ?_
  split
  · exact List.sublist_append_right _ _
  · exact List.nil_sublist _

theorem read_aadBuf {o len : Nat} {v : List UInt8} (hmem : (o, v) ∈ s.aadFields)
    (hlen : v.length = len) (hfit : o + len ≤ 512) : s.aadBuf.read o len = v :=
  Buf.read_putAll _ s.aadFields_inOrder hmem hlen hfit

theorem mem_aadFields_region {f : Nat × List UInt8} (hf : f ∈ s.aadRegion) : f ∈ s.aadFields :=
  List.mem_append_left _ hf

theorem mem_aadFields_variable {f : Nat × List UInt8} (hv : s.aadVersion ≥ aadVersionV2)
    (hf : f ∈ s.variableRegion) : f ∈ s.aadFields := by
  refine List.mem_append_right _ ?_
  rw [if_pos hv]
  exact hf

end Aad

variable {s s' : Keyslot} {headerSalt : Bytes 32}

/-- A field of the first 76 bytes is the same for equal AADs. -/
theorem region_eq (h : s.buildAeadAad headerSalt = s'.buildAeadAad headerSalt) (o len : Nat)
    {v v' : List UInt8} (hv : (o, v) ∈ s.aadRegion) (hv' : (o, v') ∈ s'.aadRegion)
    (hlen : v.length = len) (hlen' : v'.length = len) (hle : o + len ≤ 76) : v = v' := by
  rw [buildAeadAad_eq, buildAeadAad_eq, List.append_assoc, List.append_assoc] at h
  have hhead := (List.append_inj h (by rw [Buf.read_length, Buf.read_length])).1
  have hread := read_eq_of_read_eq hhead o len hle
  rw [Nat.zero_add, s.read_aadBuf (s.mem_aadFields_region hv) hlen (by omega),
    s'.read_aadBuf (s'.mem_aadFields_region hv') hlen' (by omega)] at hread
  exact hread

theorem version_eq (h : s.buildAeadAad headerSalt = s'.buildAeadAad headerSalt) :
    s.aadVersion = s'.aadVersion := by
  have hv : [s.aadVersion] = [s'.aadVersion] :=
    region_eq h 1 1 (by simp [aadRegion]) (by simp [aadRegion]) rfl rfl (by decide)
  exact (List.cons.inj hv).1

/-- A field of the variable region is the same for equal AADs. -/
theorem variable_eq (h : s.buildAeadAad headerSalt = s'.buildAeadAad headerSalt)
    (hversion : s.aadVersion ≥ aadVersionV2) (o len : Nat) {v v' : List UInt8}
    (hv : (o, v) ∈ s.variableRegion) (hv' : (o, v') ∈ s'.variableRegion)
    (hlen : v.length = len) (hlen' : v'.length = len) (hlo : 124 ≤ o)
    (hle : o + len ≤ s.aadTailEnd) : v = v' := by
  have heq := version_eq h
  have hversion' : s'.aadVersion ≥ aadVersionV2 := heq ▸ hversion
  have htail : s'.aadTailEnd = s.aadTailEnd := by
    unfold aadTailEnd
    rw [heq]
  have hend : s.aadTailEnd ≤ 512 := by
    unfold aadTailEnd
    split
    · decide
    · decide
  rw [buildAeadAad_eq, buildAeadAad_eq, if_pos hversion, if_pos hversion', htail,
    List.append_assoc, List.append_assoc] at h
  have hrest := (List.append_inj h (by rw [Buf.read_length, Buf.read_length])).2
  have hbody := (List.append_inj hrest (by rw [Buf.read_length, Buf.read_length])).1
  have hread := read_eq_of_read_eq hbody (o - 124) len (by omega)
  rw [show 124 + (o - 124) = o by omega,
    s.read_aadBuf (s.mem_aadFields_variable hversion hv) hlen (by omega),
    s'.read_aadBuf (s'.mem_aadFields_variable hversion' hv') hlen' (by omega)] at hread
  exact hread

/-- The variable region holds what its kind stores and nothing else. -/
structure Shaped (s : Keyslot) : Prop where
  cred : s.fido2CredId.length ≤ (slotLayout s.aadVersion).1
  salt : s.kind.hasInlineHmacSalt = false → s.fido2HmacSalt = Bytes.zero 32

theorem Sound.shaped (hs : s.Sound) : s.Shaped := ⟨hs.cred, hs.salt⟩

theorem WellFormed.shaped (hs : s.WellFormed) : s.Shaped := by
  rcases hs with rfl | hs
  · exact ⟨Nat.zero_le _, fun _ => rfl⟩
  · exact hs.shaped

theorem Shaped.cred_eq (hs : s.Shaped) : s.cred = s.fido2CredId := List.take_of_length_le hs.cred

theorem layout_tailEnd (s : Keyslot) : (slotLayout s.aadVersion).2 + 32 ≤ s.aadTailEnd := by
  unfold slotLayout aadTailEnd
  split
  next h =>
    split
    · decide
    · decide
  next h =>
    rw [if_pos]
    · decide
    · rw [not_or] at h
      by_contra hlt
      have h₁ : s.aadVersion < 2 := UInt8.not_le.mp hlt
      have h₂ : s.aadVersion.toNat < 2 := h₁
      have h₀ : s.aadVersion.toNat ≠ 0 := fun h0 => h.1 (UInt8.toNat_inj.mp h0)
      exact h.2 (UInt8.toNat_inj.mp (show s.aadVersion.toNat = 1 by omega))

theorem kind_eq (h : s.buildAeadAad headerSalt = s'.buildAeadAad headerSalt) : s.kind = s'.kind := by
  have hkind : [s.kind.toU8] = [s'.kind.toU8] :=
    region_eq h 0 1 (by simp [aadRegion]) (by simp [aadRegion]) rfl rfl (by decide)
  exact SlotKind.toU8_injective (List.cons.inj hkind).1

theorem kdfParams_eq (h : s.buildAeadAad headerSalt = s'.buildAeadAad headerSalt) :
    s'.kdfParams = s.kdfParams := by
  have hm : leBytes 4 s.kdfParams.mCostKib.toNat = leBytes 4 s'.kdfParams.mCostKib.toNat :=
    region_eq h 20 4 (by simp [aadRegion]) (by simp [aadRegion]) (leBytes_length ..)
      (leBytes_length ..) (by decide)
  have ht : leBytes 4 s.kdfParams.tCost.toNat = leBytes 4 s'.kdfParams.tCost.toNat :=
    region_eq h 24 4 (by simp [aadRegion]) (by simp [aadRegion]) (leBytes_length ..)
      (leBytes_length ..) (by decide)
  have hp : leBytes 4 s.kdfParams.pCost.toNat = leBytes 4 s'.kdfParams.pCost.toNat :=
    region_eq h 28 4 (by simp [aadRegion]) (by simp [aadRegion]) (leBytes_length ..)
      (leBytes_length ..) (by decide)
  rw [show s'.kdfParams = ⟨_, _, _⟩ from rfl, ← u32_eq_of_leBytes hm, ← u32_eq_of_leBytes ht,
    ← u32_eq_of_leBytes hp]

/-- The length of the credential is in front of it, so its end is known. -/
theorem fido2CredId_eq (h : s.buildAeadAad headerSalt = s'.buildAeadAad headerSalt)
    (hversion : s.aadVersion ≥ aadVersionV2) (hs : s.Shaped) (hs' : s'.Shaped) :
    s'.fido2CredId = s.fido2CredId := by
  have heq := version_eq h
  have hfits := slotLayout_fits s.aadVersion
  have htail := s.layout_tailEnd
  have hle := hs.cred
  have hle' := hs'.cred
  rw [← heq] at hle'
  have hlen : leBytes 2 s.cred.length = leBytes 2 s'.cred.length :=
    variable_eq h hversion 124 2 (by simp [variableRegion]) (by simp [variableRegion])
      (leBytes_length ..) (leBytes_length ..) (by decide) (by omega)
  have hlen := congrArg leNat hlen
  rw [leNat_leBytes_of_lt (by have := s.cred_length_le; omega),
    leNat_leBytes_of_lt (by have := s'.cred_length_le; rw [← heq] at this; omega)] at hlen
  have hcred : s.cred = s'.cred :=
    variable_eq h hversion 128 s.cred.length (by simp [variableRegion])
      (by simp [variableRegion]) rfl hlen.symm (by decide)
      (by have := s.cred_length_le; omega)
  rw [← hs.cred_eq, ← hs'.cred_eq, hcred]

/-- A kind without a salt has a zero one. -/
theorem fido2HmacSalt_eq (h : s.buildAeadAad headerSalt = s'.buildAeadAad headerSalt)
    (hversion : s.aadVersion ≥ aadVersionV2) (hs : s.Shaped) (hs' : s'.Shaped) :
    s'.fido2HmacSalt = s.fido2HmacSalt := by
  have heq := version_eq h
  have hkind := kind_eq h
  have hfits := slotLayout_fits s.aadVersion
  cases hinline : s.kind.hasInlineHmacSalt with
  | false => rw [hs.salt hinline, hs'.salt (by rw [← hkind]; exact hinline)]
  | true =>
      have hinline' : s'.kind.hasInlineHmacSalt = true := by rw [← hkind]; exact hinline
      have hval : s.fido2HmacSalt.val = s'.fido2HmacSalt.val :=
        variable_eq h hversion (slotLayout s.aadVersion).2 32
          (by simp [variableRegion, saltLen, hinline, fido2HmacSaltLen])
          (by simp [variableRegion, saltLen, hinline', fido2HmacSaltLen, heq])
          s.fido2HmacSalt.property s'.fido2HmacSalt.property (by omega) s.layout_tailEnd
      exact (Subtype.ext hval).symm

/-- Slots with the same AAD agree in every field but the wrapped key. -/
theorem eq_of_aad_eq (h : s.buildAeadAad headerSalt = s'.buildAeadAad headerSalt)
    (hversion : s.aadVersion ≥ aadVersionV2) (hs : s.Shaped) (hs' : s'.Shaped) :
    s' = { s with wrappedCt := s'.wrappedCt, wrappedTag := s'.wrappedTag } := by
  have heq := version_eq h
  have hkind := kind_eq h
  have huuid : s.uuid.val = s'.uuid.val :=
    region_eq h 4 16 (by simp [aadRegion]) (by simp [aadRegion]) s.uuid.property s'.uuid.property
      (by decide)
  have hparams := kdfParams_eq h
  have hkdfSalt : s.kdfSalt.val = s'.kdfSalt.val :=
    region_eq h 32 32 (by simp [aadRegion]) (by simp [aadRegion]) s.kdfSalt.property
      s'.kdfSalt.property (by decide)
  have hnonce : s.aeadNonce.val = s'.aeadNonce.val :=
    region_eq h 64 12 (by simp [aadRegion]) (by simp [aadRegion]) s.aeadNonce.property
      s'.aeadNonce.property (by decide)
  have hcred := fido2CredId_eq h hversion hs hs'
  have hsalt := fido2HmacSalt_eq h hversion hs hs'
  cases s'
  simp only at hkind heq huuid hparams hkdfSalt hnonce hcred hsalt ⊢
  rw [hkind, heq, Subtype.ext huuid, hparams, Subtype.ext hkdfSalt, Subtype.ext hnonce, hcred,
    hsalt]

/-! ## Opening -/

/-- A slot that a constructor has wrapped under the key. -/
def WrappedUnder (c : Crypto) (suite : CipherSuite) (kek mvk : Key) (headerSalt : Bytes 32)
    (t : Keyslot) : Prop :=
  ∃ (base : Keyslot) (kind : SlotKind) (params : Argon2idParams) (kdfSalt : Bytes 32),
    base.Fresh kind params kdfSalt ∧ base.wrapMvk c suite kek mvk headerSalt = .ok t

variable {c : Crypto} {suite : CipherSuite} {kek mvk : Key} {t : Keyslot}

theorem Fresh.shaped {kind : SlotKind} {params : Argon2idParams} {kdfSalt : Bytes 32}
    (hf : s.Fresh kind params kdfSalt) : s.Shaped where
  cred := by
    rw [hf.version]
    exact hf.cred
  salt := by
    rw [hf.kindEq]
    exact hf.salt

/-- What the wrap of a slot sealed, in terms of the slot. -/
theorem WrappedUnder.sealed (ht : t.WrappedUnder c suite kek mvk headerSalt) :
    t.Shaped ∧ t.aadVersion = aadVersionV4
      ∧ c.aeadSeal suite kek t.aeadNonce (t.buildAeadAad headerSalt) mvk.val
        = some (t.wrappedCt.val ++ t.wrappedTag.val) := by
  obtain ⟨base, kind, params, kdfSalt, hf, hwrap⟩ := ht
  have hft := hf.wrap hwrap
  obtain ⟨ct, tag, rfl, hseal⟩ := wrapMvk_ok hwrap
  exact ⟨hft.shaped, hft.version, hseal⟩

/-- A parsed slot with the AAD of a wrapped one that holds the same ciphertext is
that slot. -/
theorem WrappedUnder.eq_of_seal (ht : t.WrappedUnder c suite kek mvk headerSalt)
    (hs' : s'.WellFormed) (haad : t.buildAeadAad headerSalt = s'.buildAeadAad headerSalt)
    (hseal : c.aeadSeal suite kek s'.aeadNonce (s'.buildAeadAad headerSalt) mvk.val
      = some (s'.wrappedCt.val ++ s'.wrappedTag.val)) : s' = t := by
  obtain ⟨hshaped, hversion, hsealed⟩ := ht.sealed
  have heq := eq_of_aad_eq haad (by rw [hversion]; decide) hshaped hs'.shaped
  have hnonce : s'.aeadNonce = t.aeadNonce := by rw [heq]
  rw [← haad, hnonce, hsealed] at hseal
  have hct := List.append_inj (Option.some.inj hseal)
    (by rw [t.wrappedCt.property, s'.wrappedCt.property])
  rw [heq, ← Subtype.ext hct.1, ← Subtype.ext hct.2]

end Keyslot

/-- The AEAD opens under the key only what is in the log of what was sealed
under it: nonce, AAD and plaintext. -/
def OpensOnly (c : Crypto) (suite : CipherSuite) (kek : Key)
    (log : List (Bytes 12 × List UInt8 × List UInt8)) : Prop :=
  ∀ nonce aad ct pt, c.aeadOpen suite kek nonce aad ct = some pt →
    (nonce, aad, pt) ∈ log ∧ c.aeadSeal suite kek nonce aad pt = some ct

namespace NewSlot

variable {c : Crypto} {suite : CipherSuite} {headerSalt : Bytes 32} {mvk kek : Key} {rng : SlotRng}
  {call : NewSlot} {s s' t : Keyslot}

/-- The slots a call has wrapped when it returns one. -/
def wrapped (c : Crypto) (suite : CipherSuite) (headerSalt : Bytes 32) (mvk : Key) (rng : SlotRng)
    (call : NewSlot) (s : Keyslot) : List Keyslot :=
  (call.discarded c suite headerSalt mvk rng).toList ++ [s]

/-- What a call has sealed under its key. -/
def sealLog (c : Crypto) (suite : CipherSuite) (headerSalt : Bytes 32) (mvk : Key) (rng : SlotRng)
    (call : NewSlot) (s : Keyslot) : List (Bytes 12 × List UInt8 × List UInt8) :=
  (call.wrapped c suite headerSalt mvk rng s).map fun t =>
    (t.aeadNonce, t.buildAeadAad headerSalt, mvk.val)

theorem toOption_some {α : Type} {x : Except Error α} {a : α} (h : x.toOption = some a) :
    x = .ok a := by
  cases x with
  | error e => cases h
  | ok b => exact congrArg Except.ok (Option.some.inj h)

theorem discarded_wrappedUnder (h : call.discarded c suite headerSalt mvk rng = some t)
    (hkek : call.kek c headerSalt rng.kdfSalt = .ok kek) :
    t.WrappedUnder c suite kek mvk headerSalt := by
  cases call with
  | hybridPq1024Tpm2 k pq blob =>
      cases hkek
      obtain ⟨base, hf, hwrap⟩ := buildTpm2_ok (toOption_some h) rfl
      exact ⟨base, _, _, _, hf, hwrap⟩
  | hybridPq1024Tpm2Fido2 tpm hs pq blob cred salt =>
      cases hkek
      obtain ⟨base, hf, hwrap⟩ := buildTpm2Fido2_ok (toOption_some h) rfl
      exact ⟨base, _, _, _, hf, hwrap⟩
  | _ => cases h

theorem wrapped_wrappedUnder (h : call.build c suite headerSalt mvk rng = .ok s)
    (hw : call.wraps = true) (hkek : call.kek c headerSalt rng.kdfSalt = .ok kek)
    (ht : t ∈ call.wrapped c suite headerSalt mvk rng s) :
    t.WrappedUnder c suite kek mvk headerSalt := by
  rcases List.mem_append.mp ht with ht | ht
  · exact discarded_wrappedUnder (Option.mem_toList.mp ht) hkek
  · rw [List.mem_singleton] at ht
    obtain ⟨kek', base, hb⟩ := build_spec h hw
    have hsame : kek = kek' := Except.ok.inj (hkek.symm.trans hb.kekEq)
    rw [ht, hsame]
    exact ⟨base, _, _, _, hb.fresh, hb.wrap⟩

/-- Under the key of a created slot only slots open that the call has wrapped. -/
theorem opens_wrapped (h : call.build c suite headerSalt mvk rng = .ok s)
    (hw : call.wraps = true) (hkek : call.kek c headerSalt rng.kdfSalt = .ok kek)
    (hopens : OpensOnly c suite kek (call.sealLog c suite headerSalt mvk rng s))
    (hs' : s'.WellFormed) {m : Key} (hun : s'.unwrapMvk c suite kek headerSalt = .ok m) :
    s' ∈ call.wrapped c suite headerSalt mvk rng s := by
  unfold Keyslot.unwrapMvk at hun
  split at hun
  · cases hun
  next pt hopen =>
    obtain ⟨hlog, hseal⟩ := hopens _ _ _ _ hopen
    obtain ⟨t, ht, heq⟩ := List.mem_map.mp hlog
    simp only [Prod.mk.injEq] at heq
    obtain ⟨-, haad, hpt⟩ := heq
    rw [← hpt] at hseal
    rw [(wrapped_wrappedUnder h hw hkek ht).eq_of_seal hs' haad hseal]
    exact ht

end NewSlot

/-- A slot that opens under the key of a created slot is that slot, or the one
the ML-KEM-1024 TPM constructors wrap first and drop; and the AAD determines
every field but the wrapped key. -/
theorem tampered_slot_does_not_unlock :
    (∀ (c : Crypto) (suite : CipherSuite) (headerSalt : Bytes 32) (mvk kek m : Key) (rng : SlotRng)
        (call : NewSlot) (s s' : Keyslot) (b : Buf 512), call.wraps = true →
        call.build c suite headerSalt mvk rng = .ok s →
        call.kek c headerSalt rng.kdfSalt = .ok kek →
        OpensOnly c suite kek (call.sealLog c suite headerSalt mvk rng s) →
        Keyslot.fromBytes b = .ok s' → s'.unwrapMvk c suite kek headerSalt = .ok m →
          s' = s ∨ call.discarded c suite headerSalt mvk rng = some s')
      ∧ ∀ (headerSalt : Bytes 32) (b b' : Buf 512) (s s' : Keyslot),
          Keyslot.fromBytes b = .ok s → Keyslot.fromBytes b' = .ok s' →
          s.aadVersion ≥ aadVersionV2 → s'.aadVersion ≥ aadVersionV2 →
          s.buildAeadAad headerSalt = s'.buildAeadAad headerSalt →
            s' = { s with wrappedCt := s'.wrappedCt, wrappedTag := s'.wrappedTag } := by
  constructor
  · intro c suite headerSalt mvk kek m rng call s s' b hw hbuild hkek hopens hparse hun
    have hmem := NewSlot.opens_wrapped hbuild hw hkek hopens (Keyslot.fromBytes_wellFormed hparse) hun
    rcases List.mem_append.mp hmem with hd | hs
    · exact Or.inr (Option.mem_toList.mp hd)
    · exact Or.inl (List.mem_singleton.mp hs)
  · intro headerSalt b b' s s' hs hs' hv _ haad
    exact Keyslot.eq_of_aad_eq haad hv (Keyslot.fromBytes_wellFormed hs).shaped
      (Keyslot.fromBytes_wellFormed hs').shaped

/-! ## Concrete inputs -/

/-- The primitives of `plainCrypto`, but only what is in the log opens. -/
def recordingCrypto (log : List (Bytes 12 × List UInt8 × List UInt8)) : Crypto where
  argon2id := plainCrypto.argon2id
  hkdf := plainCrypto.hkdf
  aeadSeal := plainCrypto.aeadSeal
  aeadOpen _ key nonce aad ct :=
    if ct.drop (ct.length - 16) = key.val.take 16 ∧ (nonce, aad, ct.take (ct.length - 16)) ∈ log then
      some (ct.take (ct.length - 16))
    else none
  hmac := plainCrypto.hmac

theorem recordingCrypto_opensOnly (log : List (Bytes 12 × List UInt8 × List UInt8))
    (suite : CipherSuite) (kek : Key) : OpensOnly (recordingCrypto log) suite kek log := by
  intro nonce aad ct pt h
  unfold recordingCrypto at h
  simp only at h
  split at h
  next hcond =>
    cases h
    refine ⟨hcond.2, ?_⟩
    show some (ct.take (ct.length - 16) ++ kek.val.take 16) = some ct
    rw [← hcond.1, List.take_append_drop]
  · cases h

/-- The slot after a wrap with the seal of `plainCrypto`. -/
def plainWrapped (base : Keyslot) (kek mvk : Key) : Keyslot :=
  { base with
    wrappedCt := mvk
    wrappedTag := ⟨kek.val.take 16, by rw [List.length_take, kek.property]; rfl⟩ }

theorem wrapMvk_recording (log : List (Bytes 12 × List UInt8 × List UInt8)) (base : Keyslot)
    (suite : CipherSuite) (kek mvk : Key) (headerSalt : Bytes 32) :
    base.wrapMvk (recordingCrypto log) suite kek mvk headerSalt
      = .ok (plainWrapped base kek mvk) := by
  have hlen : (mvk.val ++ kek.val.take 16).length = 32 + 16 := by
    rw [List.length_append, List.length_take, mvk.property, kek.property]
    rfl
  unfold Keyslot.wrapMvk plainWrapped
  show dite _ _ _ = _
  rw [dif_pos hlen]
  simp only [List.take_left' mvk.property, List.drop_left' mvk.property]

theorem unwrapMvk_recording {log : List (Bytes 12 × List UInt8 × List UInt8)} {base : Keyslot}
    {kek mvk : Key} {headerSalt : Bytes 32}
    (hlog : (base.aeadNonce, base.buildAeadAad headerSalt, mvk.val) ∈ log) (suite : CipherSuite) :
    (plainWrapped base kek mvk).unwrapMvk (recordingCrypto log) suite kek headerSalt = .ok mvk := by
  have hlen : (mvk.val ++ kek.val.take 16).length - 16 = 32 := by
    rw [List.length_append, List.length_take, mvk.property, kek.property]
    rfl
  have hopen : (recordingCrypto log).aeadOpen suite kek (plainWrapped base kek mvk).aeadNonce
      ((plainWrapped base kek mvk).buildAeadAad headerSalt)
      ((plainWrapped base kek mvk).wrappedCt.val ++ (plainWrapped base kek mvk).wrappedTag.val)
      = some mvk.val := by
    show (recordingCrypto log).aeadOpen suite kek base.aeadNonce (base.buildAeadAad headerSalt)
      (mvk.val ++ kek.val.take 16) = some mvk.val
    unfold recordingCrypto
    simp only [hlen, List.take_left' mvk.property, List.drop_left' mvk.property]
    exact if_pos ⟨trivial, hlog⟩
  unfold Keyslot.unwrapMvk
  rw [hopen]
  exact dif_pos mvk.property

section Sample

def pqCall : NewSlot := .hybridPq1024Tpm2 (firstBytes 32 [3]) (firstBytes 32 [4]) [8, 8]

def pqKek : Key := plainCrypto.deriveHybridTpm2Kek (firstBytes 32 [3]) (firstBytes 32 [4]) (Bytes.zero 32)

def pqFirstBase : Keyslot :=
  Keyslot.blank .hybridPqKemTpm2 sampleRng Argon2idParams.none [8, 8] (Bytes.zero 32)

def pqSecondBase : Keyslot :=
  { pqFirstBase with kind := .hybridPqKem1024Tpm2, aeadNonce := sampleRng.renewedNonce }

/-- What the two wraps of the call seal. -/
def pqLog : List (Bytes 12 × List UInt8 × List UInt8) :=
  [ (pqFirstBase.aeadNonce, pqFirstBase.buildAeadAad (Bytes.zero 32), sampleMvk.val),
    (pqSecondBase.aeadNonce, pqSecondBase.buildAeadAad (Bytes.zero 32), sampleMvk.val) ]

theorem pqCall_first :
    Keyslot.newHybridPqTpm2 (recordingCrypto pqLog) .aes256Gcm sampleMvk (Bytes.zero 32) sampleRng
        (firstBytes 32 [3]) (firstBytes 32 [4]) [8, 8]
      = .ok (plainWrapped pqFirstBase pqKek sampleMvk) := by
  unfold Keyslot.newHybridPqTpm2 Keyslot.buildTpm2
  rw [if_neg (by decide)]
  exact wrapMvk_recording _ _ _ _ _ _

theorem pqCall_build :
    pqCall.build (recordingCrypto pqLog) .aes256Gcm (Bytes.zero 32) sampleMvk sampleRng
      = .ok (plainWrapped pqSecondBase pqKek sampleMvk) := by
  show Keyslot.newHybridPq1024Tpm2 _ _ _ _ _ _ _ _ = _
  unfold Keyslot.newHybridPq1024Tpm2
  rw [pqCall_first, ok_bind]
  unfold Keyslot.rewrapAs
  rw [wrapMvk_recording]
  rfl

theorem pqCall_discarded :
    pqCall.discarded (recordingCrypto pqLog) .aes256Gcm (Bytes.zero 32) sampleMvk sampleRng
      = some (plainWrapped pqFirstBase pqKek sampleMvk) := by
  unfold pqCall NewSlot.discarded
  simp only [pqCall_first]
  rfl

theorem pqCall_sealLog :
    pqCall.sealLog (recordingCrypto pqLog) .aes256Gcm (Bytes.zero 32) sampleMvk sampleRng
      (plainWrapped pqSecondBase pqKek sampleMvk) = pqLog := by
  unfold NewSlot.sealLog NewSlot.wrapped
  rw [pqCall_discarded]
  rfl

theorem pqFirst_parsed :
    Keyslot.fromBytes ((plainWrapped pqFirstBase pqKek sampleMvk).toBytes fun _ => 0)
      = .ok (plainWrapped pqFirstBase pqKek sampleMvk) := by
  refine Keyslot.fromBytes_toBytes (Or.inr ⟨?_, ?_, ?_, ?_, fun _ => rfl, fun _ h => ?_⟩) _
  · decide
  · decide
  · decide
  · decide
  · cases h

/-- The slot that the ML-KEM-1024 TPM constructor wraps first is parsed and opens
under the key of the slot it returns, and is another slot. -/
theorem discarded_slot_unlocks :
    pqCall.wraps = true
      ∧ pqCall.build (recordingCrypto pqLog) .aes256Gcm (Bytes.zero 32) sampleMvk sampleRng
          = .ok (plainWrapped pqSecondBase pqKek sampleMvk)
      ∧ pqCall.kek (recordingCrypto pqLog) (Bytes.zero 32) sampleRng.kdfSalt = .ok pqKek
      ∧ OpensOnly (recordingCrypto pqLog) .aes256Gcm pqKek
          (pqCall.sealLog (recordingCrypto pqLog) .aes256Gcm (Bytes.zero 32) sampleMvk sampleRng
            (plainWrapped pqSecondBase pqKek sampleMvk))
      ∧ Keyslot.fromBytes ((plainWrapped pqFirstBase pqKek sampleMvk).toBytes fun _ => 0)
          = .ok (plainWrapped pqFirstBase pqKek sampleMvk)
      ∧ (plainWrapped pqFirstBase pqKek sampleMvk).unwrapMvk (recordingCrypto pqLog) .aes256Gcm pqKek
          (Bytes.zero 32) = .ok sampleMvk
      ∧ plainWrapped pqFirstBase pqKek sampleMvk ≠ plainWrapped pqSecondBase pqKek sampleMvk := by
  refine ⟨rfl, pqCall_build, rfl, ?_, pqFirst_parsed, ?_, ?_⟩
  · rw [pqCall_sealLog]
    exact recordingCrypto_opensOnly _ _ _
  · exact unwrapMvk_recording List.mem_cons_self _
  · intro h
    cases congrArg Keyslot.kind h

theorem tampered_slot_does_not_unlock_pq :
    plainWrapped pqFirstBase pqKek sampleMvk = plainWrapped pqSecondBase pqKek sampleMvk
      ∨ pqCall.discarded (recordingCrypto pqLog) .aes256Gcm (Bytes.zero 32) sampleMvk sampleRng
        = some (plainWrapped pqFirstBase pqKek sampleMvk) := by
  have hopens : OpensOnly (recordingCrypto pqLog) .aes256Gcm pqKek
      (pqCall.sealLog (recordingCrypto pqLog) .aes256Gcm (Bytes.zero 32) sampleMvk sampleRng
        (plainWrapped pqSecondBase pqKek sampleMvk)) := by
    rw [pqCall_sealLog]
    exact recordingCrypto_opensOnly _ _ _
  exact tampered_slot_does_not_unlock.1 _ _ _ _ pqKek sampleMvk _ pqCall _ _ _ rfl pqCall_build rfl
    hopens pqFirst_parsed (unwrapMvk_recording List.mem_cons_self _)

end Sample

end Luksbox.Core
