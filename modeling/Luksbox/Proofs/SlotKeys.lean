import Luksbox.Proofs.HeaderCodec

/-!
# Created keyslots can be unlocked

`NewSlot.build_spec` says once what a successful constructor has done: it derived
a key (`kek`), filled in a slot of its kind (`Fresh`), and wrapped the master
volume key in it. The unlock function of the kind derives the same key from the
slot (`unlock_eq`), and since the AAD does not depend on the wrapped key, opening
inverts the wrap.

What the constructors do not look at are the Argon2id parameters. The parser
refuses those outside `is_sane_for_disk`, so a slot comes back from disk exactly
if its parameters are inside.
-/

namespace Luksbox.Core

open Lib

/-- Opening gives back what was sealed under the same key, nonce and AAD, and a
ciphertext is longer than its plaintext by the tag. -/
structure Crypto.OpensSealed (c : Crypto) : Prop where
  open_seal : ∀ {suite key nonce aad pt ct},
    c.aeadSeal suite key nonce aad pt = some ct → c.aeadOpen suite key nonce aad ct = some pt

namespace Keyslot

variable {c : Crypto} {suite : CipherSuite} {kek mvk : Key} {headerSalt : Bytes 32}
  {s base : Keyslot}

/-! ## Wrapping -/

/-- The wrap only sets the wrapped key. -/
theorem wrapMvk_ok (h : base.wrapMvk c suite kek mvk headerSalt = .ok s) :
    ∃ ct tag, s = { base with wrappedCt := ct, wrappedTag := tag }
      ∧ c.aeadSeal suite kek base.aeadNonce (base.buildAeadAad headerSalt) mvk.val
        = some (ct.val ++ tag.val) := by
  unfold wrapMvk at h
  split at h
  · cases h
  next ct hseal =>
    split at h
    next hlen =>
      cases h
      refine ⟨_, _, rfl, ?_⟩
      rw [hseal, List.take_append_drop]
    · cases h

theorem buildAeadAad_wrapped (ct : Bytes 32) (tag : Bytes 16) :
    { base with wrappedCt := ct, wrappedTag := tag }.buildAeadAad headerSalt
      = base.buildAeadAad headerSalt := rfl

theorem unwrapMvk_wrapMvk (hc : c.OpensSealed)
    (h : base.wrapMvk c suite kek mvk headerSalt = .ok s) :
    s.unwrapMvk c suite kek headerSalt = .ok mvk := by
  obtain ⟨ct, tag, rfl, hseal⟩ := wrapMvk_ok h
  unfold unwrapMvk
  rw [buildAeadAad_wrapped]
  simp only [hc.open_seal hseal]
  rw [dif_pos mvk.property]

/-- A slot as a constructor leaves it, apart from the parameters. -/
structure Fresh (s : Keyslot) (kind : SlotKind) (params : Argon2idParams) (kdfSalt : Bytes 32) :
    Prop where
  kindEq : s.kind = kind
  version : s.aadVersion = aadVersionV4
  paramsEq : s.kdfParams = params
  kdfSaltEq : s.kdfSalt = kdfSalt
  cred : s.fido2CredId.length ≤ fido2CredIdMax
  salt : kind.hasInlineHmacSalt = false → s.fido2HmacSalt = Bytes.zero 32
  noCred : kind.hasInlineHmacSalt = false → kind.holdsTpmBlob = false → s.fido2CredId = []

variable {kind : SlotKind} {params : Argon2idParams} {kdfSalt : Bytes 32}

theorem Fresh.wrap (hf : base.Fresh kind params kdfSalt)
    (h : base.wrapMvk c suite kek mvk headerSalt = .ok s) : s.Fresh kind params kdfSalt := by
  obtain ⟨ct, tag, rfl, -⟩ := wrapMvk_ok h
  exact ⟨hf.kindEq, hf.version, hf.paramsEq, hf.kdfSaltEq, hf.cred, hf.salt, hf.noCred⟩

theorem Fresh.sound_iff (hf : s.Fresh kind params kdfSalt) (hkind : kind ≠ .empty) :
    s.Sound ↔ (kind.runsArgon2 = true → params.isSaneForDisk = true) := by
  constructor
  · intro hs hruns
    have h := hs.params
    rw [hf.kindEq, hf.paramsEq] at h
    exact h hruns
  · intro hsane
    refine ⟨?_, ?_, ?_, ?_, ?_, ?_⟩
    · rw [hf.kindEq]
      exact hkind
    · rw [hf.version]
      exact UInt8.le_refl _
    · rw [hf.version]
      exact hf.cred
    · rw [hf.kindEq, hf.paramsEq]
      exact hsane
    · rw [hf.kindEq]
      exact hf.salt
    · rw [hf.kindEq]
      exact hf.noCred

theorem blank_fresh {rng : SlotRng} {cred : List UInt8} {salt : Bytes 32}
    (hcred : cred.length ≤ fido2CredIdMax)
    (hsalt : kind.hasInlineHmacSalt = false → salt = Bytes.zero 32)
    (hno : kind.hasInlineHmacSalt = false → kind.holdsTpmBlob = false → cred = []) :
    (blank kind rng params cred salt).Fresh kind params rng.kdfSalt :=
  ⟨rfl, rfl, rfl, rfl, hcred, hsalt, hno⟩

end Keyslot

/-! ## The constructors -/

namespace NewSlot

/-- The kind of the slot a call creates. -/
def kind : NewSlot → SlotKind
  | .passphrase .. => .passphrase
  | .fido2 .. => .fido2HmacSecret
  | .fido2DerivedMvk .. => .fido2DerivedMvk
  | .tpm2 .. => .tpm2Sealed
  | .tpm2Pin .. => .tpm2SealedPin
  | .tpm2Fido2 .. => .tpm2Fido2
  | .hybridPqPassphrase .. => .hybridPqKemPassphrase
  | .hybridPq1024Passphrase .. => .hybridPqKem1024Passphrase
  | .hybridPqFido2 .. => .hybridPqKemFido2
  | .hybridPq1024Fido2 .. => .hybridPqKem1024Fido2
  | .hybridPqTpm2 .. => .hybridPqKemTpm2
  | .hybridPq1024Tpm2 .. => .hybridPqKem1024Tpm2
  | .hybridPqTpm2Fido2 .. => .hybridPqKemTpm2Fido2
  | .hybridPq1024Tpm2Fido2 .. => .hybridPqKem1024Tpm2Fido2
  | .sep kind .. => kind

/-- The parameters a call stores. -/
def params : NewSlot → Argon2idParams
  | .passphrase _ params => params
  | .fido2 _ _ _ _ params => params
  | .hybridPqPassphrase _ _ params => params
  | .hybridPq1024Passphrase _ _ params => params
  | .hybridPqFido2 _ _ _ _ _ params => params
  | .hybridPq1024Fido2 _ _ _ _ _ params => params
  | .sep _ f params _ _ => if f.passphrase.isSome then params else Argon2idParams.none
  | _ => Argon2idParams.none

/-- Whether the call wraps a master volume key. -/
def wraps : NewSlot → Bool
  | .fido2DerivedMvk .. => false
  | _ => true

/-- The master volume key of a slot: the wrapped one, or the derived one. -/
def mvkOf (c : Crypto) (mvk : Key) : NewSlot → Key
  | .fido2DerivedMvk hmacSecret _ hmacSalt => c.deriveMvkFromFido2 hmacSalt hmacSecret
  | _ => mvk

/-- The key a call wraps under, for the salt it drew. -/
def kek (c : Crypto) (headerSalt : Bytes 32) (kdfSalt : Bytes 32) : NewSlot → Except Error Key
  | .passphrase pw params => c.deriveKek pw kdfSalt.val params
  | .fido2 pw hs _ _ params => c.deriveKekWithFido2 (pw.getD []) hs kdfSalt.val params
  | .fido2DerivedMvk .. => .error .invalidField
  | .tpm2 kek _ => .ok kek
  | .tpm2Pin kek _ => .ok kek
  | .tpm2Fido2 tpm hs _ _ _ => .ok (c.deriveTpm2Fido2Kek tpm hs headerSalt)
  | .hybridPqPassphrase pw pq params => c.deriveHybridKek pw pq kdfSalt.val params
  | .hybridPq1024Passphrase pw pq params => c.deriveHybridKek pw pq kdfSalt.val params
  | .hybridPqFido2 pw hs pq _ _ params =>
      c.deriveHybridFido2Kek (pw.getD []) hs pq kdfSalt.val params
  | .hybridPq1024Fido2 pw hs pq _ _ params =>
      c.deriveHybridFido2Kek (pw.getD []) hs pq kdfSalt.val params
  | .hybridPqTpm2 kek pq _ => .ok (c.deriveHybridTpm2Kek kek pq headerSalt)
  | .hybridPq1024Tpm2 kek pq _ => .ok (c.deriveHybridTpm2Kek kek pq headerSalt)
  | .hybridPqTpm2Fido2 tpm hs pq _ _ _ => .ok (c.deriveHybridTpm2Fido2Kek tpm hs pq headerSalt)
  | .hybridPq1024Tpm2Fido2 tpm hs pq _ _ _ => .ok (c.deriveHybridTpm2Fido2Kek tpm hs pq headerSalt)
  | .sep _ f params _ _ => f.kek c headerSalt kdfSalt.val params

/-- The slot that the two constructors which wrap twice wrap first. -/
def discarded (c : Crypto) (suite : CipherSuite) (headerSalt : Bytes 32) (mvk : Key)
    (rng : SlotRng) : NewSlot → Option Keyslot
  | .hybridPq1024Tpm2 kek pq blob =>
      (Keyslot.newHybridPqTpm2 c suite mvk headerSalt rng kek pq blob).toOption
  | .hybridPq1024Tpm2Fido2 tpm hs pq blob cred salt =>
      (Keyslot.newHybridPqTpm2Fido2 c suite mvk headerSalt rng tpm hs pq blob cred salt).toOption
  | _ => none

variable {c : Crypto} {suite : CipherSuite} {headerSalt : Bytes 32} {mvk : Key} {rng : SlotRng}
  {call : NewSlot} {s : Keyslot}

/-- What a call that wraps has done. -/
structure Built (c : Crypto) (suite : CipherSuite) (headerSalt : Bytes 32) (mvk : Key)
    (rng : SlotRng) (call : NewSlot) (s : Keyslot) (kek : Key) (base : Keyslot) : Prop where
  kekEq : call.kek c headerSalt rng.kdfSalt = .ok kek
  fresh : base.Fresh call.kind call.params rng.kdfSalt
  wrap : base.wrapMvk c suite kek mvk headerSalt = .ok s

theorem buildTpm2_ok {kind : SlotKind} {k : Key} {blob : List UInt8}
    (h : Keyslot.buildTpm2 c suite mvk headerSalt rng kind k blob = .ok s)
    (hkind : kind.holdsTpmBlob = true) :
    ∃ base : Keyslot, base.Fresh kind Argon2idParams.none rng.kdfSalt
      ∧ base.wrapMvk c suite k mvk headerSalt = .ok s := by
  unfold Keyslot.buildTpm2 at h
  obtain ⟨hlen, h⟩ := except_ite_eq_ok.mp h
  refine ⟨_, Keyslot.blank_fresh (Nat.not_lt.mp hlen) (fun _ => rfl) fun _ hno => ?_, h⟩
  rw [hkind] at hno
  cases hno

theorem buildTpm2Fido2_ok {kind : SlotKind} {k : Key} {blob cred : List UInt8} {salt : Bytes 32}
    (h : Keyslot.buildTpm2Fido2 c suite mvk headerSalt rng kind k blob cred salt = .ok s)
    (hkind : kind.hasInlineHmacSalt = true) :
    ∃ base : Keyslot, base.Fresh kind Argon2idParams.none rng.kdfSalt
      ∧ base.wrapMvk c suite k mvk headerSalt = .ok s := by
  unfold Keyslot.buildTpm2Fido2 at h
  obtain ⟨hlen, h⟩ := except_ite_eq_ok.mp h
  obtain ⟨-, h⟩ := except_ite_eq_ok.mp h
  refine ⟨_, Keyslot.blank_fresh ?_ (fun hno => ?_) fun hno => ?_, h⟩
  · unfold Keyslot.packPair
    rw [List.length_append, List.length_append, leBytes_length]
    exact Nat.not_lt.mp hlen
  · rw [hkind] at hno
    cases hno
  · rw [hkind] at hno
    cases hno

/-- The second wrap of the ML-KEM-1024 constructors keeps the fields. -/
theorem rewrapAs_ok {kind kind' : SlotKind} {k : Key} {params : Argon2idParams} {t : Keyslot}
    (h : Keyslot.rewrapAs c suite mvk headerSalt rng kind' k t = .ok s)
    (hf : t.Fresh kind params rng.kdfSalt)
    (hsalt : kind'.hasInlineHmacSalt = kind.hasInlineHmacSalt)
    (hblob : kind'.holdsTpmBlob = kind.holdsTpmBlob) :
    ∃ base : Keyslot, base.Fresh kind' params rng.kdfSalt
      ∧ base.wrapMvk c suite k mvk headerSalt = .ok s := by
  unfold Keyslot.rewrapAs at h
  refine ⟨_, ?_, h⟩
  refine ⟨rfl, hf.version, hf.paramsEq, hf.kdfSaltEq, hf.cred, ?_, ?_⟩
  · rw [hsalt]
    exact hf.salt
  · rw [hsalt, hblob]
    exact hf.noCred

theorem buildHybridPqPassphrase_ok {kind : SlotKind} {pw : List UInt8} {pq : Key}
    {params : Argon2idParams}
    (h : Keyslot.buildHybridPqPassphrase c suite mvk headerSalt rng kind pw pq params = .ok s) :
    ∃ (kek : Key) (base : Keyslot), c.deriveHybridKek pw pq rng.kdfSalt.val params = .ok kek
      ∧ base.Fresh kind params rng.kdfSalt ∧ base.wrapMvk c suite kek mvk headerSalt = .ok s := by
  unfold Keyslot.buildHybridPqPassphrase at h
  obtain ⟨kek, hkek, h⟩ := except_bind_eq_ok.mp h
  exact ⟨kek, _, hkek, Keyslot.blank_fresh (Nat.zero_le _) (fun _ => rfl) fun _ _ => rfl, h⟩

theorem buildHybridPqFido2_ok {kind : SlotKind} {pw : Option (List UInt8)} {hs pq : Key}
    {cred : List UInt8} {salt : Bytes 32} {params : Argon2idParams}
    (h : Keyslot.buildHybridPqFido2 c suite mvk headerSalt rng kind pw hs pq cred salt params
      = .ok s) (hkind : kind.hasInlineHmacSalt = true) :
    ∃ (kek : Key) (base : Keyslot), c.deriveHybridFido2Kek (pw.getD []) hs pq rng.kdfSalt.val params = .ok kek
      ∧ base.Fresh kind params rng.kdfSalt ∧ base.wrapMvk c suite kek mvk headerSalt = .ok s := by
  unfold Keyslot.buildHybridPqFido2 at h
  obtain ⟨hlen, h⟩ := except_ite_eq_ok.mp h
  obtain ⟨kek, hkek, h⟩ := except_bind_eq_ok.mp h
  refine ⟨kek, _, hkek, Keyslot.blank_fresh (Nat.not_lt.mp hlen) (fun hno => ?_) fun hno => ?_, h⟩
  · rw [hkind] at hno
    cases hno
  · rw [hkind] at hno
    cases hno

theorem checkSepCred_ok {kind : SlotKind} {cred : List UInt8}
    (h : Keyslot.checkSepCred kind cred = .ok ()) :
    cred.length ≤ fido2CredIdMax ∧ (kind.isSepFido2 = false → cred = []) := by
  unfold Keyslot.checkSepCred at h
  split at h
  next hkind =>
    obtain ⟨hlen, -⟩ := except_ite_eq_ok.mp h
    refine ⟨by omega, fun hno => ?_⟩
    rw [hkind] at hno
    cases hno
  next hkind =>
    obtain ⟨hcred, -⟩ := except_ite_eq_ok.mp h
    rw [not_not] at hcred
    rw [hcred]
    exact ⟨Nat.zero_le _, fun _ => rfl⟩

theorem isSepFido2_inline {kind : SlotKind} (h : kind.isSepFido2 = true) :
    kind.hasInlineHmacSalt = true := by
  unfold SlotKind.hasInlineHmacSalt
  rw [h, Bool.or_true]

/-- What every constructor that wraps has done when it returns a slot. -/
theorem build_spec (h : call.build c suite headerSalt mvk rng = .ok s) (hw : call.wraps = true) :
    ∃ kek base, Built c suite headerSalt mvk rng call s kek base := by
  cases call with
  | passphrase pw params =>
      obtain ⟨kek, hkek, h⟩ := except_bind_eq_ok.mp h
      exact ⟨kek, _, hkek, Keyslot.blank_fresh (Nat.zero_le _) (fun _ => rfl) fun _ _ => rfl, h⟩
  | fido2 pw hs cred salt params =>
      obtain ⟨hlen, h⟩ := except_ite_eq_ok.mp h
      obtain ⟨kek, hkek, h⟩ := except_bind_eq_ok.mp h
      refine ⟨kek, _, hkek, Keyslot.blank_fresh (Nat.not_lt.mp hlen) (fun hno => ?_)
        fun hno => ?_, h⟩
      · cases hno
      · cases hno
  | fido2DerivedMvk => cases hw
  | tpm2 k blob =>
      obtain ⟨base, hf, hwrap⟩ := buildTpm2_ok h rfl
      exact ⟨k, base, rfl, hf, hwrap⟩
  | tpm2Pin k blob =>
      obtain ⟨base, hf, hwrap⟩ := buildTpm2_ok h rfl
      exact ⟨k, base, rfl, hf, hwrap⟩
  | tpm2Fido2 tpm hs blob cred salt =>
      obtain ⟨base, hf, hwrap⟩ := buildTpm2Fido2_ok h rfl
      exact ⟨_, base, rfl, hf, hwrap⟩
  | hybridPqPassphrase pw pq params =>
      obtain ⟨kek, base, hkek, hf, hwrap⟩ := buildHybridPqPassphrase_ok h
      exact ⟨kek, base, hkek, hf, hwrap⟩
  | hybridPq1024Passphrase pw pq params =>
      obtain ⟨kek, base, hkek, hf, hwrap⟩ := buildHybridPqPassphrase_ok h
      exact ⟨kek, base, hkek, hf, hwrap⟩
  | hybridPqFido2 pw hs pq cred salt params =>
      obtain ⟨kek, base, hkek, hf, hwrap⟩ := buildHybridPqFido2_ok h rfl
      exact ⟨kek, base, hkek, hf, hwrap⟩
  | hybridPq1024Fido2 pw hs pq cred salt params =>
      obtain ⟨kek, base, hkek, hf, hwrap⟩ := buildHybridPqFido2_ok h rfl
      exact ⟨kek, base, hkek, hf, hwrap⟩
  | hybridPqTpm2 k pq blob =>
      obtain ⟨base, hf, hwrap⟩ := buildTpm2_ok h rfl
      exact ⟨_, base, rfl, hf, hwrap⟩
  | hybridPq1024Tpm2 k pq blob =>
      obtain ⟨t, ht, h⟩ := except_bind_eq_ok.mp h
      obtain ⟨base, hf, hwrap⟩ := buildTpm2_ok ht rfl
      obtain ⟨base', hf', hwrap'⟩ := rewrapAs_ok h (hf.wrap hwrap) rfl rfl
      exact ⟨_, base', rfl, hf', hwrap'⟩
  | hybridPqTpm2Fido2 tpm hs pq blob cred salt =>
      obtain ⟨base, hf, hwrap⟩ := buildTpm2Fido2_ok h rfl
      exact ⟨_, base, rfl, hf, hwrap⟩
  | hybridPq1024Tpm2Fido2 tpm hs pq blob cred salt =>
      obtain ⟨t, ht, h⟩ := except_bind_eq_ok.mp h
      obtain ⟨base, hf, hwrap⟩ := buildTpm2Fido2_ok ht rfl
      obtain ⟨base', hf', hwrap'⟩ := rewrapAs_ok h (hf.wrap hwrap) rfl rfl
      exact ⟨_, base', rfl, hf', hwrap'⟩
  | sep kind f params cred salt =>
      obtain ⟨⟨⟩, hcheck, h⟩ := except_bind_eq_ok.mp h
      obtain ⟨⟨⟩, hcred, h⟩ := except_bind_eq_ok.mp h
      obtain ⟨kek, hkek, h⟩ := except_bind_eq_ok.mp h
      obtain ⟨hlen, hno⟩ := checkSepCred_ok hcred
      refine ⟨kek, _, hkek, Keyslot.blank_fresh ?_ (fun hinline => ?_) (fun hinline _ => ?_), h⟩
      · split
        · exact hlen
        · exact Nat.zero_le _
      · exact if_neg fun hf => Bool.false_ne_true (hinline.symm.trans (isSepFido2_inline hf))
      · exact if_neg fun hf => Bool.false_ne_true (hinline.symm.trans (isSepFido2_inline hf))

theorem build_derived {hs : Key} {cred : List UInt8} {salt : Bytes 32}
    (h : (NewSlot.fido2DerivedMvk hs cred salt).build c suite headerSalt mvk rng = .ok s) :
    s.Fresh .fido2DerivedMvk Argon2idParams.none rng.kdfSalt ∧ s.fido2HmacSalt = salt := by
  obtain ⟨hlen, h⟩ := except_ite_eq_ok.mp h
  cases h
  refine ⟨⟨rfl, rfl, rfl, rfl, Nat.not_lt.mp hlen, fun hno => ?_, fun hno => ?_⟩, rfl⟩
  · cases hno
  · cases hno

theorem build_fresh (h : call.build c suite headerSalt mvk rng = .ok s) :
    s.Fresh call.kind call.params rng.kdfSalt := by
  cases hw : call.wraps with
  | true =>
      obtain ⟨kek, base, hb⟩ := build_spec h hw
      exact hb.fresh.wrap hb.wrap
  | false =>
      cases call with
      | fido2DerivedMvk hs cred salt => exact (build_derived h).1
      | _ => cases hw

theorem sep_check (h : call.build c suite headerSalt mvk rng = .ok s) {kind : SlotKind}
    {f : Keyslot.SepFactors} {params : Argon2idParams} {cred : List UInt8} {salt : Bytes 32}
    (hcall : call = .sep kind f params cred salt) : f.check kind = .ok () := by
  subst hcall
  obtain ⟨⟨⟩, hcheck, -⟩ := except_bind_eq_ok.mp h
  exact hcheck

theorem kind_ne_empty (h : call.build c suite headerSalt mvk rng = .ok s) :
    call.kind ≠ .empty := by
  cases call with
  | sep kind f params cred salt =>
      have hcheck := sep_check h rfl
      rintro rfl
      obtain ⟨⟨⟩, hcheck, -⟩ := except_bind_eq_ok.mp hcheck
      cases hcheck
  | _ => exact fun h => by cases h

/-! ## Unlocking -/

/-- The unlock function derives the key of the call from the slot. -/
theorem unlock_eq (h : call.build c suite headerSalt mvk rng = .ok s) (hw : call.wraps = true) :
    call.unlock c suite headerSalt s
      = (call.kek c headerSalt rng.kdfSalt >>= fun kek => s.unwrapMvk c suite kek headerSalt) := by
  have hf := build_fresh h
  have hkind := hf.kindEq
  have hsalt := hf.kdfSaltEq
  have hparams := hf.paramsEq
  cases call with
  | sep kind f params cred salt =>
      have hcheck := sep_check h rfl
      have hkek : f.kek c headerSalt s.kdfSalt.val s.kdfParams
          = f.kek c headerSalt rng.kdfSalt.val params := by
        have hstored : (NewSlot.sep kind f params cred salt).params
            = if f.passphrase.isSome then params else Argon2idParams.none := rfl
        rw [hsalt, hparams, hstored]
        unfold Keyslot.SepFactors.kek
        cases f.passphrase with
        | none => rfl
        | some pw => rfl
      show s.unlockSep c suite headerSalt f = _
      unfold Keyslot.unlockSep
      rw [hkind, hkek]
      simp only [NewSlot.kind, hcheck, ok_bind, NewSlot.kek]
  | fido2DerivedMvk => cases hw
  | passphrase pw params =>
      simp [unlock, Keyslot.unlockPassphrase, kek, hkind, hsalt, hparams, kind, NewSlot.params]
  | fido2 pw hs cred salt params =>
      simp [unlock, Keyslot.unlockFido2, kek, hkind, hsalt, hparams, kind, NewSlot.params]
  | tpm2 k blob => simp [unlock, Keyslot.unlockTpm2, kek, hkind, kind, ok_bind]
  | tpm2Pin k blob => simp [unlock, Keyslot.unlockTpm2, kek, hkind, kind, ok_bind]
  | tpm2Fido2 tpm hs blob cred salt =>
      simp [unlock, Keyslot.unlockTpm2Fido2, kek, hkind, kind, ok_bind]
  | hybridPqPassphrase pw pq params =>
      simp [unlock, Keyslot.unlockHybridPqPassphrase, SlotKind.isHybridPqPassphrase, kek, hkind,
        hsalt, hparams, kind, NewSlot.params]
  | hybridPq1024Passphrase pw pq params =>
      simp [unlock, Keyslot.unlockHybridPqPassphrase, SlotKind.isHybridPqPassphrase, kek, hkind,
        hsalt, hparams, kind, NewSlot.params]
  | hybridPqFido2 pw hs pq cred salt params =>
      simp [unlock, Keyslot.unlockHybridPqFido2, SlotKind.isHybridPqFido2, kek, hkind, hsalt,
        hparams, kind, NewSlot.params]
  | hybridPq1024Fido2 pw hs pq cred salt params =>
      simp [unlock, Keyslot.unlockHybridPqFido2, SlotKind.isHybridPqFido2, kek, hkind, hsalt,
        hparams, kind, NewSlot.params]
  | hybridPqTpm2 k pq blob => simp [unlock, Keyslot.unlockHybridPqTpm2, kek, hkind, kind, ok_bind]
  | hybridPq1024Tpm2 k pq blob =>
      simp [unlock, Keyslot.unlockHybridPqTpm2, kek, hkind, kind, ok_bind]
  | hybridPqTpm2Fido2 tpm hs pq blob cred salt =>
      simp [unlock, Keyslot.unlockHybridPqTpm2Fido2, kek, hkind, kind, ok_bind]
  | hybridPq1024Tpm2Fido2 tpm hs pq blob cred salt =>
      simp [unlock, Keyslot.unlockHybridPqTpm2Fido2, kek, hkind, kind, ok_bind]

/-- The unlock function returns the master volume key. -/
theorem unlock_build (hc : c.OpensSealed) (h : call.build c suite headerSalt mvk rng = .ok s) :
    call.unlock c suite headerSalt s = .ok (call.mvkOf c mvk) := by
  cases hw : call.wraps with
  | true =>
      obtain ⟨kek, base, hb⟩ := build_spec h hw
      rw [unlock_eq h hw, hb.kekEq, ok_bind, Keyslot.unwrapMvk_wrapMvk hc hb.wrap]
      cases call with
      | fido2DerivedMvk => cases hw
      | _ => rfl
  | false =>
      cases call with
      | fido2DerivedMvk hs cred salt =>
          obtain ⟨hf, hsalt⟩ := build_derived h
          show s.unlockFido2DerivedMvk c hs = _
          unfold Keyslot.unlockFido2DerivedMvk
          rw [if_neg (not_not.mpr hf.kindEq), hsalt]
          rfl
      | _ => cases hw

/-- The parameters are ones the parser of the kind accepts. -/
def ParamsSane (call : NewSlot) : Prop :=
  call.kind.runsArgon2 = true → call.params.isSaneForDisk = true

instance (call : NewSlot) : Decidable call.ParamsSane :=
  inferInstanceAs (Decidable (_ → _))

theorem build_wellFormed_iff (h : call.build c suite headerSalt mvk rng = .ok s) :
    s.WellFormed ↔ call.ParamsSane := by
  have hf := build_fresh h
  have hsound := hf.sound_iff (kind_ne_empty h)
  constructor
  · rintro (hs | hs)
    · exact absurd (hf.kindEq.symm.trans (congrArg Keyslot.kind hs)) (kind_ne_empty h)
    · exact hsound.mp hs
  · exact fun hs => Or.inr (hsound.mpr hs)

/-- The parser gives a created slot back exactly if its parameters are sane. -/
theorem fromBytes_build_iff (h : call.build c suite headerSalt mvk rng = .ok s)
    (padding : Buf 512) :
    Keyslot.fromBytes (s.toBytes padding) = .ok s ↔ call.ParamsSane := by
  rw [← build_wellFormed_iff h]
  exact ⟨Keyslot.fromBytes_wellFormed, fun hs => Keyslot.fromBytes_toBytes hs padding⟩

end NewSlot

/-! ## A header of created slots -/

/-- A slot that is empty or comes from one of the constructors. -/
def Created (c : Crypto) (suite : CipherSuite) (headerSalt : Bytes 32) (mvk : Key) (s : Keyslot) :
    Option (NewSlot × SlotRng) → Prop
  | none => s = Keyslot.empty
  | some (call, rng) => call.build c suite headerSalt mvk rng = .ok s ∧ call.mvkOf c mvk = mvk

/-- What a header says apart from its slots. -/
structure Header.FieldsWellFormed (h : Header) : Prop where
  version : h.versionMajor = versionMajorV1 ∨ h.versionMajor = versionMajorV2
    ∨ h.versionMajor = versionMajorV3
  generation : h.hasHeaderGeneration = false → h.headerGeneration = 0
  chunkSize : ¬ (h.chunkSize < minChunkSize ∨ maxChunkSize < h.chunkSize)
  extents : h.extents.check = .ok ()
  noBlobs : h.hasSepRegion = false → h.sepBlobs = fun _ => none
  blobsFit : h.sepRegionRequiredLen ≤ sepRegionLen

theorem Header.FieldsWellFormed.wellFormed_iff {h : Header} (hf : h.FieldsWellFormed) :
    h.WellFormed ↔ ∀ i, (h.keyslots i).WellFormed :=
  ⟨fun hw => hw.slots, fun hs =>
    ⟨hf.version, hf.generation, hf.chunkSize, hf.extents, hs, hf.noBlobs, hf.blobsFit⟩⟩

theorem created_wellFormed_iff {c : Crypto} {suite : CipherSuite} {headerSalt : Bytes 32}
    {mvk : Key} {s : Keyslot} {o : Option (NewSlot × SlotRng)}
    (h : Created c suite headerSalt mvk s o) :
    s.WellFormed ↔ ∀ e ∈ o, e.1.ParamsSane := by
  cases o with
  | none =>
      have hs : s = Keyslot.empty := h
      exact ⟨fun _ _ he => absurd he (Option.not_mem_none _), fun _ => Or.inl hs⟩
  | some e =>
      have hs := NewSlot.build_wellFormed_iff h.1
      rw [hs]
      constructor
      · intro hsane e' he'
        cases he'
        exact hsane
      · exact fun hall => hall e rfl

/-- A created slot is read back from its bytes and unlocks with the factors it
was created with, and a header of such slots is parsed from its own bytes,
exactly if the Argon2id parameters of each are ones the parser accepts. -/
theorem created_slots_reopen_iff {c : Crypto} (hc : c.OpensSealed) (mvk : Key) :
    (∀ (call : NewSlot) (suite : CipherSuite) (headerSalt : Bytes 32) (rng : SlotRng)
        (s : Keyslot), call.build c suite headerSalt mvk rng = .ok s → ∀ padding,
          (∃ s', Keyslot.fromBytes (s.toBytes padding) = .ok s' ∧ s' = s
              ∧ call.unlock c suite headerSalt s' = .ok (call.mvkOf c mvk))
            ↔ call.ParamsSane)
      ∧ ∀ (h : Header) (calls : Fin 8 → Option (NewSlot × SlotRng)), h.FieldsWellFormed →
          (∀ i, Created c h.cipherSuite h.headerSalt mvk (h.keyslots i) (calls i)) → ∀ padding,
            ((∃ h', Header.fromBytes (h.toBytes c mvk padding) = .ok h' ∧ h' = h
                ∧ h'.verifyHmac c (h.toBytes c mvk padding) mvk = .ok ()
                ∧ ∀ i, ∀ e ∈ calls i,
                    e.1.unlock c h'.cipherSuite h'.headerSalt (h'.keyslots i) = .ok mvk)
              ↔ ∀ i, ∀ e ∈ calls i, e.1.ParamsSane) := by
  refine ⟨fun call suite headerSalt rng s hbuild padding => ?_, fun h calls hf hslots padding => ?_⟩
  · rw [← NewSlot.fromBytes_build_iff hbuild padding]
    constructor
    · rintro ⟨s', hok, rfl, -⟩
      exact hok
    · exact fun hok => ⟨s, hok, rfl, NewSlot.unlock_build hc hbuild⟩
  · have hiff : h.WellFormed ↔ ∀ i, ∀ e ∈ calls i, e.1.ParamsSane := by
      rw [hf.wellFormed_iff]
      exact forall_congr' fun i => created_wellFormed_iff (hslots i)
    rw [← hiff]
    constructor
    · rintro ⟨h', hok, rfl, -⟩
      exact Header.fromBytes_wellFormed hok
    · intro hw
      refine ⟨h, Header.fromBytes_toBytes hw c mvk padding, rfl,
        h.verifyHmac_toBytes c mvk padding, fun i e he => ?_⟩
      have hcreated := hslots i
      rw [Option.mem_def.mp he] at hcreated
      rw [NewSlot.unlock_build hc hcreated.1, hcreated.2]

/-! ## Concrete inputs -/

theorem plainCrypto_opensSealed : plainCrypto.OpensSealed where
  open_seal := by
    intro suite key nonce aad pt ct h
    have hct : pt ++ key.val.take 16 = ct := Option.some.inj h
    have hlen : (key.val.take 16).length = 16 := by
      rw [List.length_take, key.property]
      rfl
    subst hct
    show (if _ then _ else _) = _
    rw [List.length_append, hlen, Nat.add_sub_cancel, List.drop_left, List.take_left, if_pos rfl]

def sampleRng : SlotRng where
  uuid := Bytes.zero 16
  kdfSalt := firstBytes 32 [7]
  aeadNonce := firstBytes 12 [1]
  renewedNonce := firstBytes 12 [2]
  junkCt := Bytes.zero 32
  junkTag := Bytes.zero 16

def sampleMvk : Key := firstBytes 32 [42]

/-- A passphrase slot with the given number of iterations. -/
def sampleCall (tCost : UInt32) : NewSlot := .passphrase [112, 119] ⟨65536, tCost, 1⟩

theorem plainCrypto_wraps (base : Keyslot) (suite : CipherSuite) (kek mvk : Key)
    (headerSalt : Bytes 32) : ∃ s, base.wrapMvk plainCrypto suite kek mvk headerSalt = .ok s := by
  have hlen : (mvk.val ++ kek.val.take 16).length = 32 + 16 := by
    rw [List.length_append, List.length_take, mvk.property, kek.property]
    rfl
  unfold Keyslot.wrapMvk
  exact ⟨_, dif_pos hlen⟩

theorem sampleCall_builds (tCost : UInt32) (h : tCost ≥ 1) (suite : CipherSuite)
    (headerSalt : Bytes 32) :
    ∃ s, (sampleCall tCost).build plainCrypto suite headerSalt sampleMvk sampleRng = .ok s := by
  have hkek : plainCrypto.deriveKek [112, 119] sampleRng.kdfSalt.val ⟨65536, tCost, 1⟩
      = .ok (firstBytes 32 ([112, 119] ++ sampleRng.kdfSalt.val)) := by
    have hargon : plainCrypto.argon2id [112, 119] sampleRng.kdfSalt.val ⟨65536, tCost, 1⟩
        = some (firstBytes 32 ([112, 119] ++ sampleRng.kdfSalt.val)) :=
      if_pos ⟨show (65536 : UInt32) ≥ 8 * 1 by decide, h, show (1 : UInt32) ≥ 1 by decide⟩
    unfold Crypto.deriveKek
    rw [hargon]
  show ∃ s, Keyslot.newPassphrase plainCrypto suite sampleMvk headerSalt sampleRng _ _ = .ok s
  unfold Keyslot.newPassphrase
  rw [hkek, ok_bind]
  exact plainCrypto_wraps _ _ _ _ _

theorem created_slots_reopen_iff_three :
    plainCrypto.OpensSealed
      ∧ ∃ s, (sampleCall 3).build plainCrypto .aes256Gcm (Bytes.zero 32) sampleMvk sampleRng = .ok s
        ∧ ∃ s', Keyslot.fromBytes (s.toBytes fun _ => 0) = .ok s' ∧ s' = s
          ∧ (sampleCall 3).unlock plainCrypto .aes256Gcm (Bytes.zero 32) s' = .ok sampleMvk := by
  refine ⟨plainCrypto_opensSealed, ?_⟩
  obtain ⟨s, hs⟩ := sampleCall_builds 3 (by decide) .aes256Gcm (Bytes.zero 32)
  refine ⟨s, hs, ?_⟩
  exact ((created_slots_reopen_iff plainCrypto_opensSealed sampleMvk).1 _ _ _ _ s hs _).mpr
    (by decide)

/-- Seventeen iterations are accepted at creation and refused by the parser. -/
theorem seventeen_iterations_not_reopened :
    plainCrypto.OpensSealed
      ∧ ∃ s, (sampleCall 17).build plainCrypto .aes256Gcm (Bytes.zero 32) sampleMvk sampleRng = .ok s
        ∧ ∀ padding s', Keyslot.fromBytes (s.toBytes padding) ≠ .ok s' := by
  refine ⟨plainCrypto_opensSealed, ?_⟩
  obtain ⟨s, hs⟩ := sampleCall_builds 17 (by decide) .aes256Gcm (Bytes.zero 32)
  refine ⟨s, hs, fun padding s' hok => ?_⟩
  have hf := NewSlot.build_fresh hs
  have hsane := Keyslot.params_of_fromBytes_toBytes hok (by rw [hf.kindEq]; decide)
    (by rw [hf.kindEq]; decide)
  rw [hf.paramsEq] at hsane
  exact absurd hsane (by decide)

end Luksbox.Core
