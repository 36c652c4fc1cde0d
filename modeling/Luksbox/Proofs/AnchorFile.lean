import Luksbox.Model.AnchorFile
import Luksbox.Proofs.SeedFile
import Luksbox.Proofs.SlotKeys

/-!
# What an anchor file vouches for

A reader of the standard format accepts exactly the files that the writer makes,
one for every pair of generations (`readAndVerify_ok`). A deniable anchor is
taken apart into what its box holds, and the box into its fields.
-/

namespace Luksbox.Anchor

open Lib Luksbox.Core
open Pq (Files CommitFault SealsWithTag)

/-! ## The fields -/

theorem toLeBytes_length {v : UInt64} : (toLeBytes v).length = 8 := leBytes_length 8 v.toNat

theorem ofNat_leNat_toLeBytes {v : UInt64} : UInt64.ofNat (leNat (toLeBytes v)) = v := by
  unfold toLeBytes
  rw [leNat_leBytes_of_lt v.toNat_lt, UInt64.ofNat_toNat]

theorem toLeBytes_ofNat {l : List UInt8} (h : l.length = 8) :
    toLeBytes (UInt64.ofNat (leNat l)) = l := by
  have hlt := leNat_lt l
  rw [h] at hlt
  unfold toLeBytes
  rw [UInt64.toNat_ofNat_of_lt' hlt, ← h, leBytes_leNat]

theorem readU64_ok {buf : List UInt8} {off : Nat} {v : UInt64} :
    readU64 buf off = .ok v ↔ HasAt buf off (toLeBytes v) := by
  unfold readU64
  rw [except_bind_eq_ok]
  constructor
  · rintro ⟨part, hpart, h⟩
    rw [okOr_eq_ok, sliceOf_eq_some_iff] at hpart
    have hlen : part.length = 8 := by omega
    rw [← Except.ok.inj h, toLeBytes_ofNat hlen]
    exact hpart.2
  · intro h
    refine ⟨toLeBytes v, ?_, ?_⟩
    · rw [okOr_eq_ok, sliceOf_eq_some_iff, toLeBytes_length]
      exact ⟨rfl, h⟩
    · exact congrArg Except.ok ofNat_leNat_toLeBytes

theorem readU64_ne_error {buf : List UInt8} {off : Nat} (h : off + 8 ≤ buf.length) {e : Error} :
    readU64 buf off ≠ .error e := by
  obtain ⟨part, hpart, -⟩ := sliceOf_of_le (Nat.le_add_right off 8) h
  unfold readU64
  rw [hpart]
  exact nofun

/-! ## The standard format -/

section Standard

variable {c : Crypto} {mvk : Key} {headerSalt : Bytes 32} {buf : List UInt8} {a a' : AnchorContents}
  {files : Files} {path : String}

theorem body_length :
    (body a).length = if a.headerGeneration.isSome then 24 else 16 := by
  unfold body
  cases a.headerGeneration with
  | none =>
      rw [List.length_append, toLeBytes_length]
      rfl
  | some hg =>
      rw [List.length_append, List.length_append, toLeBytes_length, toLeBytes_length]
      rfl

theorem buildAnchorBuf_length :
    (buildAnchorBuf c a mvk headerSalt).length = (body a).length + 32 := by
  unfold buildAnchorBuf
  rw [List.length_append, Bytes.length_val]

theorem bodyLen_ok {n : Nat} :
    bodyLen buf = .ok n
      ↔ (HasAt buf 0 magic ∧ buf.length = anchorSize ∧ n = 16)
        ∨ (HasAt buf 0 magicV2 ∧ buf.length = anchorV2Size ∧ n = 24) := by
  have hat {m : List UInt8} (hm : m.length = 8) : sliceOf buf 0 8 = some m ↔ HasAt buf 0 m := by
    rw [sliceOf_eq_some_iff, hm]
    exact and_iff_right rfl
  unfold bodyLen
  constructor
  · intro h
    split at h
    · cases h
    next m hm =>
      split at h
      next hv1 =>
        obtain ⟨rfl, hlen⟩ := hv1
        exact .inl ⟨(hat rfl).mp hm, hlen, (Except.ok.inj h).symm⟩
      · split at h
        next hv2 =>
          obtain ⟨rfl, hlen⟩ := hv2
          exact .inr ⟨(hat rfl).mp hm, hlen, (Except.ok.inj h).symm⟩
        · cases h
  · rintro (⟨hm, hlen, rfl⟩ | ⟨hm, hlen, rfl⟩)
    · rw [(hat rfl).mpr hm]
      exact if_pos ⟨rfl, hlen⟩
    · rw [(hat rfl).mpr hm]
      have hother : ¬ (magicV2 = magic ∧ buf.length = anchorSize) := fun h => by cases h.1
      exact (if_neg hother).trans (if_pos ⟨rfl, hlen⟩)

/-- The fields of a body, one behind the other. -/
theorem hasAt_body :
    HasAt buf 0 (body a)
      ↔ HasAt buf 0 (if a.headerGeneration.isSome then magicV2 else magic)
        ∧ HasAt buf 8 (toLeBytes a.generation)
        ∧ ∀ hg, a.headerGeneration = some hg → HasAt buf 16 (toLeBytes hg) := by
  unfold body
  cases a.headerGeneration with
  | none =>
      rw [hasAt_append]
      constructor
      · exact fun h => ⟨h.1, h.2, nofun⟩
      · exact fun h => ⟨h.1, h.2.1⟩
  | some hg =>
      rw [hasAt_append, hasAt_append, List.length_append, toLeBytes_length]
      constructor
      · exact fun h => ⟨h.1.1, h.1.2, fun _ heq => Option.some.inj heq ▸ h.2⟩
      · exact fun h => ⟨⟨h.1, h.2.1⟩, h.2.2 hg rfl⟩

theorem body_injective (h : body a = body a') : a = a' := by
  have hat : HasAt (body a) 0 (body a) := ⟨Nat.zero_le _, List.prefix_rfl⟩
  have hat' : HasAt (body a) 0 (body a') := h ▸ hat
  have hlen := congrArg List.length h
  rw [body_length, body_length] at hlen
  obtain ⟨-, hgen, hhg⟩ := hasAt_body.mp hat
  obtain ⟨-, hgen', hhg'⟩ := hasAt_body.mp hat'
  have hg : a.generation = a'.generation :=
    Except.ok.inj ((readU64_ok.mpr hgen).symm.trans (readU64_ok.mpr hgen'))
  obtain ⟨g, hdr⟩ := a
  obtain ⟨g', hdr'⟩ := a'
  cases hg
  cases hdr with
  | none =>
      cases hdr' with
      | none => rfl
      | some hg' => cases hlen
  | some hg =>
      cases hdr' with
      | none => cases hlen
      | some hg' =>
          have heq : hg = hg' := Except.ok.inj
            ((readU64_ok.mpr (hhg hg rfl)).symm.trans (readU64_ok.mpr (hhg' hg' rfl)))
          rw [heq]

/-- The reader accepts a buffer for the contents it was made of, and no other
buffer for these. -/
theorem verify_ok :
    verify c mvk headerSalt buf = .ok a ↔ buf = buildAnchorBuf c a mvk headerSalt := by
  unfold verify
  constructor
  · intro h
    obtain ⟨n, hn, h⟩ := except_bind_eq_ok.mp h
    obtain ⟨found, hfound, h⟩ := except_bind_eq_ok.mp h
    obtain ⟨tag, htag, h⟩ := except_bind_eq_ok.mp h
    obtain ⟨hmac, h⟩ := except_ite_eq_ok.mp h
    obtain ⟨generation, hgen, h⟩ := except_bind_eq_ok.mp h
    rw [okOr_eq_ok, sliceOf_eq_some_iff] at hfound htag
    rw [readU64_ok] at hgen
    have hfields : HasAt buf 0 (body a) ∧ (body a).length = n := by
      rw [hasAt_body, body_length]
      rcases bodyLen_ok.mp hn with ⟨hmagic, -, rfl⟩ | ⟨hmagic, -, rfl⟩
      · rw [if_neg (by decide)] at h
        cases h
        exact ⟨⟨hmagic, hgen, nofun⟩, rfl⟩
      · rw [if_pos rfl] at h
        obtain ⟨hg, hhg, h⟩ := except_bind_eq_ok.mp h
        cases h
        exact ⟨⟨hmagic, hgen, fun _ heq => Option.some.inj heq ▸ readU64_ok.mp hhg⟩, rfl⟩
    have hbody : found = body a := hfound.2.unique hfields.1 (by omega)
    have hn' : 0 + (body a).length = n := by omega
    have hat : HasAt buf 0 (body a ++ tag) := by
      rw [hasAt_append, hn']
      exact ⟨hfields.1, htag.2⟩
    have hall : buf.drop 0 = body a ++ tag := hat.drop_eq (by rw [List.length_append]; omega)
    unfold buildAnchorBuf
    rw [← hbody, not_not.mp hmac, hbody]
    exact hall
  · intro h
    have hlen : buf.length = (body a).length + 32 := by rw [h, buildAnchorBuf_length]
    have hat : HasAt buf 0 (buildAnchorBuf c a mvk headerSalt) :=
      h ▸ ⟨Nat.zero_le _, List.prefix_rfl⟩
    obtain ⟨hbody, htag⟩ := hasAt_append.mp hat
    obtain ⟨hmagic, hgen, hhg⟩ := hasAt_body.mp hbody
    refine except_bind_eq_ok.mpr ⟨(body a).length, bodyLen_ok.mpr ?_, ?_⟩
    · rw [hlen, body_length]
      cases hdr : a.headerGeneration with
      | none =>
          rw [hdr] at hmagic
          exact .inl ⟨hmagic, rfl, rfl⟩
      | some hg =>
          rw [hdr] at hmagic
          exact .inr ⟨hmagic, rfl, rfl⟩
    refine except_bind_eq_ok.mpr ⟨body a, ?_, ?_⟩
    · rw [okOr_eq_ok, sliceOf_eq_some_iff]
      exact ⟨(Nat.zero_add _).symm, hbody⟩
    refine except_bind_eq_ok.mpr
      ⟨(computeMac c (anchorKey c mvk headerSalt) (body a)).val, ?_, ?_⟩
    · rw [okOr_eq_ok, sliceOf_eq_some_iff, Bytes.length_val, ← Nat.zero_add (body a).length]
      exact ⟨by omega, htag⟩
    rw [if_neg (not_not.mpr rfl)]
    refine except_bind_eq_ok.mpr ⟨a.generation, readU64_ok.mpr hgen, ?_⟩
    rw [body_length]
    obtain ⟨g, hdr⟩ := a
    cases hdr with
    | none => rfl
    | some hg =>
        exact except_bind_eq_ok.mpr ⟨hg, readU64_ok.mpr (hhg hg rfl), rfl⟩

theorem verify_ne_panic : verify c mvk headerSalt buf ≠ .error .panic := by
  have hlong {n : Nat} (hn : bodyLen buf = .ok n) :
      n ≤ buf.length ∧ 16 ≤ n ∧ (n = 24 → 24 ≤ buf.length) := by
    rcases bodyLen_ok.mp hn with ⟨-, hlen, rfl⟩ | ⟨-, hlen, rfl⟩ <;> rw [hlen] <;> decide
  unfold verify
  refine except_bind_ne_error ?_ fun n hn => ?_
  · unfold bodyLen
    split
    · exact nofun
    · split
      · exact nofun
      · split <;> exact nofun
  obtain ⟨hle, hsixteen, hmore⟩ := hlong hn
  refine except_bind_ne_error (okOr_ne_error ?_) fun found _ => ?_
  · obtain ⟨m, hm, -⟩ := sliceOf_of_le (Nat.zero_le n) hle
    exact ⟨m, hm⟩
  refine except_bind_ne_error (okOr_ne_error ?_) fun tag _ => ?_
  · obtain ⟨m, hm, -⟩ := sliceOf_of_le hle le_rfl
    exact ⟨m, hm⟩
  split
  · exact nofun
  refine except_bind_ne_error (readU64_ne_error (by omega)) fun generation _ => ?_
  split
  next h24 =>
    refine except_bind_ne_error (readU64_ne_error (hmore h24)) fun hg _ => ?_
    exact nofun
  · exact nofun

/-- The standard codec: a file is accepted for `a` exactly if it is, byte for
byte, the one that is made for `a`. The bound on the read lets no longer file
through as one of these. -/
theorem readAndVerify_ok :
    readAndVerify c files path mvk headerSalt = .ok a
      ↔ files path = some (buildAnchorBuf c a mvk headerSalt) := by
  have hshort : (buildAnchorBuf c a mvk headerSalt).length ≤ anchorV2Size := by
    rw [buildAnchorBuf_length, body_length]
    split <;> decide
  unfold readAndVerify
  cases files path with
  | none => exact ⟨nofun, nofun⟩
  | some file =>
      show verify c mvk headerSalt (file.take (anchorV2Size + 1)) = .ok a ↔ some file = some _
      rw [verify_ok, Option.some.injEq]
      constructor
      · intro h
        have hlen := congrArg List.length h
        rw [List.length_take] at hlen
        have hfit : file.length ≤ anchorV2Size + 1 := by omega
        rw [← h, List.take_of_length_le hfit]
      · rintro rfl
        exact List.take_of_length_le (Nat.le_succ_of_le hshort)

end Standard

/-! ## The deniable format -/

/-- The random bytes behind a generation alone do not look like the marker of a
header generation. -/
def Legible (a : AnchorContents) (padding : Bytes 204) : Prop :=
  a.headerGeneration = none → padding.val.take 8 ≠ deniableAnchorHgMarker

section Deniable

variable {c : Crypto} {mvk : Key} {perVaultSalt : Bytes 32} {suite : CipherSuite}
  {a : AnchorContents} {padding : Bytes 204} {draws : Draws} {buf file pt : List UInt8}

theorem plaintext_length : (deniableAnchorPlaintext a padding).length = 212 := by
  unfold deniableAnchorPlaintext
  cases a.headerGeneration with
  | none => rw [List.length_append, toLeBytes_length, padding.property]
  | some hg =>
      rw [List.length_append, List.length_append, List.length_append, toLeBytes_length,
        toLeBytes_length, List.length_drop, padding.property]
      rfl

/-- The fields of a plaintext that are not random, one behind the other. -/
theorem hasAt_plaintext :
    HasAt (deniableAnchorPlaintext a padding) 0 (toLeBytes a.generation)
      ∧ match a.headerGeneration with
        | none => HasAt (deniableAnchorPlaintext a padding) 8 (padding.val.take 8)
        | some hg => HasAt (deniableAnchorPlaintext a padding) 8 deniableAnchorHgMarker
            ∧ HasAt (deniableAnchorPlaintext a padding) 16 (toLeBytes hg) := by
  have hat : HasAt (deniableAnchorPlaintext a padding) 0 (deniableAnchorPlaintext a padding) :=
    ⟨Nat.zero_le _, List.prefix_rfl⟩
  unfold deniableAnchorPlaintext at hat ⊢
  cases hdr : a.headerGeneration with
  | none =>
      simp only [hdr] at hat ⊢
      obtain ⟨hgen, hpad⟩ := hasAt_append.mp hat
      rw [← List.take_append_drop 8 padding.val] at hpad
      refine ⟨hgen, ?_⟩
      have hpad := (hasAt_append.mp hpad).1
      rw [toLeBytes_length, List.take_append_drop] at hpad
      exact hpad
  | some hg =>
      simp only [hdr] at hat ⊢
      rw [hasAt_append, hasAt_append, hasAt_append, List.length_append, toLeBytes_length] at hat
      exact ⟨hat.1.1.1, hat.1.1.2, hat.1.2⟩

/-- What is sealed is read again, if the random bytes do not spoil it. -/
theorem parseDeniable_plaintext (h : Legible a padding) :
    parseDeniable (deniableAnchorPlaintext a padding) = .ok a := by
  obtain ⟨hgen, hmore⟩ := @hasAt_plaintext a padding
  have hat {m : List UInt8} (hm : m.length = 8)
      (hhas : HasAt (deniableAnchorPlaintext a padding) 8 m) :
      sliceOf (deniableAnchorPlaintext a padding) 8 16 = some m := by
    rw [sliceOf_eq_some_iff, hm]
    exact ⟨rfl, hhas⟩
  have hlen : (deniableAnchorPlaintext a padding).length = deniableAnchorPlaintextLen :=
    plaintext_length
  unfold parseDeniable
  rw [if_neg (not_not.mpr hlen)]
  obtain ⟨g, hdr⟩ := a
  cases hdr with
  | none =>
      have htake : (padding.val.take 8).length = 8 := by
        rw [List.length_take, padding.property]
        rfl
      refine except_bind_eq_ok.mpr ⟨padding.val.take 8, okOr_eq_ok.mpr (hat htake hmore), ?_⟩
      refine except_bind_eq_ok.mpr ⟨g, readU64_ok.mpr hgen, ?_⟩
      rw [if_neg (h rfl)]
  | some hg =>
      refine except_bind_eq_ok.mpr ⟨deniableAnchorHgMarker, okOr_eq_ok.mpr (hat rfl hmore.1), ?_⟩
      refine except_bind_eq_ok.mpr ⟨g, readU64_ok.mpr hgen, ?_⟩
      rw [if_pos rfl]
      exact except_bind_eq_ok.mpr ⟨hg, readU64_ok.mpr hmore.2, rfl⟩

/-- Nothing else is read as these contents. -/
theorem parseDeniable_ok :
    parseDeniable pt = .ok a ↔ ∃ padding, Legible a padding ∧ pt = deniableAnchorPlaintext a padding := by
  constructor
  · intro h
    unfold parseDeniable at h
    obtain ⟨hlen, h⟩ := except_ite_eq_ok.mp h
    obtain ⟨marker, hmarker, h⟩ := except_bind_eq_ok.mp h
    obtain ⟨generation, hgen, h⟩ := except_bind_eq_ok.mp h
    have hlen : pt.length = 212 := not_not.mp hlen
    rw [okOr_eq_ok, sliceOf_eq_some_iff] at hmarker
    rw [readU64_ok] at hgen
    have hmarkerLen : marker.length = 8 := by omega
    have hfront : pt = toLeBytes generation ++ pt.drop 8 := by
      have hat : HasAt pt 0 (toLeBytes generation ++ pt.drop 8) := by
        rw [hasAt_append, toLeBytes_length]
        exact ⟨hgen, hasAt_drop (by omega)⟩
      refine hat.drop_eq ?_
      rw [List.length_append, toLeBytes_length, List.length_drop]
      omega
    split at h
    next hm =>
      obtain ⟨hg, hhg, h⟩ := except_bind_eq_ok.mp h
      cases h
      rw [readU64_ok] at hhg
      have hpad : (List.replicate 16 0 ++ pt.drop 24).length = 204 := by
        rw [List.length_append, List.length_replicate, List.length_drop, hlen]
      refine ⟨⟨_, hpad⟩, nofun, ?_⟩
      have hat : HasAt pt 0
          (toLeBytes generation ++ deniableAnchorHgMarker ++ toLeBytes hg ++ pt.drop 24) := by
        have htwo : (toLeBytes generation ++ deniableAnchorHgMarker).length = 16 := by
          rw [List.length_append, toLeBytes_length]
          rfl
        have hthree : (toLeBytes generation ++ deniableAnchorHgMarker ++ toLeBytes hg).length
            = 24 := by
          rw [List.length_append, htwo, toLeBytes_length]
        rw [hasAt_append, hasAt_append, hasAt_append, hthree, htwo, toLeBytes_length]
        exact ⟨⟨⟨hgen, hm ▸ hmarker.2⟩, hhg⟩, hasAt_drop (by omega)⟩
      have hdrop : (List.replicate 16 (0 : UInt8) ++ pt.drop 24).drop 16 = pt.drop 24 :=
        List.drop_left' List.length_replicate
      show pt = _ ++ List.drop 16 (_ ++ _)
      rw [hdrop]
      refine hat.drop_eq ?_
      rw [List.length_append, List.length_append, List.length_append, toLeBytes_length,
        toLeBytes_length, List.length_drop, hlen]
      rfl
    next hm =>
      cases h
      have hpad : (pt.drop 8).length = 204 := by rw [List.length_drop, hlen]
      refine ⟨⟨_, hpad⟩, fun _ hbad => hm ?_, hfront⟩
      have htake : HasAt pt 8 ((pt.drop 8).take 8) :=
        ⟨by omega, List.take_prefix _ _⟩
      refine (hmarker.2.unique htake ?_).trans hbad
      rw [hmarkerLen, List.length_take, hpad]
      rfl
  · rintro ⟨padding, hlegible, rfl⟩
    exact parseDeniable_plaintext hlegible

theorem buildDeniableAnchorBuf_ok (htag : ∀ suite, SealsWithTag c suite)
    (h : buildDeniableAnchorBuf c a mvk perVaultSalt suite draws = .ok buf) :
    ∃ padding nonce ct trailing, draws.padding = some padding
      ∧ c.aeadSeal suite (deniableAnchorKey c mvk perVaultSalt) nonce
          (deniableAnchorAad perVaultSalt) (deniableAnchorPlaintext a padding) = some ct
      ∧ ct.length = deniableAnchorCtLen ∧ buf = nonce.val ++ ct ++ (trailing : Bytes 16).val := by
  unfold buildDeniableAnchorBuf at h
  obtain ⟨padding, hpadding, h⟩ := except_bind_eq_ok.mp h
  obtain ⟨nonce, hnonce, h⟩ := except_bind_eq_ok.mp h
  obtain ⟨ct, hct, h⟩ := except_bind_eq_ok.mp h
  obtain ⟨hfit, h⟩ := except_ite_eq_ok.mp h
  obtain ⟨trailing, htrailing, h⟩ := except_bind_eq_ok.mp h
  rw [okOr_eq_ok] at hpadding hct
  have hlen : ct.length = deniableAnchorCtLen := by
    rw [htag _ _ _ _ _ _ hct, plaintext_length]
    rfl
  refine ⟨padding, nonce, ct, trailing, hpadding, hct, hlen, ?_⟩
  have hfull : (nonce.val ++ ct).length = deniableAnchorSize - deniableAnchorTrailingPad := by
    rw [List.length_append, hlen, nonce.property]
    rfl
  rw [← Except.ok.inj h, ← hfull, List.take_left]

/-- Where the nonce and the box of a file are. -/
theorem deniableVerify_eq {nonce : Bytes 12} {ct : List UInt8} (hlen : deniableAnchorSize ≤ file.length)
    (hct : ct.length = deniableAnchorCtLen) (hat : HasAt file 0 (nonce.val ++ ct)) :
    deniableVerify c mvk perVaultSalt suite file
      = match c.aeadOpen suite (deniableAnchorKey c mvk perVaultSalt) nonce
          (deniableAnchorAad perVaultSalt) ct with
        | none => .error .opaqueUnlockFailed
        | some pt => parseDeniable pt := by
  obtain ⟨front, hfront, hfrontLen⟩ := sliceOf_of_le (Nat.zero_le deniableAnchorSize) hlen
  have hprefix := (sliceOf_eq_some_iff.mp hfront).2
  have hboth : (nonce.val ++ ct).length = 240 := by
    rw [List.length_append, hct, nonce.property]
    rfl
  have hin : HasAt front 0 (nonce.val ++ ct) := by
    refine ⟨Nat.zero_le _, ?_⟩
    refine List.prefix_of_prefix_length_le hat.2 hprefix.2 ?_
    rw [hboth, List.drop_zero, hfrontLen]
    decide
  obtain ⟨hnonce, hbox⟩ := hasAt_append.mp hin
  rw [nonce.property] at hbox
  have hstart : sliceOf front 0 deniableAnchorNonceLen = some nonce.val := by
    rw [sliceOf_eq_some_iff, nonce.property]
    exact ⟨rfl, hnonce⟩
  have hend : sliceOf front deniableAnchorNonceLen (deniableAnchorNonceLen + deniableAnchorCtLen)
      = some ct := by
    rw [sliceOf_eq_some_iff, hct]
    exact ⟨rfl, hbox⟩
  unfold deniableVerify
  rw [hfront]
  simp only [okOr, ok_bind, hstart, hend]
  exact dif_pos nonce.property

/-- A buffer that was made opens to what it was made of. -/
theorem deniableVerify_built (hc : c.OpensSealed) (htag : ∀ suite, SealsWithTag c suite)
    (hlegible : ∀ padding, draws.padding = some padding → Legible a padding)
    (h : buildDeniableAnchorBuf c a mvk perVaultSalt suite draws = .ok buf) :
    deniableVerify c mvk perVaultSalt suite buf = .ok a := by
  obtain ⟨padding, nonce, ct, trailing, hpadding, hseal, hct, rfl⟩ :=
    buildDeniableAnchorBuf_ok htag h
  have hlen : deniableAnchorSize ≤ (nonce.val ++ ct ++ trailing.val).length := by
    rw [List.length_append, List.length_append, hct, nonce.property, trailing.property]
    decide
  have hat : HasAt (nonce.val ++ ct ++ trailing.val) 0 (nonce.val ++ ct) :=
    ⟨Nat.zero_le _, List.prefix_append _ _⟩
  rw [deniableVerify_eq hlen hct hat, hc.open_seal hseal]
  exact parseDeniable_plaintext (hlegible padding hpadding)

/-- What a file holds that is accepted. -/
theorem deniableVerify_ok (h : deniableVerify c mvk perVaultSalt suite file = .ok a) :
    ∃ nonce ct pt, deniableAnchorSize ≤ file.length ∧ HasAt file 0 (nonce.val ++ ct)
      ∧ ct.length = deniableAnchorCtLen
      ∧ c.aeadOpen suite (deniableAnchorKey c mvk perVaultSalt) nonce
          (deniableAnchorAad perVaultSalt) ct = some pt
      ∧ parseDeniable pt = .ok a := by
  unfold deniableVerify at h
  obtain ⟨front, hfront, h⟩ := except_bind_eq_ok.mp h
  obtain ⟨start, hstart, h⟩ := except_bind_eq_ok.mp h
  obtain ⟨ct, hct, h⟩ := except_bind_eq_ok.mp h
  rw [okOr_eq_ok, sliceOf_eq_some_iff] at hfront hstart hct
  split at h
  next hlen =>
    split at h
    · cases h
    next pt hopen =>
      refine ⟨⟨start, hlen⟩, ct, pt, ?_, ?_, by omega, hopen, h⟩
      · have hle := hfront.2.le
        omega
      have hin : HasAt front 0 (start ++ ct) := by
        rw [hasAt_append, hlen]
        exact ⟨hstart.2, hct.2⟩
      exact ⟨Nat.zero_le _, hin.2.trans hfront.2.2⟩
  · cases h

theorem parseDeniable_ne_panic : parseDeniable pt ≠ .error .panic := by
  unfold parseDeniable
  split
  · exact nofun
  next hlen =>
    have hlen : pt.length = 212 := not_not.mp hlen
    refine except_bind_ne_error (okOr_ne_error ?_) fun marker _ => ?_
    · obtain ⟨m, hm, -⟩ := @sliceOf_of_le _ pt 8 16 (by decide) (by omega)
      exact ⟨m, hm⟩
    refine except_bind_ne_error (readU64_ne_error (by omega)) fun generation _ => ?_
    split
    · refine except_bind_ne_error (readU64_ne_error (by omega)) fun hg _ => ?_
      exact nofun
    · exact nofun

theorem deniableVerify_ne_panic :
    deniableVerify c mvk perVaultSalt suite file ≠ .error .panic := by
  unfold deniableVerify
  refine except_bind_ne_error ?_ fun front hfront => ?_
  · cases sliceOf file 0 deniableAnchorSize <;> exact nofun
  rw [okOr_eq_ok, sliceOf_eq_some_iff] at hfront
  have hlen : front.length = 256 := by
    have hsize := hfront.1
    unfold deniableAnchorSize at hsize
    omega
  refine except_bind_ne_error (okOr_ne_error ?_) fun start _ => ?_
  · obtain ⟨m, hm, -⟩ := @sliceOf_of_le _ front 0 12 (by decide) (by omega)
    exact ⟨m, hm⟩
  refine except_bind_ne_error (okOr_ne_error ?_) fun ct _ => ?_
  · obtain ⟨m, hm, -⟩ := @sliceOf_of_le _ front 12 240 (by decide) (by omega)
    exact ⟨m, hm⟩
  split
  · split
    · exact nofun
    · exact parseDeniable_ne_panic
  · exact nofun

end Deniable

/-- Which files are anchors. In the standard format it is one file for each pair
of generations, and that file alone. In the deniable one it is every file of the
size or more whose box opens to the generations and to padding that cannot be
taken for another one. -/
theorem anchor_codec_exact (c : Crypto) (mvk : Key) (salt : Bytes 32) (suite : CipherSuite)
    (files : Files) (path : String) (a : AnchorContents) :
    (readAndVerify c files path mvk salt = .ok a
        ↔ files path = some (buildAnchorBuf c a mvk salt))
      ∧ (deniableReadAndVerify c files path mvk salt suite = .ok a
        ↔ ∃ file nonce ct padding, files path = some file ∧ deniableAnchorSize ≤ file.length
          ∧ HasAt file 0 (nonce.val ++ ct) ∧ ct.length = deniableAnchorCtLen
          ∧ c.aeadOpen suite (deniableAnchorKey c mvk salt) nonce (deniableAnchorAad salt) ct
            = some (deniableAnchorPlaintext a padding)
          ∧ Legible a padding) := by
  refine ⟨readAndVerify_ok, ?_⟩
  unfold deniableReadAndVerify
  constructor
  · intro h
    cases hfile : files path with
    | none =>
        rw [hfile] at h
        cases h
    | some file =>
        rw [hfile] at h
        obtain ⟨nonce, ct, pt, hlen, hat, hct, hopen, hparse⟩ := deniableVerify_ok h
        obtain ⟨padding, hlegible, rfl⟩ := parseDeniable_ok.mp hparse
        exact ⟨file, nonce, ct, padding, rfl, hlen, hat, hct, hopen, hlegible⟩
  · rintro ⟨file, nonce, ct, padding, hfile, hlen, hat, hct, hopen, hlegible⟩
    rw [hfile]
    dsimp only
    rw [deniableVerify_eq hlen hct hat, hopen]
    exact parseDeniable_plaintext hlegible

theorem plainCrypto_tag (suite : CipherSuite) : SealsWithTag plainCrypto suite := by
  intro key nonce aad pt ct h
  have hct : pt ++ key.val.take 16 = ct := Option.some.inj h
  rw [← hct, List.length_append, List.length_take, key.property]
  rfl

end Luksbox.Anchor
