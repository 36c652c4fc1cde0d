import Luksbox.Model.PayloadCodec
import Luksbox.Proofs.Deniable

/-!
# A slot payload is what was written

`decode` takes exactly the buffers that `encode` makes of a payload within the
bounds of `new`, whatever the padding, and gives that payload back.
-/

namespace Luksbox.PayloadCodec

open Lib
open Luksbox.SlotPayload (saltLenOf saltBytes)

variable {buf : List UInt8} {off n : Nat}

/-! ## The head -/

theorem toU8_of_fromU8 {k : UInt8} {kind : DeniableKindTag}
    (h : DeniableKindTag.fromU8 k = some kind) : kind.toU8 = k := by
  have hall : ∀ v : Fin 256, ((DeniableKindTag.fromU8 (UInt8.ofNat v.val)).map
      DeniableKindTag.toU8).getD (UInt8.ofNat v.val) = UInt8.ofNat v.val := by decide +kernel
  have hk := hall ⟨k.toNat, k.toNat_lt⟩
  rw [UInt8.ofNat_toNat, h] at hk
  exact hk

namespace SlotPayload

variable {p : SlotPayload}

theorem head_length : p.head.length = payloadHeaderLen := by
  unfold head
  rw [List.length_append, List.length_append, List.length_append, List.length_append,
    leBytes_length, leBytes_length]
  rfl

theorem fields_length : p.fields.length = payloadHeaderLen + (p.material.credId.length +
    saltLenOf p.material + p.material.tpmBlob.length) + 60 := by
  unfold fields
  rw [List.length_append, List.length_append, List.length_append, List.length_append,
    List.length_append, head_length, Luksbox.SlotPayload.saltBytes_length, Bytes.length_val,
    Bytes.length_val]
  omega

theorem new_eq_ok {kind : DeniableKindTag} {m : DeniableMaterial} {nonce : Bytes 12}
    {ctAndTag : Bytes 48} :
    new kind m nonce ctAndTag = .ok p ↔ m.Fits ∧ p = ⟨kind, m, nonce, ctAndTag⟩ := by
  unfold new
  rw [except_ite_eq_ok, except_ite_eq_ok, except_ite_eq_ok, not_lt, not_lt, not_lt]
  constructor
  · rintro ⟨hc, ht, hb, h⟩
    exact ⟨⟨hc, ht, hb⟩, (Except.ok.inj h).symm⟩
  · rintro ⟨⟨hc, ht, hb⟩, rfl⟩
    exact ⟨hc, ht, hb, rfl⟩

theorem fields_le (h : p.material.Fits) : p.fields.length ≤ payloadPlaintextLen := by
  have hbudget := h.2.2
  unfold materialBudget at hbudget
  rw [fields_length]
  unfold payloadHeaderLen payloadPlaintextLen
  omega

/-- The fields behind the head. -/
theorem hasAt_fields : HasAt buf 0 p.fields ↔ HasAt buf 0 p.head ∧
    HasAt buf payloadHeaderLen p.material.credId ∧
    HasAt buf (payloadHeaderLen + p.material.credId.length) (saltBytes p.material) ∧
    HasAt buf (payloadHeaderLen + p.material.credId.length + saltLenOf p.material)
      p.material.tpmBlob ∧
    HasAt buf (payloadHeaderLen + p.material.credId.length + saltLenOf p.material +
      p.material.tpmBlob.length) p.wrappedMvkNonce.val ∧
    HasAt buf (payloadHeaderLen + p.material.credId.length + saltLenOf p.material +
      p.material.tpmBlob.length + 12) p.wrappedMvkCtAndTag.val := by
  unfold fields
  rw [hasAt_append, hasAt_append, hasAt_append, hasAt_append, hasAt_append, head_length,
    Luksbox.SlotPayload.saltBytes_length, Bytes.length_val, Nat.zero_add]

theorem encode_eq_ok {b : Bytes payloadPlaintextLen} :
    (∃ random, p.encode random = .ok b) ↔ HasAt b.val 0 p.fields := by
  constructor
  · rintro ⟨random, h⟩
    unfold encode at h
    split at h
    · rw [← Except.ok.inj h]
      exact ⟨Nat.zero_le _, List.prefix_append _ _⟩
    · cases h
  · intro h
    have hle := h.le
    rw [b.length_val, Nat.zero_add] at hle
    obtain ⟨rest, hrest⟩ := h.2
    rw [List.drop_zero] at hrest
    have hlen : rest.length = payloadPlaintextLen - p.fields.length := by
      have hb := b.length_val
      rw [← hrest, List.length_append] at hb
      omega
    -- the padding that the buffer has
    refine ⟨fun m => if hm : m = rest.length then ⟨rest, hm.symm⟩ else Bytes.zero m, ?_⟩
    unfold encode
    rw [dif_pos hle]
    refine congrArg Except.ok (Subtype.ext ?_)
    dsimp only
    rw [dif_pos hlen.symm]
    exact hrest

end SlotPayload

/-! ## Reading -/

theorem saltAt_eq_ok {saltLen : Nat} (hlen : saltLen = 0 ∨ saltLen = hmacSaltLen)
    {salt : Option (Bytes hmacSaltLen)} :
    saltAt buf off saltLen = .ok salt ↔
      saltLen = (if salt.isSome then hmacSaltLen else 0) ∧
        ∀ x, salt = some x → HasAt buf off x.val := by
  unfold saltAt
  rcases hlen with rfl | rfl
  · rw [if_neg (by decide)]
    constructor
    · intro h
      rw [← Except.ok.inj h]
      exact ⟨rfl, nofun⟩
    · rintro ⟨h, -⟩
      cases salt with
      | none => rfl
      | some x => cases h
  · rw [if_pos rfl]
    cases harr : arrayAt buf off hmacSaltLen with
    | none =>
        refine ⟨nofun, ?_⟩
        rintro ⟨h, hx⟩
        cases salt with
        | none => cases h
        | some x => exact absurd (arrayAt_eq_some.mpr (hx x rfl)) (by rw [harr]; exact nofun)
    | some y =>
        constructor
        · intro h
          have hy : some y = salt := Except.ok.inj h
          rw [← hy]
          exact ⟨rfl, fun x hx => Option.some.inj hx ▸ arrayAt_eq_some.mp harr⟩
        · rintro ⟨h, hx⟩
          cases salt with
          | none => cases h
          | some x =>
              rw [arrayAt_eq_some.mpr (hx x rfl)] at harr
              rw [Option.some.inj harr]
              rfl

/-- The salt field of a material. -/
theorem hasAt_saltBytes {m : DeniableMaterial} (h : off ≤ buf.length) :
    HasAt buf off (saltBytes m) ↔ ∀ x, m.hmacSalt = some x → HasAt buf off x.val := by
  unfold saltBytes
  cases m.hmacSalt with
  | none => exact ⟨fun _ => nofun, fun _ => hasAt_nil h⟩
  | some x => exact ⟨fun hx y hy => Option.some.inj hy ▸ hx, fun hx => hx x rfl⟩

theorem decodeFields_eq_ok {kind : DeniableKindTag} {credIdLen saltLen tpmBlobLen : Nat}
    (hlen : saltLen = 0 ∨ saltLen = hmacSaltLen) {p : SlotPayload} :
    decodeFields buf kind credIdLen saltLen tpmBlobLen = .ok p ↔
      (kind = p.kind ∧ credIdLen = p.material.credId.length ∧ saltLen = saltLenOf p.material ∧
        tpmBlobLen = p.material.tpmBlob.length) ∧
      HasAt buf payloadHeaderLen p.material.credId ∧
      HasAt buf (payloadHeaderLen + p.material.credId.length) (saltBytes p.material) ∧
      HasAt buf (payloadHeaderLen + p.material.credId.length + saltLenOf p.material)
        p.material.tpmBlob ∧
      HasAt buf (payloadHeaderLen + p.material.credId.length + saltLenOf p.material +
        p.material.tpmBlob.length) p.wrappedMvkNonce.val ∧
      HasAt buf (payloadHeaderLen + p.material.credId.length + saltLenOf p.material +
        p.material.tpmBlob.length + 12) p.wrappedMvkCtAndTag.val := by
  unfold decodeFields
  simp only [except_bind_eq_ok, okOr_eq_ok, sliceOf_eq_some_iff, saltAt_eq_ok hlen,
    arrayAt_eq_some]
  constructor
  · rintro ⟨credId, ⟨hcl, hc⟩, salt, ⟨hsl, hs⟩, tpmBlob, ⟨htl, ht⟩, nonce, hn, ct, hct, h⟩
    have hp := Except.ok.inj h
    subst hp
    have hcredId : credIdLen = credId.length := by omega
    have htpm : tpmBlobLen = tpmBlob.length := by omega
    subst hcredId htpm
    have hsalt : saltLen = saltLenOf ⟨credId, salt, tpmBlob⟩ := hsl
    rw [hsalt] at ht hn hct
    exact ⟨⟨rfl, rfl, hsalt, rfl⟩, hc, (hasAt_saltBytes hc.le).mpr hs, ht, hn, hct⟩
  · obtain ⟨kind', ⟨credId, salt, tpmBlob⟩, nonce, ct⟩ := p
    rintro ⟨⟨rfl, rfl, rfl, rfl⟩, hc, hs, ht, hn, hct⟩
    exact ⟨credId, ⟨rfl, hc⟩, salt, ⟨rfl, (hasAt_saltBytes hc.le).mp hs⟩, tpmBlob, ⟨rfl, ht⟩, nonce,
      hn, ct, hct, rfl⟩

/-- Lengths within the budget lead past no end. -/
theorem decodeFields_returns {kind : DeniableKindTag} {credIdLen saltLen tpmBlobLen : Nat}
    (h : payloadHeaderLen + credIdLen + saltLen + tpmBlobLen + 60 ≤ buf.length) :
    ∃ p, decodeFields buf kind credIdLen saltLen tpmBlobLen = .ok p := by
  have harr : ∀ {at' m : Nat}, at' + m ≤ buf.length → ∃ x, arrayAt buf at' m = some x :=
    fun hle => ⟨_, dif_pos hle⟩
  obtain ⟨credId, hc, -⟩ := sliceOf_of_le (Nat.le_add_right payloadHeaderLen credIdLen)
    (show payloadHeaderLen + credIdLen ≤ buf.length by omega)
  obtain ⟨salt, hs⟩ : ∃ salt, saltAt buf (payloadHeaderLen + credIdLen) saltLen = .ok salt := by
    unfold saltAt
    split
    next heq =>
      obtain ⟨x, hx⟩ := @harr (payloadHeaderLen + credIdLen) hmacSaltLen (by omega)
      rw [hx]
      exact ⟨_, rfl⟩
    · exact ⟨_, rfl⟩
  obtain ⟨tpmBlob, ht, -⟩ := sliceOf_of_le
    (Nat.le_add_right (payloadHeaderLen + credIdLen + saltLen) tpmBlobLen)
    (show payloadHeaderLen + credIdLen + saltLen + tpmBlobLen ≤ buf.length by omega)
  obtain ⟨nonce, hn⟩ :=
    @harr (payloadHeaderLen + credIdLen + saltLen + tpmBlobLen) 12 (by omega)
  obtain ⟨ct, hct⟩ :=
    @harr (payloadHeaderLen + credIdLen + saltLen + tpmBlobLen + 12) 48 (by omega)
  refine ⟨⟨kind, ⟨credId, salt, tpmBlob⟩, nonce, ct⟩, ?_⟩
  unfold decodeFields
  dsimp only
  rw [hc]
  dsimp only [okOr, bind, Except.bind]
  rw [hs]
  dsimp only
  rw [ht]
  dsimp only
  rw [hn]
  dsimp only
  rw [hct]

/-- The eight bytes of the head. -/
theorem exists_head (b : Bytes payloadPlaintextLen) : ∃ k c0 c1 s t0 t1 r0 r1,
    sliceOf b.val 0 payloadHeaderLen = some [k, c0, c1, s, t0, t1, r0, r1] := by
  have hb := b.length_val
  unfold payloadPlaintextLen at hb
  obtain ⟨m, hm, hlen⟩ := sliceOf_of_le (Nat.zero_le payloadHeaderLen)
    (show payloadHeaderLen ≤ b.val.length by unfold payloadHeaderLen; omega)
  match m, hlen with
  | [k, c0, c1, s, t0, t1, r0, r1], _ => exact ⟨k, c0, c1, s, t0, t1, r0, r1, hm⟩

theorem leBytes_two {n : Nat} {x y : UInt8} (h : n < 65536) :
    leBytes 2 n = [x, y] ↔ leNat [x, y] = n := by
  constructor
  · intro heq
    rw [← heq, leNat_leBytes_of_lt (by omega)]
  · intro heq
    rw [← heq]
    exact leBytes_leNat [x, y]

theorem SlotPayload.head_eq_iff {p : SlotPayload} (hfits : p.material.Fits)
    {k c0 c1 s t0 t1 r0 r1 : UInt8} :
    p.head = [k, c0, c1, s, t0, t1, r0, r1] ↔
      p.kind.toU8 = k ∧ leNat [c0, c1] = p.material.credId.length ∧
        s.toNat = saltLenOf p.material ∧ leNat [t0, t1] = p.material.tpmBlob.length ∧
        r0 = 0 ∧ r1 = 0 := by
  obtain ⟨hc, ht, -⟩ := hfits
  unfold credIdMaxLen at hc
  unfold tpmBlobMaxLen at ht
  have hsalt : UInt8.ofNat (saltLenOf p.material) = s ↔ s.toNat = saltLenOf p.material := by
    have hs : (UInt8.ofNat (saltLenOf p.material)).toNat = saltLenOf p.material := by
      rcases Luksbox.SlotPayload.saltLenOf_cases p.material with h0 | h0
      · rw [h0]
        rfl
      · rw [h0]
        rfl
    constructor
    · intro h
      rw [← h, hs]
    · intro h
      rw [← h, UInt8.ofNat_toNat]
  rw [← leBytes_two (by omega), ← leBytes_two (by omega), ← hsalt]
  unfold head leBytes leBytes leBytes
  simp only [List.cons_append, List.nil_append, List.cons.injEq, and_true]
  constructor
  · rintro ⟨h1, h2, h3, h4, h5, h6, h7, h8⟩
    exact ⟨h1, ⟨h2, h3⟩, h4, ⟨h5, h6⟩, h7.symm, h8.symm⟩
  · rintro ⟨h1, ⟨h2, h3⟩, h4, ⟨h5, h6⟩, h7, h8⟩
    exact ⟨h1, h2, h3, h4, h5, h6, h7.symm, h8.symm⟩

theorem decode_eq_ok {b : Bytes payloadPlaintextLen} {p : SlotPayload} :
    decode b = .ok p ↔ p.material.Fits ∧ HasAt b.val 0 p.fields := by
  obtain ⟨k, c0, c1, s, t0, t1, r0, r1, hread⟩ := exists_head b
  have hhead : HasAt b.val 0 [k, c0, c1, s, t0, t1, r0, r1] := (sliceOf_eq_some_iff.mp hread).2
  unfold decode
  rw [hread, SlotPayload.hasAt_fields]
  dsimp only
  constructor
  · intro h
    cases hkind : DeniableKindTag.fromU8 k with
    | none =>
        rw [hkind] at h
        cases h
    | some kind =>
        rw [hkind] at h
        dsimp only at h
        rw [except_ite_eq_ok, except_ite_eq_ok, except_ite_eq_ok, except_ite_eq_ok,
          except_ite_eq_ok] at h
        obtain ⟨hzero, hc, hsalt, ht, hbudget, h⟩ := h
        obtain ⟨⟨rfl, hcl, hsl, htl⟩, hfields⟩ := (decodeFields_eq_ok (not_not.mp hsalt)).mp h
        obtain ⟨hr0, hr1⟩ := not_or.mp hzero
        have hfits : p.material.Fits := by
          rw [hcl, hsl, htl] at hbudget
          exact ⟨by omega, by omega, by omega⟩
        refine ⟨hfits, ?_, hfields⟩
        rw [(SlotPayload.head_eq_iff hfits).mpr
          ⟨toU8_of_fromU8 hkind, hcl, hsl, htl, not_not.mp hr0, not_not.mp hr1⟩]
        exact hhead
  · rintro ⟨hfits, hp, hfields⟩
    have heq := hp.unique hhead SlotPayload.head_length
    obtain ⟨hk, hcl, hsl, htl, hr0, hr1⟩ := (SlotPayload.head_eq_iff hfits).mp heq
    obtain ⟨hc, ht, hbudget⟩ := hfits
    have hsalt : s.toNat = 0 ∨ s.toNat = hmacSaltLen := by
      rw [hsl]
      exact Luksbox.SlotPayload.saltLenOf_cases p.material
    rw [← hk, DeniableKindTag.fromU8_toU8]
    dsimp only
    rw [except_ite_eq_ok, except_ite_eq_ok, except_ite_eq_ok, except_ite_eq_ok, except_ite_eq_ok]
    refine ⟨not_or.mpr ⟨not_not.mpr hr0, not_not.mpr hr1⟩, by omega, not_not.mpr hsalt, by omega,
      by omega, ?_⟩
    exact (decodeFields_eq_ok hsalt).mpr ⟨⟨rfl, hcl, hsl, htl⟩, hfields⟩

theorem decode_ne_panic {b : Bytes payloadPlaintextLen} : decode b ≠ .error .panic := by
  obtain ⟨k, c0, c1, s, t0, t1, r0, r1, hread⟩ := exists_head b
  unfold decode
  rw [hread]
  dsimp only
  cases DeniableKindTag.fromU8 k with
  | none => exact nofun
  | some kind =>
      dsimp only
      split
      · exact nofun
      split
      · exact nofun
      split
      · exact nofun
      split
      · exact nofun
      split
      · exact nofun
      next hbudget =>
        have hb := b.length_val
        unfold payloadPlaintextLen at hb
        unfold materialBudget at hbudget
        obtain ⟨p, hp⟩ := @decodeFields_returns b.val kind (leNat [c0, c1]) s.toNat (leNat [t0, t1])
          (by unfold payloadHeaderLen; omega)
        rw [hp]
        exact nofun

/-- A payload that `new` lets through is written, with any padding, and read back;
a buffer is read exactly if it was written from the payload that it gives; and no
buffer makes `decode` panic. -/
theorem slot_payload_codec_exact :
    (∀ kind m nonce ctAndTag p random, SlotPayload.new kind m nonce ctAndTag = .ok p →
      ∃ b, p.encode random = .ok b ∧ decode b = .ok p) ∧
    (∀ b p, decode b = .ok p ↔
      SlotPayload.new p.kind p.material p.wrappedMvkNonce p.wrappedMvkCtAndTag = .ok p ∧
        ∃ random, p.encode random = .ok b) ∧
    ∀ b, decode b ≠ .error .panic := by
  refine ⟨fun kind m nonce ctAndTag p random hnew => ?_, fun b p => ?_, fun b => decode_ne_panic⟩
  · obtain ⟨hfits, rfl⟩ := SlotPayload.new_eq_ok.mp hnew
    have hle := SlotPayload.fields_le (p := ⟨kind, m, nonce, ctAndTag⟩) hfits
    obtain ⟨b, hb⟩ : ∃ b, SlotPayload.encode ⟨kind, m, nonce, ctAndTag⟩ random = .ok b :=
      ⟨_, dif_pos hle⟩
    exact ⟨b, hb, decode_eq_ok.mpr ⟨hfits, SlotPayload.encode_eq_ok.mp ⟨random, hb⟩⟩⟩
  · rw [decode_eq_ok, SlotPayload.encode_eq_ok, SlotPayload.new_eq_ok]
    exact ⟨fun h => ⟨⟨h.1, rfl⟩, h.2⟩, fun h => ⟨h.1.1, h.2⟩⟩

end Luksbox.PayloadCodec
