import Luksbox.Model.MetadataRegion
import Luksbox.Proofs.AnchorFile

/-!
# What is in a metadata region, and what is left of it

The reader finds the nonce, the length and the box where the writer put them,
masked or not, and whatever bytes a region has, the length in it is checked
before it is used (`readMetadata_ok`, `readMetadata_ne_panic`).

Of the two copies the mirror is replaced as a whole and the region is not. So a
write that fails or is torn leaves one copy that holds what was there or what
was to be there, and nothing brings back what an acknowledged write has replaced.
The set of the plaintexts that may still be found is carried along a run.
-/

namespace Luksbox.MetadataRegion

open Lib Luksbox.Core
open Anchor (toLeBytes toLeBytes_length toLeBytes_ofNat ofNat_leNat_toLeBytes)
open Pq (CommitFault SealsWithTag)

/-! ## The codec -/

section Codec

variable {c : Crypto} {k : Keys} {region pt : List UInt8} {regionLen : Nat} {draws : Draws}

/-- Masking twice is not masking. -/
theorem masked_masked {nonce : List UInt8} {len : UInt64} :
    k.masked c nonce (k.masked c nonce len) = len := by
  unfold Keys.masked
  cases k.maskLen with
  | false => rfl
  | true =>
      rw [if_pos rfl, if_pos rfl, UInt64.xor_assoc, UInt64.xor_self, UInt64.xor_zero]

/-- What stands at the front of a region that holds a box. -/
def front (c : Crypto) (k : Keys) (nonce : Bytes 12) (ct : List UInt8) : List UInt8 :=
  nonce.val ++ toLeBytes (k.masked c nonce.val (UInt64.ofNat ct.length)) ++ ct

theorem front_length {nonce : Bytes 12} {ct : List UInt8} :
    (front c k nonce ct).length = 20 + ct.length := by
  unfold front
  rw [List.length_append, List.length_append, toLeBytes_length, nonce.property]

theorem hasAt_front {nonce : Bytes 12} {ct : List UInt8} :
    HasAt region 0 (front c k nonce ct)
      ↔ HasAt region 0 nonce.val
        ∧ HasAt region 12 (toLeBytes (k.masked c nonce.val (UInt64.ofNat ct.length)))
        ∧ HasAt region 20 ct := by
  unfold front
  rw [hasAt_append, hasAt_append, List.length_append, toLeBytes_length, nonce.property, and_assoc]

/-- A region is read as `pt` exactly if a box that opens to it stands at its
front, behind its nonce and its length. -/
theorem readMetadata_ok (hlen : region.length < 2 ^ 64) :
    readMetadata c k region = .ok pt
      ↔ ∃ nonce ct, HasAt region 0 (front c k nonce ct) ∧ tagLen ≤ ct.length
        ∧ c.aeadOpen k.suite (k.metadataKey c) nonce (k.aad (UInt64.ofNat ct.length)) ct
          = some pt := by
  constructor
  · intro h
    unfold readMetadata at h
    obtain ⟨hlong, h⟩ := except_ite_eq_ok.mp h
    obtain ⟨nonce, hnonce, h⟩ := except_bind_eq_ok.mp h
    obtain ⟨field, hfield, h⟩ := except_bind_eq_ok.mp h
    obtain ⟨-, h⟩ := except_ite_eq_ok.mp h
    obtain ⟨hbounds, h⟩ := except_ite_eq_ok.mp h
    obtain ⟨ct, hct, h⟩ := except_bind_eq_ok.mp h
    rw [okOr_eq_ok, sliceOf_eq_some_iff] at hnonce hfield hct
    split at h
    next hn =>
      have hctLen := hct.1
      have hfieldLen : field.length = 8 := by
        have hend := hfield.1
        unfold nonceLen lenFieldLen at hend
        omega
      have hlenEq : k.masked c nonce (UInt64.ofNat (leNat field)) = UInt64.ofNat ct.length := by
        rw [← Nat.add_left_cancel hctLen, UInt64.ofNat_toNat]
      rw [hlenEq, okOr_eq_ok] at h
      refine ⟨⟨nonce, hn⟩, ct, hasAt_front.mpr ⟨hnonce.2, ?_, hct.2⟩, ?_, h⟩
      · rw [← hlenEq, masked_masked, toLeBytes_ofNat hfieldLen]
        exact hfield.2
      · rw [← Nat.add_left_cancel hctLen]
        exact Nat.le_of_not_lt fun hlt => hbounds (.inl hlt)
    · cases h
  · rintro ⟨nonce, ct, hat, htag, hopen⟩
    have hfit := hat.le
    rw [front_length] at hfit
    obtain ⟨hnonce, hfield, hct⟩ := hasAt_front.mp hat
    have hlenNat : (UInt64.ofNat ct.length).toNat = ct.length :=
      UInt64.toNat_ofNat_of_lt' (show ct.length < 2 ^ 64 by omega)
    unfold tagLen at htag
    unfold readMetadata
    rw [if_neg (by unfold metadataOverhead; omega)]
    refine except_bind_eq_ok.mpr ⟨nonce.val, ?_, ?_⟩
    · rw [okOr_eq_ok, sliceOf_eq_some_iff, nonce.property]
      exact ⟨rfl, hnonce⟩
    refine except_bind_eq_ok.mpr
      ⟨toLeBytes (k.masked c nonce.val (UInt64.ofNat ct.length)), ?_, ?_⟩
    · rw [okOr_eq_ok, sliceOf_eq_some_iff, toLeBytes_length]
      exact ⟨rfl, hfield⟩
    dsimp only
    rw [ofNat_leNat_toLeBytes, masked_masked, hlenNat]
    unfold nonceLen lenFieldLen tagLen
    rw [if_neg (by omega), if_neg (by omega)]
    refine except_bind_eq_ok.mpr ⟨ct, ?_, ?_⟩
    · rw [okOr_eq_ok, sliceOf_eq_some_iff]
      exact ⟨rfl, hct⟩
    rw [dif_pos nonce.property, okOr_eq_ok]
    exact hopen

theorem readMetadata_ne_panic : readMetadata c k region ≠ .error .panic := by
  unfold readMetadata
  split
  · exact nofun
  next hlong =>
    unfold metadataOverhead at hlong
    refine except_bind_ne_error (okOr_ne_error ?_) fun nonce hnonce => ?_
    · obtain ⟨m, hm, -⟩ := @sliceOf_of_le _ region 0 12 (by decide) (by omega)
      exact ⟨m, hm⟩
    refine except_bind_ne_error (okOr_ne_error ?_) fun field _ => ?_
    · obtain ⟨m, hm, -⟩ := @sliceOf_of_le _ region 12 20 (by decide) (by omega)
      exact ⟨m, hm⟩
    rw [okOr_eq_ok, sliceOf_eq_some_iff] at hnonce
    have hlen : nonce.length = 12 := by
      have hend := hnonce.1
      unfold nonceLen at hend
      omega
    dsimp only
    split
    · exact nofun
    · split
      · exact nofun
      next hbounds =>
        refine except_bind_ne_error (okOr_ne_error ?_) fun ct _ => ?_
        · obtain ⟨m, hm, -⟩ := sliceOf_of_le (Nat.le_add_right _ _)
            (Nat.le_of_not_lt fun hlt => hbounds (.inr hlt))
          exact ⟨m, hm⟩
        cases c.aeadOpen k.suite (k.metadataKey c) ⟨nonce, hlen⟩
            (k.aad (k.masked c nonce (UInt64.ofNat (leNat field)))) ct with
        | none => exact nofun
        | some pt => exact nofun

theorem writeMetadata_ok (htag : ∀ suite, SealsWithTag c suite)
    (h : writeMetadata c k pt regionLen draws = .ok region) :
    pt.length + metadataOverhead ≤ regionLen ∧ ∃ nonce ct rest,
      c.aeadSeal k.suite (k.metadataKey c) nonce (k.aad (UInt64.ofNat ct.length)) pt = some ct
      ∧ tagLen ≤ ct.length ∧ region = front c k nonce ct ++ rest
      ∧ region.length = regionLen := by
  unfold writeMetadata at h
  obtain ⟨hfit, h⟩ := except_ite_eq_ok.mp h
  obtain ⟨nonce, -, h⟩ := except_bind_eq_ok.mp h
  obtain ⟨ct, hct, h⟩ := except_bind_eq_ok.mp h
  obtain ⟨padding, -, h⟩ := except_bind_eq_ok.mp h
  obtain ⟨hroom, h⟩ := except_ite_eq_ok.mp h
  rw [okOr_eq_ok] at hct
  have hlen : ct.length = pt.length + tagLen := htag _ _ _ _ _ _ hct
  rw [← hlen] at hct h
  refine ⟨Nat.le_of_not_lt hfit, nonce, ct, _, hct, ?_, (Except.ok.inj h).symm, ?_⟩
  · rw [hlen]
    exact Nat.le_add_left _ _
  · rw [← Except.ok.inj h]
    have hdrop : ((List.range regionLen).map padding).length = regionLen := by
      rw [List.length_map, List.length_range]
    have hfront : (nonce.val ++ toLeBytes (k.masked c nonce.val (UInt64.ofNat ct.length)) ++ ct).length
        = 20 + ct.length := front_length
    rw [List.length_append, hfront, List.length_drop, hdrop]
    unfold nonceLen lenFieldLen at hroom ⊢
    omega

/-- What fits is written, once the draws and the seal have succeeded. -/
theorem writeMetadata_fits (htag : ∀ suite, SealsWithTag c suite) {nonce : Bytes 12} {padding : Nat → UInt8}
    {ct : List UInt8} (hfit : pt.length + metadataOverhead ≤ regionLen)
    (hseal : c.aeadSeal k.suite (k.metadataKey c) nonce
      (k.aad (UInt64.ofNat (pt.length + tagLen))) pt = some ct) :
    ∃ region, writeMetadata c k pt regionLen ⟨some nonce, some padding⟩ = .ok region := by
  have hlen : ct.length = pt.length + tagLen := htag _ _ _ _ _ _ hseal
  have hover : metadataOverhead = nonceLen + lenFieldLen + tagLen := rfl
  unfold writeMetadata
  rw [if_neg (by omega)]
  simp only [okOr, hseal, Except.bind, bind]
  rw [if_neg (by omega)]
  exact ⟨_, rfl⟩

/-- A region that was written is read as what was written. -/
theorem readMetadata_written (hc : c.OpensSealed) (htag : ∀ suite, SealsWithTag c suite)
    (hlen : regionLen < 2 ^ 64) (h : writeMetadata c k pt regionLen draws = .ok region) :
    readMetadata c k region = .ok pt := by
  obtain ⟨-, nonce, ct, rest, hseal, hlong, rfl, hregion⟩ := writeMetadata_ok htag h
  refine (readMetadata_ok (hregion ▸ hlen)).mpr ⟨nonce, ct, ?_, hlong, hc.open_seal hseal⟩
  exact ⟨Nat.zero_le _, List.prefix_append _ _⟩

end Codec

/-- The codec of a region of any size, with and without the mask. What fits is
written and read again, and of the bytes a region may have those are read that
hold a box in the place of one. -/
theorem metadata_region_exact {c : Crypto} (hc : c.OpensSealed) (htag : ∀ suite, SealsWithTag c suite) (k : Keys) :
    (∀ pt regionLen draws region, regionLen < 2 ^ 64 →
        writeMetadata c k pt regionLen draws = .ok region →
        pt.length + metadataOverhead ≤ regionLen ∧ region.length = regionLen
          ∧ readMetadata c k region = .ok pt)
      ∧ (∀ pt regionLen nonce padding ct, pt.length + metadataOverhead ≤ regionLen →
        c.aeadSeal k.suite (k.metadataKey c) nonce
          (k.aad (UInt64.ofNat (pt.length + tagLen))) pt = some ct →
        ∃ region, writeMetadata c k pt regionLen ⟨some nonce, some padding⟩ = .ok region)
      ∧ ∀ region, readMetadata c k region ≠ .error .panic
        ∧ (region.length < 2 ^ 64 → ∀ pt, readMetadata c k region = .ok pt
          ↔ ∃ nonce ct, HasAt region 0 (front c k nonce ct) ∧ tagLen ≤ ct.length
            ∧ c.aeadOpen k.suite (k.metadataKey c) nonce (k.aad (UInt64.ofNat ct.length)) ct
              = some pt) := by
  refine ⟨fun pt regionLen draws region hlen h => ?_,
    fun _ _ _ _ _ hfit hseal => writeMetadata_fits htag hfit hseal, fun region => ?_⟩
  · obtain ⟨hfit, _, _, _, -, -, -, hregion⟩ := writeMetadata_ok htag h
    exact ⟨hfit, hregion, readMetadata_written hc htag hlen h⟩
  · exact ⟨readMetadata_ne_panic, fun hlen pt => readMetadata_ok hlen⟩

section Sample

def sampleKeys : Keys := ⟨.aes256GcmSiv, sampleMvk, Bytes.zero 32, true⟩

def sampleDraws : Draws := ⟨some (firstBytes 12 [1]), some fun i => UInt8.ofNat i⟩

/-- The region a small tree is written to. -/
def sampleRegion (pt : List UInt8) : List UInt8 :=
  match writeMetadata plainCrypto sampleKeys pt 64 sampleDraws with
  | .ok region => region
  | .error _ => []

/-- A region with a masked length. -/
theorem metadata_region_exact_masked :
    readMetadata plainCrypto sampleKeys (sampleRegion [1, 2, 3]) = .ok [1, 2, 3] := by
  have hwritten : writeMetadata plainCrypto sampleKeys [1, 2, 3] 64 sampleDraws
      = .ok (sampleRegion [1, 2, 3]) := by decide +kernel
  exact ((metadata_region_exact plainCrypto_opensSealed Anchor.plainCrypto_tag sampleKeys).1 _ _ _ _
    (by decide) hwritten).2.2

end Sample

/-! ## Writes and what they leave -/

/-- What a write or damage to the region may leave there. Nobody has the key, so
bytes that were torn open to what was there, to what was to be there, or not at
all, and bytes from elsewhere to what was there or not at all. -/
def Store.Fair (c : Crypto) (s : Store) : Event → Prop
  | .write pt _ _ (.torn left) => ∀ p, readMetadata c s.keys left = .ok p →
      p = pt ∨ readMetadata c s.keys s.live = .ok p
  | .damage bytes => ∀ p, readMetadata c s.keys bytes = .ok p →
      readMetadata c s.keys s.live = .ok p
  | _ => True

/-- The plaintexts that may be found after a step: after a write that returned,
the one it has written, and after one that failed at the files, this one too. -/
def Store.found (c : Crypto) (s : Store) (before : List (List UInt8)) :
    Event → List (List UInt8)
  | .write pt draws mirror live =>
      match (s.write c pt draws mirror live).1 with
      | .ok () => [pt]
      | .error .io => pt :: before
      | .error _ => before
  | _ => before

def Store.RunsFair (c : Crypto) : Store → List Event → Prop
  | _, [] => True
  | s, e :: rest => s.Fair c e ∧ RunsFair c (s.step c e) rest

def Store.foundRun (c : Crypto) : Store → List (List UInt8) → List Event → List (List UInt8)
  | _, before, [] => before
  | s, before, e :: rest => foundRun c (s.step c e) (s.found c before e) rest

/-- The region opens to one of these plaintexts or not at all, and a mirror that
there is to one of them. -/
structure Store.Holds (c : Crypto) (s : Store) (pts : List (List UInt8)) : Prop where
  size : s.regionSize < 2 ^ 64
  live : ∀ p, readMetadata c s.keys s.live = .ok p → p ∈ pts
  mirror : ∀ bytes, s.mirror = some bytes →
    bytes.length = s.regionSize ∧ ∃ p ∈ pts, readMetadata c s.keys bytes = .ok p
  mirrored : s.mirrored = s.mirror.isSome

namespace Store

variable {c : Crypto} {s : Store} {pts pts' : List (List UInt8)} {pt region : List UInt8}
  {draws : Draws} {e : Event}

namespace Holds

theorem mono (h : s.Holds c pts) (hsub : pts ⊆ pts') : s.Holds c pts' := by
  refine ⟨h.size, fun p hp => hsub (h.live p hp), fun bytes hbytes => ?_, h.mirrored⟩
  obtain ⟨hlen, p, hp, hread⟩ := h.mirror bytes hbytes
  exact ⟨hlen, p, hsub hp, hread⟩

/-- Other bytes in the region. -/
theorem withLive (h : s.Holds c pts) {bytes : List UInt8}
    (hread : ∀ p, readMetadata c s.keys bytes = .ok p → p ∈ pts) :
    Holds c { s with live := bytes } pts :=
  ⟨h.size, hread, h.mirror, h.mirrored⟩

/-- A mirror in the place of the one there is. -/
theorem withMirror (h : s.Holds c pts) (hm : s.mirrored = true)
    (hlen : region.length = s.regionSize) (hp : pt ∈ pts)
    (hread : readMetadata c s.keys region = .ok pt) :
    Holds c { s with mirror := some region } pts := by
  refine ⟨h.size, h.live, fun bytes hbytes => ?_, hm⟩
  rw [← Option.some.inj hbytes]
  exact ⟨hlen, pt, hp, hread⟩

theorem read_same {readable : Readable} :
    (s.read c readable).2 = s ∨ (s.read c readable).2 = { s with recovered := true } := by
  unfold Store.read
  split
  · exact .inl rfl
  · split
    · exact .inl rfl
    · split
      · exact .inl rfl
      · split
        · exact .inl rfl
        · split
          · exact .inr rfl
          · exact .inl rfl

/-- What a read finds. With a mirror it finds something, if the file still has the
region. -/
theorem read_mem (h : s.Holds c pts) {readable : Readable} {p : List UInt8}
    (hp : (s.read c readable).1 = .ok p) : p ∈ pts := by
  unfold Store.read at hp
  split at hp
  · cases hp
  · split at hp
    next p' hlive =>
      cases hp
      exact h.live p hlive
    · split at hp
      · cases hp
      next bytes hmirror =>
        obtain ⟨-, q, hq, hread⟩ := h.mirror bytes hmirror
        split at hp
        · cases hp
        · rw [hread] at hp
          cases hp
          exact hq

theorem read_mirrored (h : s.Holds c pts) (hm : s.mirrored = true)
    (hregion : s.live.length = s.regionSize) :
    ∃ p ∈ pts, (s.read c ⟨true, true⟩).1 = .ok p := by
  rw [h.mirrored] at hm
  obtain ⟨bytes, hbytes⟩ := Option.isSome_iff_exists.mp hm
  obtain ⟨hlen, q, hq, hread⟩ := h.mirror bytes hbytes
  unfold Store.read
  rw [if_neg (not_or.mpr ⟨nofun, not_not.mpr hregion⟩)]
  cases hlive : readMetadata c s.keys s.live with
  | ok p => exact ⟨p, h.live p hlive, rfl⟩
  | error e =>
      rw [hbytes]
      dsimp only
      rw [if_neg (not_or.mpr ⟨nofun, not_not.mpr hlen⟩), hread]
      exact ⟨q, hq, rfl⟩

end Holds

/-- A write that returns leaves what it has written in both places. -/
theorem write_ok (hc : c.OpensSealed) (htag : ∀ suite, SealsWithTag c suite) (hsize : s.regionSize < 2 ^ 64)
    (hm : s.mirrored = false → s.mirror = none) {mirror : CommitFault} {live : LiveFault}
    (h : (s.write c pt draws mirror live).1 = .ok ()) :
    (s.write c pt draws mirror live).2.Holds c [pt] := by
  unfold Store.write at h ⊢
  split at h
  · cases h
  next hfit =>
    rw [if_neg hfit]
    cases hwritten : writeMetadata c s.keys pt s.regionSize draws with
    | error e =>
        rw [hwritten] at h
        cases h
    | ok region =>
        rw [hwritten] at h
        have hread := readMetadata_written hc htag hsize hwritten
        obtain ⟨-, _, _, _, -, -, -, hlen⟩ := writeMetadata_ok htag hwritten
        have hlive : ∀ p, readMetadata c s.keys region = .ok p → p ∈ [pt] := fun p hp =>
          List.mem_singleton.mpr (Except.ok.inj (hp.symm.trans hread))
        dsimp only at h ⊢
        unfold writeMirror at h ⊢
        cases hmirrored : s.mirrored with
        | false =>
            rw [hmirrored, if_neg Bool.false_ne_true] at h
            rw [if_neg Bool.false_ne_true]
            cases live with
            | none =>
                have hnone := hm hmirrored
                refine ⟨hsize, hlive, fun bytes hbytes => ?_, ?_⟩
                · cases hnone.symm.trans hbytes
                · exact hmirrored.trans (congrArg Option.isSome hnone).symm
            | before => cases h
            | torn left => cases h
            | after => cases h
        | true =>
            rw [hmirrored, if_pos rfl] at h
            rw [if_pos rfl]
            cases mirror with
            | none =>
                cases live with
                | none =>
                    refine ⟨hsize, hlive, fun bytes hbytes => ?_, rfl⟩
                    rw [← Option.some.inj hbytes]
                    exact ⟨hlen, pt, List.mem_singleton_self pt, hread⟩
                | before => cases h
                | torn left => cases h
                | after => cases h
            | before => cases h
            | after => cases h

/-- One that fails leaves one or the other. -/
theorem write_failed (hc : c.OpensSealed) (htag : ∀ suite, SealsWithTag c suite) (h : s.Holds c pts)
    {mirror : CommitFault} {live : LiveFault} (hfair : s.Fair c (.write pt draws mirror live))
    (hfail : (s.write c pt draws mirror live).1 ≠ .ok ()) :
    (s.write c pt draws mirror live).2.Holds c (pt :: pts) := by
  have hmore := h.mono (List.subset_cons_self pt pts)
  unfold Store.write at hfail ⊢
  split
  · exact hmore
  next hfit =>
    rw [if_neg hfit] at hfail
    cases hwritten : writeMetadata c s.keys pt s.regionSize draws with
    | error e => exact hmore
    | ok region =>
        rw [hwritten] at hfail
        have hread := readMetadata_written hc htag h.size hwritten
        obtain ⟨-, _, _, _, -, -, -, hlen⟩ := writeMetadata_ok htag hwritten
        have hnew : ∀ p, readMetadata c s.keys region = .ok p → p ∈ pt :: pts := fun p hp =>
          List.mem_cons.mpr (.inl (Except.ok.inj (hp.symm.trans hread)))
        have htorn : ∀ left, live = .torn left → ∀ p, readMetadata c s.keys left = .ok p →
            p ∈ pt :: pts := by
          rintro left rfl p hp
          rcases hfair p hp with rfl | hp
          · exact List.mem_cons_self
          · exact List.mem_cons_of_mem _ (h.live p hp)
        dsimp only at hfail ⊢
        unfold writeMirror at hfail ⊢
        cases hmirrored : s.mirrored with
        | false =>
            rw [hmirrored, if_neg Bool.false_ne_true] at hfail
            rw [if_neg Bool.false_ne_true]
            cases live with
            | none => exact absurd rfl hfail
            | before => exact hmore
            | torn left => exact hmore.withLive (htorn left rfl)
            | after => exact hmore.withLive hnew
        | true =>
            rw [hmirrored, if_pos rfl] at hfail
            rw [if_pos rfl]
            have hkept := hmore.withMirror hmirrored hlen List.mem_cons_self hread
            rw [hmirrored] at hkept
            cases mirror with
            | none =>
                cases live with
                | none => exact absurd rfl hfail
                | before => exact hkept
                | torn left => exact hkept.withLive (htorn left rfl)
                | after => exact hkept.withLive hnew
            | before => exact hmore
            | after => exact hkept

/-- One that is rejected before it comes to the files leaves everything. -/
theorem write_rejected {mirror : CommitFault} {live : LiveFault} {e : Error}
    (h : (s.write c pt draws mirror live).1 = .error e) (he : e ≠ .io) :
    (s.write c pt draws mirror live).2 = s := by
  unfold Store.write at h ⊢
  split
  · rfl
  next hfit =>
    rw [if_neg hfit] at h
    cases hwritten : writeMetadata c s.keys pt s.regionSize draws with
    | error e' => rfl
    | ok region =>
        rw [hwritten] at h
        dsimp only at h
        split at h
        · exact absurd (Except.error.inj h).symm he
        · split at h
          · exact absurd (Except.error.inj h).symm he
          · cases h

/-- Every step keeps what may be found. -/
theorem Holds.step (hc : c.OpensSealed) (htag : ∀ suite, SealsWithTag c suite) (h : s.Holds c pts)
    (hfair : s.Fair c e) : (s.step c e).Holds c (s.found c pts e) := by
  cases e with
  | write pt draws mirror live =>
      have hfailed := @write_failed c s pts pt draws hc htag h mirror live hfair
      unfold Store.found
      dsimp only
      cases hresult : (s.write c pt draws mirror live).1 with
      | ok u =>
          refine write_ok hc htag h.size (fun hm => ?_) hresult
          rw [h.mirrored] at hm
          exact Option.not_isSome_iff_eq_none.mp (Bool.eq_false_iff.mp hm)
      | error e =>
          rw [hresult] at hfailed
          have hrejected : e ≠ .io → Holds c (s.write c pt draws mirror live).2 pts := by
            intro he
            rw [write_rejected hresult he]
            exact h
          cases e with
          | io => exact hfailed nofun
          | crypto => exact hrejected nofun
          | metadataTooLarge => exact hrejected nofun
          | metadataCorrupt => exact hrejected nofun
          | panic => exact hrejected nofun
  | read readable =>
      show Holds c (s.read c readable).2 pts
      rcases @Holds.read_same c s readable with hsame | hsame
      · rw [hsame]
        exact h
      · rw [hsame]
        exact ⟨h.size, h.live, h.mirror, h.mirrored⟩
  | damage bytes => exact h.withLive fun p hp => h.live p (hfair p hp)

theorem Holds.run (hc : c.OpensSealed) (htag : ∀ suite, SealsWithTag c suite) {events : List Event}
    (h : s.Holds c pts) (hfair : s.RunsFair c events) :
    (s.run c events).Holds c (s.foundRun c pts events) := by
  induction events generalizing s pts with
  | nil => exact h
  | cons e rest ih => exact ih (h.step hc htag hfair.1) hfair.2

end Store

/-- What is read after any run of writes, wherever they fail and however the
region is torn or damaged: the plaintext of the last write that returned or of
one that was tried after it, never an older one. With a mirror it can be read as
long as the file is not cut off inside the region. -/
theorem metadata_survives {c : Crypto} (hc : c.OpensSealed) (htag : ∀ suite, SealsWithTag c suite) {s : Store}
    (hsize : s.regionSize < 2 ^ 64) (hm : s.mirrored = false → s.mirror = none)
    {pt : List UInt8} {draws : Draws} {mirror : CommitFault} {live : LiveFault}
    (hfirst : (s.write c pt draws mirror live).1 = .ok ()) {events : List Event}
    (hfair : (s.write c pt draws mirror live).2.RunsFair c events) :
    let first := (s.write c pt draws mirror live).2
    (∀ readable p, ((first.run c events).read c readable).1 = .ok p →
        p ∈ first.foundRun c [pt] events)
      ∧ ((first.run c events).mirrored = true →
        (first.run c events).live.length = (first.run c events).regionSize →
        ∃ p ∈ first.foundRun c [pt] events,
          ((first.run c events).read c ⟨true, true⟩).1 = .ok p) := by
  intro first
  have hholds : (first.run c events).Holds c (first.foundRun c [pt] events) :=
    (Store.write_ok hc htag hsize hm hfirst).run hc htag hfair
  exact ⟨fun _ p hp => hholds.read_mem hp, hholds.read_mirrored⟩

section Sample

/-- A new vault, whose region is empty. -/
def sampleStore : Store := ⟨sampleKeys, 64, true, List.replicate 64 0, none, false⟩

/-- The second write stops half way and leaves a region that does not open. -/
def tornEvents : List Event :=
  [.write [4, 5] sampleDraws .none (.torn (List.replicate 64 7)), .read ⟨true, true⟩]

theorem metadata_survives_torn :
    let first := (sampleStore.write plainCrypto [1, 2, 3] sampleDraws .none .none).2
    ∃ p, ((first.run plainCrypto tornEvents).read plainCrypto ⟨true, true⟩).1 = .ok p
      ∧ (p = [4, 5] ∨ p = [1, 2, 3]) := by
  intro first
  have hfirst : (sampleStore.write plainCrypto [1, 2, 3] sampleDraws .none .none).1 = .ok () := by
    decide +kernel
  have hdead : ∀ p, readMetadata plainCrypto sampleKeys (List.replicate 64 7) ≠ .ok p := by
    have hbad : (readMetadata plainCrypto sampleKeys (List.replicate 64 7)).toOption = none := by
      decide +kernel
    intro p hp
    rw [hp] at hbad
    cases hbad
  have hfair : first.RunsFair plainCrypto tornEvents :=
    ⟨fun p hp => absurd hp (hdead p), trivial, trivial⟩
  obtain ⟨-, hfound⟩ := metadata_survives plainCrypto_opensSealed Anchor.plainCrypto_tag
    (show (64 : Nat) < 2 ^ 64 by decide) (fun h => absurd h (by decide)) hfirst hfair
  obtain ⟨p, hp, hread⟩ := hfound (by decide +kernel) (by decide +kernel)
  have hcandidates : first.foundRun plainCrypto [[1, 2, 3]] tornEvents = [[4, 5], [1, 2, 3]] := by
    decide +kernel
  rw [hcandidates] at hp
  refine ⟨p, hread, ?_⟩
  rcases List.mem_cons.mp hp with hp | hp
  · exact .inl hp
  · exact .inr (List.mem_singleton.mp hp)

end Sample

end Luksbox.MetadataRegion
