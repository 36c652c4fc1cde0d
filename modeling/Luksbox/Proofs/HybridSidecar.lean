import Luksbox.Model.HybridSidecar

/-!
# The hybrid sidecar codec is exact

The parser of the entries succeeds on exactly the encodings of well-formed
entries. This is said once for one entry (`readV2Entry_ok`), with the place of
the entry left open, and carried along the loop (`readV2Entries_ok`); the header
in front is cut off in `parseBundle_ok`. Both directions of the claim are then
readings of one equivalence (`parseBundle_v2_iff` and `parseBundle_v3_iff`): what
a writer returned is parsed, and what is parsed is what the writer of that
version would return, up to the reserved bytes.
-/

namespace Luksbox.Sidecar

open Lib Pq

/-! ## Entries -/

/-- The blobs have the lengths of the level. -/
structure HybridEntry.WellFormed (e : HybridEntry) : Prop where
  pubkey : e.pubkey.length = e.level.publicKeyLen
  ciphertext : e.ciphertext.length = e.level.ciphertextLen

/-- What the writers ask of the entries. -/
structure Writable (entries : List HybridEntry) : Prop where
  count : entries.length ≤ maxEntries
  lens : ∀ e ∈ entries, e.WellFormed
  slots : (entries.map HybridEntry.slotIdx).Nodup

theorem fromLevelByte_ok {b : UInt8} {level : PqParams} :
    PqParams.fromLevelByte b = .ok level ↔ b = level.levelByte := by
  unfold PqParams.fromLevelByte
  constructor
  · intro h
    split at h
    next hb => rw [← Except.ok.inj h, hb]; rfl
    split at h
    next hb => rw [← Except.ok.inj h, hb]; rfl
    · cases h
  · rintro rfl
    cases level <;> rfl

theorem encodeEntry_length {e : HybridEntry} (h : e.WellFormed) :
    (encodeEntry e).length = 2 + e.level.publicKeyLen + e.level.ciphertextLen := by
  unfold encodeEntry
  rw [List.length_append, List.length_append, h.pubkey, h.ciphertext]
  rfl

/-- The fields of an entry, one behind the other. -/
theorem hasAt_encodeEntry {bytes : List UInt8} {off : Nat} {e : HybridEntry} :
    HasAt bytes off (encodeEntry e)
      ↔ HasAt bytes off [e.slotIdx] ∧ HasAt bytes (off + 1) [e.level.levelByte]
        ∧ HasAt bytes (off + 2) e.pubkey
        ∧ HasAt bytes (off + 2 + e.pubkey.length) e.ciphertext := by
  unfold encodeEntry
  rw [hasAt_append, hasAt_append, hasAt_append]
  have hlen : ([e.slotIdx] ++ [e.level.levelByte] ++ e.pubkey).length = 2 + e.pubkey.length := by
    rw [List.length_append]
    rfl
  rw [hlen, and_assoc, and_assoc, Nat.add_assoc]
  rfl

section Entries

variable {bytes : List UInt8} {i off stop : Nat} {e : HybridEntry} {entries : List HybridEntry}

/-- An entry is read exactly if its encoding stands there. -/
theorem readV2Entry_ok :
    readV2Entry bytes i off = .ok (e, stop)
      ↔ e.WellFormed ∧ stop = off + (encodeEntry e).length ∧ HasAt bytes off (encodeEntry e) := by
  constructor
  · intro h
    unfold readV2Entry at h
    obtain ⟨-, h⟩ := except_ite_eq_ok.mp h
    obtain ⟨slotIdx, hslot, h⟩ := except_bind_eq_ok.mp h
    obtain ⟨levelByte, hbyte, h⟩ := except_bind_eq_ok.mp h
    rw [okOr_eq_ok, getElem?_eq_some_iff_hasAt] at hslot hbyte
    split at h
    · cases h
    next level hlevel =>
      obtain ⟨-, h⟩ := except_ite_eq_ok.mp h
      obtain ⟨pk, hpk, h⟩ := except_bind_eq_ok.mp h
      obtain ⟨ct, hct, h⟩ := except_bind_eq_ok.mp h
      rw [okOr_eq_ok, sliceOf_eq_some_iff] at hpk hct
      cases h
      rw [fromLevelByte_ok.mp hlevel] at hbyte
      have hpkLen : off + 2 + level.publicKeyLen = off + 2 + pk.length := hpk.1
      have hctLen : off + 2 + level.publicKeyLen + level.ciphertextLen
          = off + 2 + level.publicKeyLen + ct.length := hct.1
      have hw : HybridEntry.WellFormed ⟨slotIdx, level, pk, ct⟩ :=
        ⟨(Nat.add_left_cancel hpkLen).symm, (Nat.add_left_cancel hctLen).symm⟩
      refine ⟨hw, ?_, hasAt_encodeEntry.mpr ⟨hslot, hbyte, hpk.2, ?_⟩⟩
      · rw [encodeEntry_length hw, Nat.add_assoc off 2, Nat.add_assoc off]
      · rw [hw.pubkey]
        exact hct.2
  · rintro ⟨hw, rfl, hat⟩
    have hle := hat.le
    rw [encodeEntry_length hw] at hle ⊢
    obtain ⟨hslot, hbyte, hpk, hct⟩ := hasAt_encodeEntry.mp hat
    rw [← getElem?_eq_some_iff_hasAt] at hslot hbyte
    have hpk := sliceOf_eq_some_iff.mpr ⟨rfl, hpk⟩
    have hct := sliceOf_eq_some_iff.mpr ⟨rfl, hct⟩
    rw [hw.pubkey] at hpk hct
    rw [hw.ciphertext] at hct
    unfold readV2Entry
    refine except_ite_eq_ok.mpr ⟨by omega, ?_⟩
    refine except_bind_eq_ok.mpr ⟨e.slotIdx, okOr_eq_ok.mpr hslot, ?_⟩
    refine except_bind_eq_ok.mpr ⟨e.level.levelByte, okOr_eq_ok.mpr hbyte, ?_⟩
    rw [fromLevelByte_ok.mpr rfl]
    refine except_ite_eq_ok.mpr ⟨by omega, ?_⟩
    refine except_bind_eq_ok.mpr ⟨e.pubkey, okOr_eq_ok.mpr hpk, ?_⟩
    refine except_bind_eq_ok.mpr ⟨e.ciphertext, okOr_eq_ok.mpr hct, ?_⟩
    rw [Nat.add_assoc off 2, Nat.add_assoc off]

theorem readV2Entry_ne_panic : readV2Entry bytes i off ≠ .error .panic := by
  unfold readV2Entry
  split
  · exact nofun
  next hlen =>
    refine except_bind_ne_error (okOr_ne_error (getElem?_of_lt (by omega))) fun slotIdx _ => ?_
    refine except_bind_ne_error (okOr_ne_error (getElem?_of_lt (by omega))) fun levelByte _ => ?_
    split
    · exact nofun
    next level _ =>
      simp only
      split
      · exact nofun
      next hstop =>
        obtain ⟨pk, hpk, -⟩ := @sliceOf_of_le _ bytes (off + 2) (off + 2 + level.publicKeyLen)
          (by omega) (by omega)
        obtain ⟨ct, hct, -⟩ := @sliceOf_of_le _ bytes (off + 2 + level.publicKeyLen)
          (off + 2 + level.publicKeyLen + level.ciphertextLen) (by omega) (by omega)
        rw [hpk, hct]
        exact nofun

theorem encodeEntries_cons : encodeEntries (e :: entries) = encodeEntry e ++ encodeEntries entries :=
  List.flatMap_cons

/-- So is a list of entries. -/
theorem readV2Entries_ok {count : Nat} (hoff : off ≤ bytes.length) :
    readV2Entries bytes count i off = .ok (entries, stop)
      ↔ entries.length = count ∧ (∀ e ∈ entries, e.WellFormed)
        ∧ stop = off + (encodeEntries entries).length ∧ HasAt bytes off (encodeEntries entries) := by
  induction count generalizing i off stop entries with
  | zero =>
      unfold readV2Entries
      constructor
      · intro h
        cases h
        exact ⟨rfl, nofun, rfl, hasAt_nil hoff⟩
      · rintro ⟨hlen, -, rfl, -⟩
        rw [List.length_eq_zero_iff.mp hlen]
        rfl
  | succ count ih =>
      unfold readV2Entries
      constructor
      · intro h
        obtain ⟨⟨e, mid⟩, he, h⟩ := except_bind_eq_ok.mp h
        obtain ⟨⟨rest, last⟩, hrest, h⟩ := except_bind_eq_ok.mp h
        cases h
        obtain ⟨hw, rfl, hat⟩ := readV2Entry_ok.mp he
        obtain ⟨hlen, hws, rfl, hats⟩ := (ih hat.le).mp hrest
        refine ⟨by rw [List.length_cons, hlen], List.forall_mem_cons.mpr ⟨hw, hws⟩, ?_, ?_⟩
        · rw [encodeEntries_cons, List.length_append, Nat.add_assoc]
        · rw [encodeEntries_cons, hasAt_append]
          exact ⟨hat, hats⟩
      · rintro ⟨hlen, hws, rfl, hat⟩
        obtain ⟨e, rest, rfl⟩ := List.exists_cons_of_length_eq_add_one hlen
        rw [encodeEntries_cons, hasAt_append] at hat
        obtain ⟨hw, hws⟩ := List.forall_mem_cons.mp hws
        rw [readV2Entry_ok.mpr ⟨hw, rfl, hat.1⟩]
        have hrest := (ih (i := i + 1) hat.1.le).mpr ⟨Nat.succ.inj hlen, hws, rfl, hat.2⟩
        show (readV2Entries bytes count (i + 1) _ >>= _) = _
        rw [hrest, encodeEntries_cons, List.length_append, ← Nat.add_assoc]
        rfl

theorem readV2Entries_ne_panic {count : Nat} :
    readV2Entries bytes count i off ≠ .error .panic := by
  induction count generalizing i off with
  | zero => exact nofun
  | succ count ih =>
      unfold readV2Entries
      refine except_bind_ne_error readV2Entry_ne_panic fun _ _ => ?_
      exact except_bind_ne_error ih fun _ _ => nofun

/-- The body is read if nothing is left behind the entries. -/
theorem readV2Body_ok {count : Nat} (hoff : off ≤ bytes.length) :
    readV2Body bytes count off = .ok entries
      ↔ entries.length = count ∧ (∀ e ∈ entries, e.WellFormed)
        ∧ bytes.drop off = encodeEntries entries := by
  unfold readV2Body
  constructor
  · intro h
    obtain ⟨⟨es, stop⟩, hread, h⟩ := except_bind_eq_ok.mp h
    obtain ⟨hstop, h⟩ := except_ite_eq_ok.mp h
    cases h
    obtain ⟨hlen, hws, rfl, hat⟩ := (readV2Entries_ok hoff).mp hread
    exact ⟨hlen, hws, hat.drop_eq (not_not.mp hstop)⟩
  · rintro ⟨hlen, hws, hdrop⟩
    have hat : HasAt bytes off (encodeEntries entries) := by
      rw [← hdrop]
      exact hasAt_drop hoff
    have hstop : off + (encodeEntries entries).length = bytes.length := by
      rw [← hdrop, List.length_drop]
      omega
    rw [(readV2Entries_ok hoff).mpr ⟨hlen, hws, rfl, hat⟩]
    show (if _ then _ else _) = _
    rw [if_neg (not_not.mpr hstop)]

theorem readV2Body_ne_panic {count : Nat} : readV2Body bytes count off ≠ .error .panic := by
  unfold readV2Body
  refine except_bind_ne_error readV2Entries_ne_panic fun x _ => ?_
  simp only
  split
  · exact nofun
  · exact nofun

theorem readV1Entries_ne_panic {count : Nat} (hlen : off + count * entryLenV1 ≤ bytes.length) :
    readV1Entries bytes count off ≠ .error .panic := by
  induction count generalizing off with
  | zero => exact nofun
  | succ count ih =>
      have hsucc : (count + 1) * entryLenV1 = count * entryLenV1 + entryLenV1 := Nat.succ_mul _ _
      have hentry : entryLenV1 = 1 + pubkeyLen768 + ciphertextLen768 := rfl
      obtain ⟨pk, hpk, -⟩ := @sliceOf_of_le _ bytes (off + 1) (off + 1 + pubkeyLen768)
        (by omega) (by omega)
      obtain ⟨ct, hct, -⟩ := @sliceOf_of_le _ bytes (off + 1 + pubkeyLen768)
        (off + 1 + pubkeyLen768 + ciphertextLen768) (by omega) (by omega)
      unfold readV1Entries
      refine except_bind_ne_error (okOr_ne_error (getElem?_of_lt (by omega))) fun slotIdx _ => ?_
      refine except_bind_ne_error (okOr_ne_error ⟨pk, hpk⟩) fun _ _ => ?_
      refine except_bind_ne_error (okOr_ne_error ⟨ct, hct⟩) fun _ _ => ?_
      exact except_bind_ne_error (ih (by omega)) fun _ _ => nofun

end Entries

/-! ## Checks -/

theorem rejectDuplicates_ok {seen : UInt8 → Bool} {entries : List HybridEntry} :
    rejectDuplicates seen entries = .ok ()
      ↔ (entries.map HybridEntry.slotIdx).Nodup ∧ ∀ e ∈ entries, seen e.slotIdx = false := by
  induction entries generalizing seen with
  | nil =>
      unfold rejectDuplicates
      exact ⟨fun _ => ⟨List.nodup_nil, nofun⟩, fun _ => rfl⟩
  | cons e rest ih =>
      unfold rejectDuplicates
      rw [except_ite_eq_ok, ih, List.map_cons, List.nodup_cons, List.forall_mem_cons,
        List.mem_map]
      simp only [Bool.not_eq_true, Bool.or_eq_false_iff, decide_eq_false_iff_not, not_exists,
        not_and]
      constructor
      · rintro ⟨he, hnodup, hrest⟩
        exact ⟨⟨fun e' he' heq => (hrest e' he').1 heq, hnodup⟩, he, fun e' he' => (hrest e' he').2⟩
      · rintro ⟨⟨hfresh, hnodup⟩, he, hrest⟩
        exact ⟨he, hnodup, fun e' he' => ⟨hfresh e' he', hrest e' he'⟩⟩

theorem rejectDuplicateSlotIdx_ok {entries : List HybridEntry} :
    rejectDuplicateSlotIdx entries = .ok () ↔ (entries.map HybridEntry.slotIdx).Nodup := by
  unfold rejectDuplicateSlotIdx
  rw [rejectDuplicates_ok]
  exact ⟨fun h => h.1, fun h => ⟨h, fun _ _ => rfl⟩⟩

theorem rejectDuplicates_ne_panic {seen : UInt8 → Bool} {entries : List HybridEntry} :
    rejectDuplicates seen entries ≠ .error .panic := by
  induction entries generalizing seen with
  | nil => exact nofun
  | cons e rest ih =>
      unfold rejectDuplicates
      simp only
      split
      · exact nofun
      · exact ih

theorem checkLens_ok {entries : List HybridEntry} :
    checkLens entries = .ok () ↔ ∀ e ∈ entries, e.WellFormed := by
  induction entries with
  | nil => exact ⟨fun _ => nofun, fun _ => rfl⟩
  | cons e rest ih =>
      unfold checkLens
      rw [except_ite_eq_ok, except_ite_eq_ok, not_not, not_not, ih, List.forall_mem_cons]
      constructor
      · rintro ⟨hpk, hct, hrest⟩
        exact ⟨⟨hpk, hct⟩, hrest⟩
      · rintro ⟨hw, hrest⟩
        exact ⟨hw.pubkey, hw.ciphertext, hrest⟩

theorem validateEntries_ok {entries : List HybridEntry} :
    validateEntries entries = .ok () ↔ Writable entries := by
  unfold validateEntries
  rw [except_ite_eq_ok, except_bind_eq_ok, Nat.not_lt]
  constructor
  · rintro ⟨hcount, ⟨⟩, hlens, hslots⟩
    exact ⟨hcount, checkLens_ok.mp hlens, rejectDuplicateSlotIdx_ok.mp hslots⟩
  · intro h
    exact ⟨h.count, (), checkLens_ok.mpr h.lens, rejectDuplicateSlotIdx_ok.mpr h.slots⟩

/-! ## The writers -/

section Writers

variable {files files' : Files} {path : String} {entries : List HybridEntry} {binding : Bytes 32}
  {fault : CommitFault}

theorem put_self (bytes : List UInt8) : (files.put path bytes) path = some bytes := if_pos rfl

theorem commit_ok {buf : List UInt8} :
    commit files path buf fault = (.ok (), files') ↔ fault = .none ∧ files' = files.put path buf := by
  unfold commit
  cases fault with
  | none => exact ⟨fun h => ⟨rfl, (Prod.mk.inj h).2.symm⟩, fun h => by rw [h.2]; rfl⟩
  | before => exact ⟨nofun, nofun⟩
  | after => exact ⟨nofun, nofun⟩

theorem validated_commit_ok {buf : List UInt8} :
    (match validateEntries entries with
      | .error e => (.error e, files)
      | .ok () => commit files path buf fault) = (.ok (), files')
      ↔ Writable entries ∧ fault = .none ∧ files' = files.put path buf := by
  cases hv : validateEntries entries with
  | error e =>
      have hno : ¬ Writable entries := fun h => by
        rw [validateEntries_ok.mpr h] at hv
        cases hv
      exact ⟨nofun, fun h => absurd h.1 hno⟩
  | ok u =>
      simp only
      rw [commit_ok]
      exact ⟨fun h => ⟨validateEntries_ok.mp hv, h⟩, fun h => h.2⟩

theorem write_ok :
    write files path entries fault = (.ok (), files')
      ↔ Writable entries ∧ fault = .none
        ∧ files' = files.put path
            (encodeHeader versionV2 entries.length ++ encodeEntries entries) :=
  validated_commit_ok

theorem writeWithBinding_ok :
    writeWithBinding files path entries binding fault = (.ok (), files')
      ↔ Writable entries ∧ fault = .none
        ∧ files' = files.put path
            (encodeHeader versionV3 entries.length ++ binding.val ++ encodeEntries entries) :=
  validated_commit_ok

end Writers

/-! ## The whole file -/

/-- The version that a bundle is written in. -/
def SidecarBundle.version (b : SidecarBundle) : UInt8 :=
  match b.binding with
  | none => versionV2
  | some _ => versionV3

/-- What stands behind the header. -/
def SidecarBundle.body (b : SidecarBundle) : List UInt8 :=
  match b.binding with
  | none => encodeEntries b.entries
  | some binding => binding.val ++ encodeEntries b.entries

/-- A file with the given reserved bytes. -/
def framed (version count : UInt8) (reserved body : List UInt8) : List UInt8 :=
  magic ++ [version] ++ [count] ++ reserved ++ body

section Whole

variable {bytes reserved body : List UInt8} {version countByte : UInt8} {bundle : SidecarBundle}

theorem hasAt_framed :
    HasAt bytes 0 (framed version countByte reserved body)
      ↔ HasAt bytes 0 magic ∧ HasAt bytes 8 [version] ∧ HasAt bytes 9 [countByte]
        ∧ HasAt bytes 10 reserved ∧ HasAt bytes (10 + reserved.length) body := by
  unfold framed
  rw [hasAt_append, hasAt_append, hasAt_append, hasAt_append, and_assoc, and_assoc, and_assoc]
  have hlen : (magic ++ [version] ++ [countByte] ++ reserved).length = 10 + reserved.length := by
    rw [List.length_append]
    rfl
  rw [hlen]
  simp only [Nat.zero_add]
  rfl

theorem framed_length :
    (framed version countByte reserved body).length = 10 + reserved.length + body.length := by
  unfold framed
  rw [List.length_append, List.length_append]
  rfl

/-- The parser cuts off the header and reads the body. -/
theorem parseBundle_ok :
    parseBundle bytes = .ok bundle
      ↔ ∃ version countByte reserved body, reserved.length = 6
        ∧ bytes = framed version countByte reserved body
        ∧ countByte.toNat ≤ maxEntries
        ∧ readBody bytes version countByte.toNat = .ok bundle
        ∧ (bundle.entries.map HybridEntry.slotIdx).Nodup := by
  constructor
  · intro h
    unfold parseBundle at h
    obtain ⟨hlen, h⟩ := except_ite_eq_ok.mp h
    obtain ⟨found, hfound, h⟩ := except_bind_eq_ok.mp h
    obtain ⟨hmagic, h⟩ := except_ite_eq_ok.mp h
    obtain ⟨version, hversion, h⟩ := except_bind_eq_ok.mp h
    obtain ⟨countByte, hcountByte, h⟩ := except_bind_eq_ok.mp h
    obtain ⟨hcount, h⟩ := except_ite_eq_ok.mp h
    obtain ⟨b, hbody, h⟩ := except_bind_eq_ok.mp h
    obtain ⟨⟨⟩, hslots, h⟩ := except_bind_eq_ok.mp h
    cases h
    have hlen : 16 ≤ bytes.length := Nat.not_lt.mp hlen
    rw [okOr_eq_ok, sliceOf_eq_some_iff, not_not.mp hmagic] at hfound
    rw [okOr_eq_ok, getElem?_eq_some_iff_hasAt] at hversion hcountByte
    obtain ⟨reserved, hreserved, hsix⟩ := @sliceOf_of_le _ bytes 10 16 (by decide) hlen
    rw [sliceOf_eq_some_iff] at hreserved
    have hbehind : HasAt bytes (10 + reserved.length) (bytes.drop 16) := by
      rw [hsix]
      exact hasAt_drop hlen
    have hat := hasAt_framed.mpr ⟨hfound.2, hversion, hcountByte, hreserved.2, hbehind⟩
    have heq := hat.drop_eq (by rw [framed_length, hsix, List.length_drop]; omega)
    exact ⟨version, countByte, reserved, bytes.drop 16, hsix, heq, Nat.not_lt.mp hcount, hbody,
      rejectDuplicateSlotIdx_ok.mp hslots⟩
  · rintro ⟨version, countByte, reserved, body, hsix, heq, hcount, hbody, hslots⟩
    have hat : HasAt bytes 0 (framed version countByte reserved body) := by
      rw [← heq]
      exact hasAt_drop (Nat.zero_le _)
    have hlen : 16 ≤ bytes.length := by
      rw [heq, framed_length, hsix]
      omega
    obtain ⟨hmagic, hversion, hcountByte, -, -⟩ := hasAt_framed.mp hat
    rw [← getElem?_eq_some_iff_hasAt] at hversion hcountByte
    have hmagic : sliceOf bytes 0 8 = some magic := sliceOf_eq_some_iff.mpr ⟨rfl, hmagic⟩
    unfold parseBundle
    rw [except_ite_eq_ok, hmagic, hversion, hcountByte]
    refine ⟨Nat.not_lt.mpr hlen, except_bind_eq_ok.mpr ⟨magic, rfl, ?_⟩⟩
    refine except_ite_eq_ok.mpr ⟨not_not.mpr rfl, except_bind_eq_ok.mpr ⟨version, rfl, ?_⟩⟩
    refine except_bind_eq_ok.mpr ⟨countByte, rfl, except_ite_eq_ok.mpr ⟨Nat.not_lt.mpr hcount, ?_⟩⟩
    refine except_bind_eq_ok.mpr ⟨bundle, hbody, ?_⟩
    exact except_bind_eq_ok.mpr ⟨(), rejectDuplicateSlotIdx_ok.mpr hslots, rfl⟩

theorem readBinding_ok {binding : Bytes 32} :
    readBinding bytes = .ok binding ↔ HasAt bytes headerLen binding.val := by
  unfold readBinding
  rw [except_bind_eq_ok]
  constructor
  · rintro ⟨part, hpart, h⟩
    rw [okOr_eq_ok, sliceOf_eq_some_iff] at hpart
    split at h
    · cases h
      exact hpart.2
    · cases h
  · intro hat
    refine ⟨binding.val, ?_, dif_pos binding.property⟩
    rw [okOr_eq_ok, sliceOf_eq_some_iff]
    exact ⟨by rw [binding.property]; rfl, hat⟩

/-- The body of the two later versions is that of the bundle it is read as. -/
theorem readBody_ok {count : Nat} (hlen : headerLen ≤ bytes.length) (hv : version ≠ versionV1) :
    readBody bytes version count = .ok bundle
      ↔ version = bundle.version ∧ bundle.entries.length = count
        ∧ (∀ e ∈ bundle.entries, e.WellFormed) ∧ bytes.drop headerLen = bundle.body := by
  obtain ⟨entries, binding⟩ := bundle
  unfold readBody
  rw [if_neg hv]
  cases binding with
  | none =>
      show _ ↔ version = versionV2 ∧ entries.length = count ∧ _ ∧ _ = encodeEntries entries
      split
      next h₂ =>
        rw [except_bind_eq_ok]
        constructor
        · rintro ⟨es, hread, h⟩
          cases h
          exact ⟨h₂, (readV2Body_ok hlen).mp hread⟩
        · rintro ⟨-, h⟩
          exact ⟨entries, (readV2Body_ok hlen).mpr h, rfl⟩
      next h₂ =>
        refine ⟨fun h => ?_, fun h => absurd h.1 h₂⟩
        split at h
        · obtain ⟨-, h⟩ := except_ite_eq_ok.mp h
          obtain ⟨b, -, h⟩ := except_bind_eq_ok.mp h
          obtain ⟨es, -, h⟩ := except_bind_eq_ok.mp h
          cases h
        · cases h
  | some binding =>
      show _ ↔ version = versionV3 ∧ entries.length = count ∧ _
        ∧ _ = binding.val ++ encodeEntries entries
      have h₂₃ : versionV3 ≠ versionV2 := by decide
      split
      next h₂ =>
        refine ⟨fun h => ?_, fun h => absurd (h.1.symm.trans h₂) h₂₃⟩
        obtain ⟨es, -, h⟩ := except_bind_eq_ok.mp h
        cases h
      next h₂ =>
        split
        next h₃ =>
          rw [except_ite_eq_ok, except_bind_eq_ok]
          constructor
          · rintro ⟨hlen₃, b, hb, h⟩
            obtain ⟨es, hread, h⟩ := except_bind_eq_ok.mp h
            cases h
            have hlen₃ : headerLenV3 ≤ bytes.length := Nat.not_lt.mp hlen₃
            obtain ⟨hcount, hws, hdrop⟩ := (readV2Body_ok hlen₃).mp hread
            refine ⟨h₃, hcount, hws, ?_⟩
            have hat : HasAt bytes headerLen (binding.val ++ encodeEntries entries) := by
              rw [hasAt_append, binding.property, ← hdrop]
              exact ⟨readBinding_ok.mp hb, hasAt_drop hlen₃⟩
            refine hat.drop_eq ?_
            rw [List.length_append, binding.property, ← hdrop, List.length_drop]
            unfold headerLenV3 bindingLen at *
            omega
          · rintro ⟨-, hcount, hws, hdrop⟩
            have hat : HasAt bytes headerLen (binding.val ++ encodeEntries entries) := by
              rw [← hdrop]
              exact hasAt_drop hlen
            have hlen₃ : headerLenV3 ≤ bytes.length := by
              have hle := hat.le
              rw [List.length_append, binding.property] at hle
              unfold headerLenV3 bindingLen
              omega
            rw [hasAt_append, binding.property] at hat
            have hbehind : bytes.drop headerLenV3 = encodeEntries entries := by
              refine hat.2.drop_eq ?_
              have hsum := congrArg List.length hdrop
              rw [List.length_append, List.length_drop, binding.property] at hsum
              omega
            refine ⟨Nat.not_lt.mpr hlen₃, binding, readBinding_ok.mpr hat.1, ?_⟩
            exact except_bind_eq_ok.mpr
              ⟨entries, (readV2Body_ok hlen₃).mpr ⟨hcount, hws, hbehind⟩, rfl⟩
        next h₃ => exact ⟨nofun, fun h => absurd h.1 h₃⟩

/-- A file that is not of the first version is parsed exactly if it is that of a
bundle that can be written, with any reserved bytes. -/
theorem parseBundle_iff (hv : bytes[8]? ≠ some versionV1) :
    parseBundle bytes = .ok bundle
      ↔ Writable bundle.entries ∧ ∃ reserved, reserved.length = 6
        ∧ bytes = framed bundle.version (UInt8.ofNat bundle.entries.length) reserved bundle.body := by
  have hbody : ∀ {version countByte : UInt8} {reserved body : List UInt8}, reserved.length = 6 →
      bytes = framed version countByte reserved body →
      bytes[8]? = some version ∧ headerLen ≤ bytes.length ∧ bytes.drop headerLen = body := by
    intro version countByte reserved body hsix heq
    have hlen : bytes.length = 16 + body.length := by
      rw [heq, framed_length, hsix]
    have hat : HasAt bytes 0 (framed version countByte reserved body) := by
      rw [← heq]
      exact hasAt_drop (Nat.zero_le _)
    obtain ⟨-, hversion, -, -, hat⟩ := hasAt_framed.mp hat
    rw [hsix] at hat
    exact ⟨getElem?_eq_some_iff_hasAt.mpr hversion, by unfold headerLen; omega,
      hat.drop_eq hlen.symm⟩
  rw [parseBundle_ok]
  constructor
  · rintro ⟨version, countByte, reserved, body, hsix, heq, hcount, hread, hslots⟩
    obtain ⟨hversion, hlen, hdrop⟩ := hbody hsix heq
    have hne : version ≠ versionV1 := fun h => hv (by rw [hversion, h])
    obtain ⟨rfl, hentries, hws, hbundle⟩ := (readBody_ok hlen hne).mp hread
    rw [← hentries] at hcount
    refine ⟨⟨hcount, hws, hslots⟩, reserved, hsix, ?_⟩
    rw [hentries, UInt8.ofNat_toNat, ← hbundle, hdrop]
    exact heq
  · rintro ⟨hw, reserved, hsix, heq⟩
    obtain ⟨hversion, hlen, hdrop⟩ := hbody hsix heq
    have hne : bundle.version ≠ versionV1 := fun h => hv (by rw [hversion, h])
    have hcount : (UInt8.ofNat bundle.entries.length).toNat = bundle.entries.length :=
      UInt8.toNat_ofNat_of_lt' (hw.count.trans_lt (by decide))
    refine ⟨bundle.version, UInt8.ofNat bundle.entries.length, reserved, bundle.body, hsix, heq, ?_,
      ?_, hw.slots⟩
    · rw [hcount]
      exact hw.count
    · rw [hcount]
      exact (readBody_ok hlen hne).mpr ⟨rfl, rfl, hw.lens, hdrop⟩

theorem readBody_ne_panic {count : Nat} : readBody bytes version count ≠ .error .panic := by
  unfold readBody
  split
  · refine except_bind_ne_error ?_ fun _ _ => nofun
    unfold readV1Body
    simp only
    split
    · exact nofun
    next hlen => exact readV1Entries_ne_panic (not_not.mp hlen).ge
  split
  · exact except_bind_ne_error readV2Body_ne_panic fun _ _ => nofun
  split
  · split
    · exact nofun
    next hlen =>
      refine except_bind_ne_error ?_ fun _ _ => ?_
      · obtain ⟨part, hpart, h32⟩ := @sliceOf_of_le _ bytes headerLen headerLenV3 (by decide)
          (Nat.not_lt.mp hlen)
        have h32 : part.length = 32 := h32
        unfold readBinding
        rw [hpart]
        show dite _ _ _ ≠ _
        rw [dif_pos h32]
        exact nofun
      · exact except_bind_ne_error readV2Body_ne_panic fun _ _ => nofun
  · exact nofun

theorem parseBundle_ne_panic : parseBundle bytes ≠ .error .panic := by
  unfold parseBundle
  split
  · exact nofun
  next hlen =>
    have hlen : 16 ≤ bytes.length := Nat.not_lt.mp hlen
    obtain ⟨found, hfound, -⟩ := @sliceOf_of_le _ bytes 0 8 (by decide) (by omega)
    refine except_bind_ne_error (okOr_ne_error ⟨found, hfound⟩) fun _ _ => ?_
    split
    · exact nofun
    · refine except_bind_ne_error (okOr_ne_error (getElem?_of_lt (by omega))) fun _ _ => ?_
      refine except_bind_ne_error (okOr_ne_error (getElem?_of_lt (by omega))) fun _ _ => ?_
      simp only
      split
      · exact nofun
      · refine except_bind_ne_error readBody_ne_panic fun _ _ => ?_
        exact except_bind_ne_error rejectDuplicates_ne_panic fun _ _ => nofun

/-- The files agree but for the six reserved bytes of the header. -/
def SameButReserved (a b : List UInt8) : Prop :=
  a.length = b.length ∧ ∀ i, ¬ (10 ≤ i ∧ i < 16) → a[i]? = b[i]?

theorem framed_sameButReserved {reserved' : List UInt8} (h : reserved.length = 6)
    (h' : reserved'.length = 6) :
    SameButReserved (framed version countByte reserved body)
      (framed version countByte reserved' body) := by
  refine ⟨by rw [framed_length, framed_length, h, h'], fun i hi => ?_⟩
  have hpre : (magic ++ [version] ++ [countByte]).length = 10 := rfl
  unfold framed
  generalize magic ++ [version] ++ [countByte] = start at hpre ⊢
  rw [List.append_assoc, List.append_assoc]
  by_cases hlt : i < 10
  · rw [List.getElem?_append_left (by omega), List.getElem?_append_left (by omega)]
  · rw [List.getElem?_append_right (by omega), List.getElem?_append_right (by omega),
      List.getElem?_append_right (by omega), List.getElem?_append_right (by omega), h, h']

end Whole

/-! ## Exactness -/

theorem encodeHeader_append (version : UInt8) (count : Nat) (body : List UInt8) :
    encodeHeader version count ++ body
      = framed version (UInt8.ofNat count) (List.replicate 6 0) body := rfl

theorem framed_version (version countByte : UInt8) (reserved body : List UInt8) :
    (framed version countByte reserved body)[8]? = some version := rfl

/-- What is parsed is written back, up to the reserved bytes. -/
theorem reencoded_same {bytes : List UInt8} {bundle : SidecarBundle}
    (hparse : parseBundle bytes = .ok bundle) (hv : bytes[8]? ≠ some versionV1) :
    Writable bundle.entries ∧ bytes[8]? = some bundle.version
      ∧ SameButReserved (encodeHeader bundle.version bundle.entries.length ++ bundle.body) bytes := by
  obtain ⟨hw, reserved, hsix, heq⟩ := (parseBundle_iff hv).mp hparse
  rw [encodeHeader_append]
  refine ⟨hw, ?_, ?_⟩
  · rw [heq]
    exact framed_version _ _ _ _
  · rw [heq]
    exact framed_sameButReserved rfl hsix

/-- What the writers make is parsed as the entries and the binding. -/
theorem parseBundle_plain {entries : List HybridEntry} (hw : Writable entries) :
    parseBundle (encodeHeader versionV2 entries.length ++ encodeEntries entries)
      = .ok ⟨entries, none⟩ := by
  rw [encodeHeader_append]
  refine (parseBundle_iff ?_).mpr ⟨hw, List.replicate 6 0, rfl, rfl⟩
  rw [framed_version]
  decide

theorem parseBundle_bound {entries : List HybridEntry} {binding : Bytes 32} (hw : Writable entries) :
    parseBundle (encodeHeader versionV3 entries.length ++ binding.val ++ encodeEntries entries)
      = .ok ⟨entries, some binding⟩ := by
  rw [List.append_assoc, encodeHeader_append]
  refine (parseBundle_iff ?_).mpr ⟨hw, List.replicate 6 0, rfl, rfl⟩
  rw [framed_version]
  decide

/-- What a writer has written is parsed as the same entries, in the same order,
and the same binding. The parser returns on every input, never two entries for a
slot, and what it returns for an input of the second or the third version is
written back by the writer of that version as the same file up to the reserved
bytes. -/
theorem sidecar_codec_exact (files : Files) (path : String) :
    (∀ entries fault files', write files path entries fault = (.ok (), files') →
        ∃ bytes, files' path = some bytes ∧ parseBundle bytes = .ok ⟨entries, none⟩)
      ∧ (∀ entries binding fault files',
          writeWithBinding files path entries binding fault = (.ok (), files') →
          ∃ bytes, files' path = some bytes ∧ parseBundle bytes = .ok ⟨entries, some binding⟩)
      ∧ ∀ bytes, parseBundle bytes ≠ .error .panic
        ∧ ∀ bundle, parseBundle bytes = .ok bundle →
            (bundle.entries.map HybridEntry.slotIdx).Nodup
              ∧ (bytes[8]? = some versionV2 → bundle.binding = none
                ∧ ∃ files' out, write files path bundle.entries .none = (.ok (), files')
                    ∧ files' path = some out ∧ SameButReserved out bytes)
              ∧ (bytes[8]? = some versionV3 → ∃ binding, bundle.binding = some binding
                ∧ ∃ files' out,
                    writeWithBinding files path bundle.entries binding .none = (.ok (), files')
                    ∧ files' path = some out ∧ SameButReserved out bytes) := by
  refine ⟨fun entries fault files' hw => ?_, fun entries binding fault files' hw => ?_,
    fun bytes => ⟨parseBundle_ne_panic, fun bundle hparse => ?_⟩⟩
  · obtain ⟨hwritable, -, rfl⟩ := write_ok.mp hw
    exact ⟨_, put_self _, parseBundle_plain hwritable⟩
  · obtain ⟨hwritable, -, rfl⟩ := writeWithBinding_ok.mp hw
    exact ⟨_, put_self _, parseBundle_bound hwritable⟩
  · have hnodup : (bundle.entries.map HybridEntry.slotIdx).Nodup := by
      obtain ⟨-, -, -, -, -, -, -, -, hslots⟩ := parseBundle_ok.mp hparse
      exact hslots
    refine ⟨hnodup, fun hv => ?_, fun hv => ?_⟩
    · obtain ⟨hw, hversion, hsame⟩ := reencoded_same hparse (by rw [hv]; decide)
      obtain ⟨entries, binding⟩ := bundle
      cases binding with
      | none => exact ⟨rfl, _, _, write_ok.mpr ⟨hw, rfl, rfl⟩, put_self _, hsame⟩
      | some binding =>
          rw [hv] at hversion
          have hversion : versionV2 = versionV3 := Option.some.inj hversion
          exact absurd hversion (by decide)
    · obtain ⟨hw, hversion, hsame⟩ := reencoded_same hparse (by rw [hv]; decide)
      obtain ⟨entries, binding⟩ := bundle
      cases binding with
      | none =>
          rw [hv] at hversion
          have hversion : versionV3 = versionV2 := Option.some.inj hversion
          exact absurd hversion (by decide)
      | some binding =>
          refine ⟨binding, rfl, _, _, writeWithBinding_ok.mpr ⟨hw, rfl, rfl⟩, put_self _, ?_⟩
          rw [List.append_assoc]
          exact hsame

/-- An entry of each level. -/
def sampleEntries : List HybridEntry :=
  [ ⟨3, .ml768, List.replicate 1184 7, List.replicate 1088 9⟩,
    ⟨0, .ml1024, List.replicate 1568 5, List.replicate 1568 4⟩ ]

theorem sampleEntries_writable : Writable sampleEntries where
  count := by decide
  lens := by
    unfold sampleEntries
    rw [List.forall_mem_cons, List.forall_mem_singleton]
    exact ⟨⟨List.length_replicate, List.length_replicate⟩,
      ⟨List.length_replicate, List.length_replicate⟩⟩
  slots := by
    show [(3 : UInt8), 0].Nodup
    decide

theorem sidecar_codec_exact_sample :
    ∃ files' bytes,
      writeWithBinding (fun _ => none) "vault.lbx.hybrid" sampleEntries (Bytes.zero 32) .none
          = (.ok (), files')
        ∧ files' "vault.lbx.hybrid" = some bytes
        ∧ parseBundle bytes = .ok ⟨sampleEntries, some (Bytes.zero 32)⟩ := by
  obtain ⟨files', hwrite⟩ : ∃ files', writeWithBinding (fun _ => none) "vault.lbx.hybrid"
      sampleEntries (Bytes.zero 32) .none = (.ok (), files') :=
    ⟨_, writeWithBinding_ok.mpr ⟨sampleEntries_writable, rfl, rfl⟩⟩
  obtain ⟨bytes, hbytes, hparse⟩ := (sidecar_codec_exact (fun _ => none) "vault.lbx.hybrid").2.1
    sampleEntries (Bytes.zero 32) .none files' hwrite
  exact ⟨files', bytes, hwrite, hbytes, hparse⟩

/-! ## Reading back -/

theorem encodeEntries_length_le {entries : List HybridEntry} (h : ∀ e ∈ entries, e.WellFormed) :
    (encodeEntries entries).length ≤ entries.length * 3138 := by
  induction entries with
  | nil => exact le_rfl
  | cons e rest ih =>
      obtain ⟨he, hrest⟩ := List.forall_mem_cons.mp h
      have hentry : (encodeEntry e).length ≤ 3138 := by
        rw [encodeEntry_length he]
        cases e.level <;> decide
      have hih := ih hrest
      rw [encodeEntries_cons, List.length_append, List.length_cons, Nat.add_mul]
      omega

end Luksbox.Sidecar
