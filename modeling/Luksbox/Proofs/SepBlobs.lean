import Mathlib.Algebra.Order.BigOperators.Group.Finset
import Luksbox.Model.SlotOps
import Luksbox.Proofs.Tampering

/-!
# Secure Enclave blobs stay with their slots

`Paired` is the invariant: a blob exactly where there is a Secure Enclave slot,
the blob that was supplied when that slot was enrolled, the flag exactly when
there is a blob, and a table that fits its region. It also holds of the image on
disk, so that a reopen keeps it.

The functions that replace a slot in place do not look at the blobs, and the
first write of a mirror sets its flag before it can fail. `Meets` excludes these
two steps; along every run whose steps meet it the invariant holds, and a call
that fails leaves slots, blobs and flags alone.
-/

namespace Luksbox.Core

open Lib

/-! ## Flags -/

theorem or_and_self (x m : UInt32) : (x ||| m) &&& m = m := by
  apply UInt32.eq_of_toBitVec_eq
  ext i hi
  simp
  exact fun h => Or.inr h

theorem or_and_of_disjoint {x n m : UInt32} (h : n &&& m = 0) : (x ||| n) &&& m = x &&& m := by
  have h' := congrArg UInt32.toBitVec h
  apply UInt32.eq_of_toBitVec_eq
  ext i hi
  have hi' : (n.toBitVec &&& m.toBitVec)[i] = (UInt32.toBitVec 0)[i] := by
    simp only [← UInt32.toBitVec_and, h']
  simp at hi' ⊢
  cases hx : x.toBitVec[i] <;> cases hn : n.toBitVec[i] <;> simp_all

theorem and_not_of_and_eq_zero {x m : UInt32} (h : x &&& m = 0) : x &&& ~~~m = x := by
  have h' := congrArg UInt32.toBitVec h
  apply UInt32.eq_of_toBitVec_eq
  ext i hi
  have hi' : (x.toBitVec &&& m.toBitVec)[i] = (UInt32.toBitVec 0)[i] := by
    simp only [← UInt32.toBitVec_and, h']
  simp at hi' ⊢
  exact hi'

theorem and_not_and_self (x m : UInt32) : (x &&& ~~~m) &&& m = 0 := by
  apply UInt32.eq_of_toBitVec_eq
  ext i hi
  simp

/-! ## The invariant -/

/-- A slot as the constructors, revocation and the parser leave it. -/
def SlotShape (s : Keyslot) : Prop :=
  s = Keyslot.empty ∨ ∃ kind params kdfSalt, kind ≠ .empty ∧ s.Fresh kind params kdfSalt

/-- What the claim about blobs says of a header. -/
structure SepPaired (log : List (Keyslot × List UInt8)) (h : Header) : Prop where
  pairing : ∀ i, (h.sepBlobs i).isSome = (h.keyslots i).kind.isSep
  supplied : ∀ i blob, h.sepBlobs i = some blob → (h.keyslots i, blob) ∈ log
  flag : h.hasSepRegion = true ↔ ∃ i, (h.sepBlobs i).isSome = true
  fits : h.sepRegionRequiredLen ≤ sepRegionLen

structure Paired (log : List (Keyslot × List UInt8)) (h : Header) : Prop extends SepPaired log h where
  version : h.versionMajor = versionMajorV1 ∨ h.versionMajor = versionMajorV2
    ∨ h.versionMajor = versionMajorV3
  generation : h.hasHeaderGeneration = false → h.headerGeneration = 0
  shapes : ∀ i, SlotShape (h.keyslots i)

variable {log log' : List (Keyslot × List UInt8)} {h h' : Header} {i : Fin 8} {s : Keyslot}
  {blob : List UInt8}

theorem SlotShape.eq_empty (hs : SlotShape s) (hk : s.kind = .empty) : s = Keyslot.empty := by
  rcases hs with hs | ⟨kind, params, kdfSalt, hkind, hf⟩
  · exact hs
  · exact absurd (hf.kindEq.symm.trans hk) hkind

theorem Paired.mono (hp : Paired log h) (hsub : ∀ e ∈ log, e ∈ log') : Paired log' h :=
  { hp with supplied := fun i blob hb => hsub _ (hp.supplied i blob hb) }

theorem Paired.blob_none (hp : Paired log h) (hk : (h.keyslots i).kind.isSep = false) :
    h.sepBlobs i = none := by
  have hpair := hp.pairing i
  rw [hk] at hpair
  exact Option.not_isSome_iff_eq_none.mp (by rw [hpair]; decide)

/-- A slot that holds no blob, put where none is. -/
theorem Paired.install (hp : Paired log h) (hfree : (h.keyslots i).kind.isSep = false)
    (hs : SlotShape s) (hk : s.kind.isSep = false) :
    Paired log { h with keyslots := Function.update h.keyslots i s } := by
  have hnone := hp.blob_none hfree
  refine ⟨⟨fun j => ?_, fun j blob hb => ?_, hp.flag, hp.fits⟩, hp.version, hp.generation,
    fun j => ?_⟩
  · by_cases hj : j = i
    · show (h.sepBlobs j).isSome = (Function.update h.keyslots i s j).kind.isSep
      rw [hj, Function.update_self, hnone, hk]
      rfl
    · show (h.sepBlobs j).isSome = (Function.update h.keyslots i s j).kind.isSep
      rw [Function.update_of_ne hj]
      exact hp.pairing j
  · have hj : j ≠ i := by
      rintro rfl
      rw [show h.sepBlobs j = some blob from hb] at hnone
      cases hnone
    show (Function.update h.keyslots i s j, blob) ∈ log
    rw [Function.update_of_ne hj]
    exact hp.supplied j blob hb
  · by_cases hj : j = i
    · show SlotShape (Function.update h.keyslots i s j)
      rw [hj, Function.update_self]
      exact hs
    · show SlotShape (Function.update h.keyslots i s j)
      rw [Function.update_of_ne hj]
      exact hp.shapes j

/-! ## Finding a slot -/

theorem firstFreeSlot_ok (hok : h.firstFreeSlot = .ok i) : (h.keyslots i).kind = .empty := by
  unfold Header.firstFreeSlot at hok
  split at hok
  next j hj =>
    cases hok
    have hempty := List.find?_some hj
    exact of_decide_eq_true (show (h.keyslots i).isEmpty = true from hempty)
  · cases hok

theorem installSlot_ok (i : Fin 8) (s : Keyslot) :
    h.installSlot i.val s = .ok { h with keyslots := Function.update h.keyslots i s } := by
  unfold Header.installSlot
  rw [dif_pos i.isLt]

theorem installSlot_cases (idx : Nat) (s : Keyslot) :
    (∃ i : Fin 8, i.val = idx
        ∧ h.installSlot idx s = .ok { h with keyslots := Function.update h.keyslots i s })
      ∨ ∃ e, h.installSlot idx s = .error e := by
  unfold Header.installSlot
  split
  next hi => exact Or.inl ⟨⟨idx, hi⟩, rfl, rfl⟩
  · exact Or.inr ⟨_, rfl⟩

/-! ## Clearing and setting a blob -/

theorem clearSepBlob_val (i : Fin 8) :
    h.clearSepBlob i.val
      = { h with
          sepBlobs := Function.update h.sepBlobs i none
          flags := if (List.finRange 8).all fun j => (Function.update h.sepBlobs i none j).isNone
            then h.flags &&& ~~~flagHasSepRegion else h.flags } := by
  unfold Header.clearSepBlob
  simp only [dif_pos i.isLt]

theorem all_none_iff {blobs : Fin 8 → Option (List UInt8)} :
    ((List.finRange 8).all fun j => (blobs j).isNone) = true ↔ ¬ ∃ j, (blobs j).isSome = true := by
  simp [List.all_eq_true]

theorem hasSepRegion_eq_false_iff : h.hasSepRegion = false ↔ h.flags &&& flagHasSepRegion = 0 := by
  unfold Header.hasSepRegion
  rw [decide_eq_false_iff_not, not_not]

/-- Clearing where there is no blob changes nothing. -/
theorem clearSepBlob_none (hnone : h.sepBlobs i = none)
    (hflag : h.hasSepRegion = true ↔ ∃ j, (h.sepBlobs j).isSome = true) :
    h.clearSepBlob i.val = h := by
  have hblobs : Function.update h.sepBlobs i none = h.sepBlobs := by
    rw [← hnone]
    exact Function.update_eq_self i h.sepBlobs
  rw [clearSepBlob_val, hblobs]
  split
  next hall =>
    have hunset : h.hasSepRegion = false :=
      Bool.eq_false_iff.mpr fun hset => all_none_iff.mp hall (hflag.mp hset)
    rw [and_not_of_and_eq_zero (hasSepRegion_eq_false_iff.mp hunset)]
  · rfl

theorem blobsLen_clear_le (blobs : Fin 8 → Option (List UInt8)) (i : Fin 8) :
    Header.blobsLen (Function.update blobs i none) ≤ Header.blobsLen blobs := by
  unfold Header.blobsLen
  refine Finset.sum_le_sum fun j _ => ?_
  by_cases hj : j = i
  · rw [hj, Function.update_self]
    exact Nat.zero_le _
  · rw [Function.update_of_ne hj]

/-- Revocation takes the blob with the slot. -/
theorem Paired.revoke (hp : Paired log h) (i : Fin 8) :
    Paired log
      ({ h with keyslots := Function.update h.keyslots i Keyslot.empty }.clearSepBlob i.val) := by
  rw [clearSepBlob_val]
  refine ⟨⟨fun j => ?_, fun j blob hb => ?_, ?_, ?_⟩, hp.version, hp.generation, fun j => ?_⟩
  · show (Function.update h.sepBlobs i none j).isSome
      = (Function.update h.keyslots i Keyslot.empty j).kind.isSep
    by_cases hj : j = i
    · rw [hj, Function.update_self, Function.update_self]
      rfl
    · rw [Function.update_of_ne hj, Function.update_of_ne hj]
      exact hp.pairing j
  · have hb : Function.update h.sepBlobs i none j = some blob := hb
    have hj : j ≠ i := by
      rintro rfl
      rw [Function.update_self] at hb
      cases hb
    show (Function.update h.keyslots i Keyslot.empty j, blob) ∈ log
    rw [Function.update_of_ne hj] at hb ⊢
    exact hp.supplied j blob hb
  · show decide ((if _ then _ else _ : UInt32) &&& flagHasSepRegion ≠ 0) = true
      ↔ ∃ j, (Function.update h.sepBlobs i none j).isSome = true
    split
    next hall =>
      rw [and_not_and_self]
      exact ⟨fun hf => absurd hf (by decide), fun hs => absurd hs (all_none_iff.mp hall)⟩
    next hall =>
      have hsome : ∃ j, (Function.update h.sepBlobs i none j).isSome = true := by
        by_contra hno
        exact hall (all_none_iff.mpr hno)
      refine ⟨fun _ => hsome, fun _ => hp.flag.mpr ?_⟩
      obtain ⟨j, hj⟩ := hsome
      have hji : j ≠ i := by
        rintro rfl
        rw [Function.update_self] at hj
        cases hj
      rw [Function.update_of_ne hji] at hj
      exact ⟨j, hj⟩
  · rw [Header.sepRegionRequiredLen_eq]
    have hfits := hp.fits
    rw [Header.sepRegionRequiredLen_eq] at hfits
    have hle := blobsLen_clear_le h.sepBlobs i
    show 1 + Header.blobsLen (Function.update h.sepBlobs i none) ≤ sepRegionLen
    omega
  · show SlotShape (Function.update h.keyslots i Keyslot.empty j)
    by_cases hj : j = i
    · rw [hj, Function.update_self]
      exact Or.inl rfl
    · rw [Function.update_of_ne hj]
      exact hp.shapes j

/-- A Secure Enclave slot enrolled with its blob. -/
theorem Paired.enrollSep (hp : Paired log h) (hs : SlotShape s) (hk : s.kind.isSep = true)
    (hset : { h with keyslots := Function.update h.keyslots i s }.setSepBlob i.val blob = .ok h') :
    Paired ((s, blob) :: log) h' := by
  unfold Header.setSepBlob at hset
  rw [dif_pos i.isLt] at hset
  simp only at hset
  obtain ⟨hfit, hset⟩ := except_ite_eq_ok.mp hset
  rw [← Except.ok.inj hset]
  refine ⟨⟨fun j => ?_, fun j b hb => ?_, ?_, Nat.not_lt.mp hfit⟩, hp.version, hp.generation,
    fun j => ?_⟩
  · show (Function.update h.sepBlobs i (some blob) j).isSome
      = (Function.update h.keyslots i s j).kind.isSep
    by_cases hj : j = i
    · rw [hj, Function.update_self, Function.update_self, hk]
      rfl
    · rw [Function.update_of_ne hj, Function.update_of_ne hj]
      exact hp.pairing j
  · have hb : Function.update h.sepBlobs i (some blob) j = some b := hb
    show (Function.update h.keyslots i s j, b) ∈ (s, blob) :: log
    by_cases hj : j = i
    · rw [hj, Function.update_self] at hb ⊢
      cases hb
      exact List.mem_cons_self
    · rw [Function.update_of_ne hj] at hb ⊢
      exact List.mem_cons_of_mem _ (hp.supplied j b hb)
  · show decide ((h.flags ||| flagHasSepRegion) &&& flagHasSepRegion ≠ 0) = true
      ↔ ∃ j, (Function.update h.sepBlobs i (some blob) j).isSome = true
    rw [or_and_self]
    exact ⟨fun _ => ⟨i, by rw [Function.update_self]; rfl⟩, fun _ => by decide⟩
  · show SlotShape (Function.update h.keyslots i s j)
    by_cases hj : j = i
    · rw [hj, Function.update_self]
      exact hs
    · rw [Function.update_of_ne hj]
      exact hp.shapes j

/-- Slots and blobs move together. -/
theorem Paired.swap (hp : Paired log h) (σ : Equiv.Perm (Fin 8)) :
    Paired log { h with
      keyslots := fun i => h.keyslots (σ i), sepBlobs := fun i => h.sepBlobs (σ i) } := by
  refine ⟨⟨fun j => hp.pairing (σ j), fun j blob hb => hp.supplied (σ j) blob hb, ?_, ?_⟩,
    hp.version, hp.generation, fun j => hp.shapes (σ j)⟩
  · show h.hasSepRegion = true ↔ ∃ j, (h.sepBlobs (σ j)).isSome = true
    rw [hp.flag]
    exact (Equiv.exists_congr_left σ.symm).trans Iff.rfl
  · have hfits := hp.fits
    rw [Header.sepRegionRequiredLen_eq] at hfits ⊢
    have hlen : Header.blobsLen (fun i => h.sepBlobs (σ i)) = Header.blobsLen h.sepBlobs := by
      unfold Header.blobsLen
      exact Equiv.sum_comp σ fun i => Header.entryLen (h.sepBlobs i)
    show 1 + Header.blobsLen (fun i => h.sepBlobs (σ i)) ≤ sepRegionLen
    rw [hlen]
    exact hfits

/-! ## Writing and reading back -/

theorem hasSepRegion_or_mirror (flags : UInt32) :
    (flags ||| Header.flagHasHeaderMirror) &&& flagHasSepRegion = flags &&& flagHasSepRegion :=
  or_and_of_disjoint (by decide)

/-- The mirror's flag and the generation are no part of the pairing. -/
theorem Paired.withMirror (hp : Paired log h) :
    Paired log { h with flags := h.flags ||| Header.flagHasHeaderMirror } := by
  refine ⟨⟨hp.pairing, hp.supplied, ?_, hp.fits⟩, hp.version, hp.generation, hp.shapes⟩
  have hflag := hp.flag
  unfold Header.hasSepRegion at hflag ⊢
  simp only [hasSepRegion_or_mirror]
  exact hflag

theorem Paired.withGeneration (hp : Paired log h) {g : UInt64}
    (hg : h.hasHeaderGeneration = false → g = 0) :
    Paired log { h with headerGeneration := g } :=
  ⟨⟨hp.pairing, hp.supplied, hp.flag, hp.fits⟩, hp.version, hg, hp.shapes⟩

theorem SlotShape.wellFormed_of_parsed (hs : SlotShape s) {padding : Buf 512} {s' : Keyslot}
    (hok : Keyslot.fromBytes (s.toBytes padding) = .ok s') : s.WellFormed := by
  rcases hs with hs | ⟨kind, params, kdfSalt, hkind, hf⟩
  · exact Or.inl hs
  · refine Or.inr ((hf.sound_iff hkind).mpr fun hruns => ?_)
    have hsane := Keyslot.params_of_fromBytes_toBytes hok (by rw [hf.kindEq]; exact hkind)
      (by rw [hf.kindEq]; exact hruns)
    rw [hf.paramsEq] at hsane
    exact hsane

variable {c : Crypto} {mvk : Key} {padding : HeaderPadding}

/-- A header with the invariant whose bytes parse is read back as itself. What
the invariant does not say (the parameters of the slots, the chunk size, the
offsets) is what the parser has checked. -/
theorem Paired.parsed_eq (hp : Paired log h)
    (hok : Header.fromBytes (h.toBytes c mvk padding) = .ok h') : h' = h := by
  have hparsed := Header.fromBytes_parsed hok
  have hextents := hparsed.extents
  rw [Header.readExtents_toBytes] at hextents
  have hchunk := (Header.readParams_ok hparsed.params).2.2
  rw [h.read_fixed c mvk padding (o := 20) (v := leBytes 4 h.chunkSize.toNat)
    (by simp [Header.fixedFields]) (leBytes_length ..), ofNat_leBytes_u32] at hchunk
  have hw : h.WellFormed := {
    version := hp.version
    generation := hp.generation
    chunkSize := by
      rw [← hchunk]
      exact (Header.fromBytes_wellFormed hok).chunkSize
    extents := by
      rw [Except.ok.inj hextents]
      exact hparsed.check
    slots := by
      intro i
      obtain ⟨s', hs'⟩ := Header.parseSlots_each hparsed.slots (List.mem_finRange i)
      rw [Header.sub_toBytes] at hs'
      exact (hp.shapes i).wellFormed_of_parsed hs'
    noBlobs := by
      intro hf
      funext i
      refine Option.not_isSome_iff_eq_none.mp fun hs => ?_
      rw [hp.flag.mpr ⟨i, hs⟩] at hf
      cases hf
    blobsFit := hp.fits }
  rw [Header.fromBytes_toBytes hw c mvk padding] at hok
  exact (Except.ok.inj hok).symm

/-! ## Steps -/

/-- The invariant of the container: of the header in memory and of the image on
disk. -/
structure SlotsInv (c : Crypto) (mvk : Key) (st : SlotState) : Prop where
  memory : Paired st.enrolled st.header
  disk : ∀ bytes, st.disk = some bytes →
    ∃ h padding, bytes = h.toBytes c mvk padding ∧ Paired st.enrolled h

/-- The steps that keep blobs and slots together: a slot is not replaced in place
while a blob belongs to it, and no write fails that is to set the mirror's
flag. -/
def Meets (st : SlotState) : SlotOp → Prop
  | .updatePassphraseAt idx .. | .updateFido2At idx .. | .updateTpm2At idx .. =>
      ∀ h : idx < 8, (st.header.keyslots ⟨idx, h⟩).kind.isSep = false
  | .persistHeader _ fault =>
      fault = .none ∨ st.header.versionMajor < versionMajorV2 ∨ st.header.hasHeaderMirror = true
  | _ => True

/-- A call that failed changed neither slots nor blobs nor flags. -/
def Unchanged (st st' : SlotState) : Prop :=
  st'.header.keyslots = st.header.keyslots ∧ st'.header.sepBlobs = st.header.sepBlobs
    ∧ st'.header.flags = st.header.flags

/-- What a step owes: the invariant, and no change where it fails. -/
def StepOk (c : Crypto) (mvk : Key) (st : SlotState) (r : SlotState.Outcome) : Prop :=
  SlotsInv c mvk r.2 ∧ ∀ e, r.1 = .error e → Unchanged st r.2

variable {st : SlotState} {call : NewSlot} {rng : SlotRng}

theorem Unchanged.refl (st : SlotState) : Unchanged st st := ⟨rfl, rfl, rfl⟩

theorem stepOk_fails (hinv : SlotsInv c mvk st) (e : Error) : StepOk c mvk st (st.fails e) :=
  ⟨hinv, fun _ _ => Unchanged.refl st⟩

theorem stepOk_changes (hinv : SlotsInv c mvk st) (hp : Paired st.enrolled h) :
    StepOk c mvk st (st.changes h) :=
  ⟨⟨hp, hinv.disk⟩, fun e he => by cases he⟩

theorem build_shape {suite : CipherSuite} {headerSalt : Bytes 32}
    (hb : call.build c suite headerSalt mvk rng = .ok s) : SlotShape s :=
  Or.inr ⟨_, _, _, NewSlot.kind_ne_empty hb, NewSlot.build_fresh hb⟩

theorem empty_not_sep (hk : s.kind = .empty) : s.kind.isSep = false := by
  rw [hk]
  rfl

theorem enrollPlain_ok (hinv : SlotsInv c mvk st) (hk : call.kind.isSep = false) :
    StepOk c mvk st (st.enrollPlain c mvk call rng) := by
  unfold SlotState.enrollPlain
  split
  next e _ => exact stepOk_fails hinv e
  next idx hfree =>
    split
    next e _ => exact stepOk_fails hinv e
    next slot hb =>
      rw [installSlot_ok]
      refine stepOk_changes hinv (hinv.memory.install (empty_not_sep (firstFreeSlot_ok hfree))
        (build_shape hb) ?_)
      rw [(NewSlot.build_fresh hb).kindEq]
      exact hk

theorem sep_isSep {kind : SlotKind} {f : Keyslot.SepFactors} {params : Argon2idParams}
    {cred : List UInt8} {salt : Bytes 32} {suite : CipherSuite} {headerSalt : Bytes 32}
    (hb : (NewSlot.sep kind f params cred salt).build c suite headerSalt mvk rng = .ok s) :
    kind.isSep = true := by
  have hcheck := NewSlot.sep_check hb rfl
  obtain ⟨⟨⟩, hcheck, -⟩ := except_bind_eq_ok.mp hcheck
  obtain ⟨hno, -⟩ := except_ite_eq_ok.mp hcheck
  by_contra hf
  exact hno (Or.inl (Bool.eq_false_iff.mpr hf))

/-- The rollback of `enroll_sep` gives the header back. -/
theorem enrollSep_rollback (hp : Paired log h) (hfree : (h.keyslots i).kind = .empty) :
    { h with keyslots := Function.update h.keyslots i s }.revokeSlot i.val = .ok h := by
  have hempty := (hp.shapes i).eq_empty hfree
  have hslots : Function.update (Function.update h.keyslots i s) i Keyslot.empty = h.keyslots := by
    rw [Function.update_idem, ← hempty]
    exact Function.update_eq_self i h.keyslots
  unfold Header.revokeSlot
  rw [dif_pos i.isLt]
  simp only [hslots]
  exact congrArg _ (clearSepBlob_none (hp.blob_none (empty_not_sep hfree)) hp.flag)

theorem enrollSep_ok (hinv : SlotsInv c mvk st) (hcall : ∀ slot,
      call.build c st.header.cipherSuite st.header.headerSalt mvk rng = .ok slot →
        call.kind.isSep = true) :
    StepOk c mvk st (st.enrollSep c mvk call blob rng) := by
  unfold SlotState.enrollSep
  split
  next e _ => exact stepOk_fails hinv e
  next idx hfree =>
    split
    next e _ => exact stepOk_fails hinv e
    next slot hb =>
      rw [installSlot_ok]
      simp only
      split
      next e hset =>
        rw [enrollSep_rollback hinv.memory (firstFreeSlot_ok hfree)]
        exact stepOk_fails hinv e
      next header hset =>
        have hkind : slot.kind.isSep = true := by
          rw [(NewSlot.build_fresh hb).kindEq]
          exact hcall slot hb
        have hp := hinv.memory.enrollSep (build_shape hb) hkind hset
        refine ⟨⟨hp, fun bytes hbytes => ?_⟩, fun e he => by cases he⟩
        obtain ⟨hd, padding, heq, hpd⟩ := hinv.disk bytes hbytes
        exact ⟨hd, padding, heq, hpd.mono fun e he => List.mem_cons_of_mem _ he⟩

theorem enroll_ok (hinv : SlotsInv c mvk st) (call : NewSlot) (blob : List UInt8) (rng : SlotRng) :
    StepOk c mvk st (st.enroll c mvk call blob rng) := by
  cases call with
  | sep kind f params cred salt => exact enrollSep_ok hinv fun slot hb => sep_isSep hb
  | _ => exact enrollPlain_ok hinv rfl

theorem revokeSlot_ok (hinv : SlotsInv c mvk st) (idx : Nat) :
    StepOk c mvk st (st.revokeSlot idx) := by
  unfold SlotState.revokeSlot Header.revokeSlot
  by_cases hi : idx < 8
  · rw [dif_pos hi]
    exact stepOk_changes hinv (hinv.memory.revoke ⟨idx, hi⟩)
  · rw [dif_neg hi]
    exact stepOk_fails hinv _

theorem swapSlots_ok (hinv : SlotsInv c mvk st) (a b : Nat) :
    StepOk c mvk st (st.swapSlots a b) := by
  unfold SlotState.swapSlots
  split
  · split
    · exact ⟨hinv, fun e he => by cases he⟩
    · exact stepOk_changes hinv (hinv.memory.swap _)
  · exact ⟨hinv, fun _ _ => Unchanged.refl st⟩

theorem updateAt_ok (hinv : SlotsInv c mvk st) (idx : Nat) (hcall : call.kind.isSep = false)
    (hmeets : ∀ hi : idx < 8, (st.header.keyslots ⟨idx, hi⟩).kind.isSep = false) :
    StepOk c mvk st (st.updateAt c mvk idx call rng) := by
  unfold SlotState.updateAt
  split
  next e _ => exact stepOk_fails hinv e
  next slot hb =>
    rcases installSlot_cases (h := st.header) idx slot with ⟨i, rfl, hok⟩ | ⟨e, herr⟩
    · rw [hok]
      refine stepOk_changes hinv (hinv.memory.install (hmeets i.isLt) (build_shape hb) ?_)
      rw [(NewSlot.build_fresh hb).kindEq]
      exact hcall
    · rw [herr]
      exact stepOk_fails hinv e

theorem Paired.bump (hp : Paired log h) : Paired log h.bumpGeneration := by
  unfold Header.bumpGeneration
  split
  next hg => exact hp.withGeneration fun hno => absurd hg (by rw [hno]; decide)
  · exact hp

theorem Paired.mark (hp : Paired log h) : Paired log h.markMirror := by
  unfold Header.markMirror
  split
  · exact hp.withMirror
  · exact hp

theorem bumpGeneration_fields (h : Header) :
    h.bumpGeneration.keyslots = h.keyslots ∧ h.bumpGeneration.sepBlobs = h.sepBlobs
      ∧ h.bumpGeneration.flags = h.flags ∧ h.bumpGeneration.versionMajor = h.versionMajor := by
  unfold Header.bumpGeneration
  split
  · exact ⟨rfl, rfl, rfl, rfl⟩
  · exact ⟨rfl, rfl, rfl, rfl⟩

theorem markMirror_version (h : Header) : h.markMirror.versionMajor = h.versionMajor := by
  unfold Header.markMirror
  split
  · rfl
  · rfl

/-- The mirror's flag stays as it is on the steps that are met. -/
theorem markMirror_bump_eq (hm : h.versionMajor < versionMajorV2 ∨ h.hasHeaderMirror = true) :
    h.bumpGeneration.markMirror = h.bumpGeneration := by
  obtain ⟨-, -, hflags, hversion⟩ := bumpGeneration_fields h
  unfold Header.markMirror
  refine if_neg ?_
  rintro ⟨hv, hmirror⟩
  rw [hversion] at hv
  rcases hm with hm | hm
  · exact absurd hv (UInt16.not_le.mpr hm)
  · have hsame : h.bumpGeneration.hasHeaderMirror = h.hasHeaderMirror := by
      unfold Header.hasHeaderMirror
      rw [hflags]
    rw [hsame, hm] at hmirror
    cases hmirror

theorem SlotsInv.withImage (hinv : SlotsInv c mvk st) (hp : Paired st.enrolled h)
    (padding : HeaderPadding) {bytes : Buf 8192} (outcome : DiskOutcome)
    (hbytes : outcome.apply st.disk (h.toBytes c mvk padding) = some bytes) :
    ∃ h padding, bytes = h.toBytes c mvk padding ∧ Paired st.enrolled h := by
  cases outcome with
  | old => exact hinv.disk bytes hbytes
  | new =>
      cases hbytes
      exact ⟨h, padding, rfl, hp⟩
  | lost => cases hbytes

theorem persistHeader_ok (hinv : SlotsInv c mvk st) (padding : HeaderPadding) (fault : PersistFault)
    (hmeets : fault = .none ∨ st.header.versionMajor < versionMajorV2
      ∨ st.header.hasHeaderMirror = true) :
    StepOk c mvk st (st.persistHeader c mvk padding fault) := by
  have hp := hinv.memory.bump.mark
  have hunchanged : fault ≠ .none → st.header.bumpGeneration.markMirror.keyslots = st.header.keyslots
      ∧ st.header.bumpGeneration.markMirror.sepBlobs = st.header.sepBlobs
      ∧ st.header.bumpGeneration.markMirror.flags = st.header.flags := by
    intro hfault
    rw [markMirror_bump_eq (hmeets.resolve_left hfault)]
    obtain ⟨hslots, hblobs, hflags, -⟩ := bumpGeneration_fields st.header
    exact ⟨hslots, hblobs, hflags⟩
  unfold SlotState.persistHeader
  split
  · exact ⟨hinv, fun e he => by cases he⟩
  · split
    · exact stepOk_fails hinv _
    · cases fault with
      | none =>
          refine ⟨⟨hp, fun bytes hb => ?_⟩, fun e he => by cases he⟩
          exact hinv.withImage hp padding .new hb
      | write outcome =>
          refine ⟨⟨hp.withGeneration fun hno => ?_, fun bytes hb => ?_⟩, fun e _ => ?_⟩
          · refine hinv.memory.generation ?_
            unfold Header.hasHeaderGeneration at hno ⊢
            rw [markMirror_version, (bumpGeneration_fields st.header).2.2.2] at hno
            exact hno
          · exact hinv.withImage hp padding outcome hb
          · exact hunchanged fun h => by cases h
      | anchor =>
          refine ⟨⟨hp, fun bytes hb => ?_⟩, fun e _ => ?_⟩
          · exact hinv.withImage hp padding .new hb
          · exact hunchanged fun h => by cases h

theorem reopen_ok (hinv : SlotsInv c mvk st) : StepOk c mvk st (st.reopen c mvk) := by
  unfold SlotState.reopen
  split
  · exact ⟨hinv, fun _ _ => Unchanged.refl st⟩
  next bytes hdisk =>
    split
    next e _ => exact stepOk_fails hinv e
    next header hparse =>
      split
      next e _ => exact stepOk_fails hinv e
      next u hverify =>
        obtain ⟨hd, padding, rfl, hpd⟩ := hinv.disk bytes hdisk
        rw [hpd.parsed_eq hparse]
        exact ⟨⟨hpd, hinv.disk⟩, fun e he => by cases he⟩

/-- Every step that meets the condition keeps the invariant. -/
theorem step_ok (hinv : SlotsInv c mvk st) (op : SlotOp) (hmeets : Meets st op) :
    StepOk c mvk st (st.step c mvk op) := by
  cases op with
  | enroll call blob rng => exact enroll_ok hinv call blob rng
  | revokeSlot idx => exact revokeSlot_ok hinv idx
  | swapSlots a b => exact swapSlots_ok hinv a b
  | updatePassphraseAt idx pw params rng => exact updateAt_ok hinv idx rfl hmeets
  | updateFido2At idx pw hs cred salt params rng => exact updateAt_ok hinv idx rfl hmeets
  | updateTpm2At idx kek blob rng => exact updateAt_ok hinv idx rfl hmeets
  | persistHeader padding fault => exact persistHeader_ok hinv padding fault hmeets
  | reopen => exact reopen_ok hinv

/-! ## Runs -/

/-- A header as creation leaves it before its first slot. -/
structure IsNew (h : Header) : Prop where
  version : h.versionMajor = versionMajorV1 ∨ h.versionMajor = versionMajorV2
    ∨ h.versionMajor = versionMajorV3
  generation : h.headerGeneration = 0
  slots : h.keyslots = fun _ => Keyslot.empty
  blobs : h.sepBlobs = fun _ => none
  flag : h.hasSepRegion = false

def SlotState.initial (h : Header) : SlotState := ⟨h, true, none, []⟩

/-- The states a run reaches whose steps all meet the condition. -/
inductive Reaches (c : Crypto) (mvk : Key) (h : Header) : SlotState → Prop where
  | initial : Reaches c mvk h (SlotState.initial h)
  | step {st : SlotState} {op : SlotOp} : Reaches c mvk h st → Meets st op →
      Reaches c mvk h (st.step c mvk op).2

theorem IsNew.inv (hn : IsNew h) (c : Crypto) (mvk : Key) :
    SlotsInv c mvk (SlotState.initial h) where
  memory := by
    refine ⟨⟨fun i => ?_, fun i blob hb => ?_, ?_, ?_⟩, hn.version, fun _ => hn.generation, fun i => ?_⟩
    · show (h.sepBlobs i).isSome = (h.keyslots i).kind.isSep
      rw [hn.blobs, hn.slots]
      rfl
    · have hb : h.sepBlobs i = some blob := hb
      rw [hn.blobs] at hb
      cases hb
    · show h.hasSepRegion = true ↔ ∃ i, (h.sepBlobs i).isSome = true
      rw [hn.flag, hn.blobs]
      simp
    · show h.sepRegionRequiredLen ≤ sepRegionLen
      rw [Header.sepRegionRequiredLen_eq, hn.blobs]
      decide
    · show SlotShape (h.keyslots i)
      rw [hn.slots]
      exact Or.inl rfl
  disk := fun bytes hb => by cases hb

theorem reaches_inv (hn : IsNew h) (hr : Reaches c mvk h st) : SlotsInv c mvk st := by
  induction hr with
  | initial => exact hn.inv c mvk
  | step _ hmeets ih => exact (step_ok ih _ hmeets).1

/-- Along every run whose steps meet the condition, a slot has a blob exactly if
it is a Secure Enclave slot, the blob is the one it was enrolled with, flag and
region agree with the blobs, and a call that fails changes none of it. -/
theorem sep_blobs_stay_paired (hn : IsNew h) (hr : Reaches c mvk h st) :
    SepPaired st.enrolled st.header
      ∧ ∀ op e, Meets st op → (st.step c mvk op).1 = .error e →
          Unchanged st (st.step c mvk op).2 := by
  have hinv := reaches_inv hn hr
  exact ⟨hinv.memory.toSepPaired, fun op e hmeets he => (step_ok hinv op hmeets).2 e he⟩

/-! ## A slot replaced in place -/

def enclaveHeader : Header := Header.tryNew .aes256Gcm .argon2id 4096 8192 (firstBytes 32 [5])

theorem enclaveHeader_isNew : IsNew enclaveHeader := ⟨Or.inl rfl, rfl, rfl, rfl, rfl⟩

/-- Enrol a Secure Enclave slot with a blob of three bytes. -/
def enrollEnclave : SlotOp :=
  .enroll (.sep .sepSealed ⟨firstBytes 32 [3], none, none, none⟩ ⟨0, 0, 0⟩ [] (Bytes.zero 32))
    [1, 2, 3] sampleRng

def enclaveState : SlotState :=
  ((SlotState.initial enclaveHeader).step plainCrypto sampleMvk enrollEnclave).2

/-- The three bytes stay behind when the slot becomes a passphrase slot. -/
theorem replaced_slot_keeps_blob :
    IsNew enclaveHeader
      ∧ (enclaveState.header.keyslots 0).kind = .sepSealed
      ∧ ((enclaveState.step plainCrypto sampleMvk
          (.updatePassphraseAt 0 [112, 119] ⟨65536, 3, 1⟩ sampleRng)).2.header.keyslots 0).kind
        = .passphrase
      ∧ (enclaveState.step plainCrypto sampleMvk
          (.updatePassphraseAt 0 [112, 119] ⟨65536, 3, 1⟩ sampleRng)).2.header.sepBlobs 0
        = some [1, 2, 3] :=
  ⟨enclaveHeader_isNew, by decide +kernel, by decide +kernel, by decide +kernel⟩

theorem sep_blobs_stay_paired_enclave :
    (enclaveState.header.keyslots 0).kind.isSep = true
      ∧ SepPaired enclaveState.enrolled enclaveState.header :=
  ⟨by decide +kernel,
    (sep_blobs_stay_paired enclaveHeader_isNew
      (Reaches.step Reaches.initial (show Meets _ enrollEnclave from trivial))).1⟩

end Luksbox.Core
