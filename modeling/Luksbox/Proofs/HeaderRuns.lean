import Luksbox.Proofs.HeaderWrites

/-!
# A header generation names one header state

`persist_header` counts the generation up before it writes and back down when
the write reports an error. Whether a number then stands for one keyslot table
depends on what the failed write had already put on the storage.

`Numbered` says that the session's own generation is at or above every stamp
ever stored under its key, and that is what a new write needs to be the only
one of its number. A call keeps it unless it fails after the new stamp has
landed; an open restores it unless it comes up with a header older than one
stored before. A rotation starts over under a fresh key and keeps the old
numbering aside for an abort.
-/

namespace Luksbox

open Lib

namespace Head

variable {h h' h₁ : Head}

/-! ## The invariant -/

/-- A deniable state that has no v3 fields has none on the storage either. -/
def PlainInner (den : Option DeniableState) : Prop :=
  ∀ d, den = some d → d.v3 = none → (HeaderBytes.deniable d.bytes).stamp = none

/-- The session's generation is at or above every stamp of its key. -/
structure Numbered (h : Head) : Prop where
  upTo : ∀ m, h.Holds m → m.mvk = h.mvk → m.generation ≤ h.generation?.getD 0
  plain : PlainInner h.deniable

/-- The generation an aborted rotation returns to. -/
def savedGeneration? (st : RotationState) : Option Nat :=
  match st.savedDeniable with
  | some den => den.v3.map DeniableHeaderV3.headerGeneration
  | none => if st.savedVersionMajor ≥ versionMajorHeaderV3 then some st.savedGeneration else none

/-- An abort to `st` returns to a numbered state. -/
structure Back (h : Head) (st : RotationState) : Prop where
  upTo : ∀ m, h.Holds m → m.mvk = st.savedMvk → m.generation ≤ (savedGeneration? st).getD 0
  plain : PlainInner st.savedDeniable
  mode : st.savedDeniable.isSome = h.deniable.isSome

/-- What the storage has seen: one table for each generation of a key. -/
structure History (h : Head) : Prop where
  unique : ∀ m n, h.Holds m → h.Holds n → m.mvk = n.mvk → m.generation = n.generation →
    m.table = n.table
  positive : ∀ m, h.Holds m → 0 < m.generation
  recorded : h.Recorded
  back : ∀ st, h.rotation = some st → Back h st

structure Ordered (h : Head) : Prop extends History h where
  numbered : Numbered h
  apart : ∀ st, h.rotation = some st → st.savedMvk ≠ h.mvk

section Growing

variable {b : HeaderBytes}

/-- Storing one header, numbered above everything of its key, keeps the history. -/
theorem Ordered.history_of_write (ho : Ordered h)
    (hb : ∀ m, b.stamp = some m → m.mvk = h.mvk ∧ h.generation?.getD 0 < m.generation)
    (hst : ∀ m, h'.Holds m → b.stamp = some m ∨ h.Holds m) (hr : h'.Recorded)
    (hrot : h'.rotation = h.rotation) (hmode : h'.deniable.isSome = h.deniable.isSome) :
    History h' := by
  have habove : ∀ m n, b.stamp = some m → h.Holds n → m.mvk = n.mvk →
      n.generation < m.generation := by
    intro m n hm hn hmvk
    have hle := ho.numbered.upTo n hn (hmvk.symm.trans (hb m hm).1)
    exact lt_of_le_of_lt hle (hb m hm).2
  refine ⟨?_, ?_, hr, ?_⟩
  · intro m n hm hn hmvk hgen
    rcases hst m hm with hm' | hm' <;> rcases hst n hn with hn' | hn'
    · rw [hm'] at hn'
      injection hn' with hn'
      rw [hn']
    · have := habove m n hm' hn' hmvk
      omega
    · have := habove n m hn' hm' hmvk.symm
      omega
    · exact ho.unique m n hm' hn' hmvk hgen
  · intro m hm
    rcases hst m hm with hm' | hm'
    · exact lt_of_le_of_lt (Nat.zero_le _) (hb m hm').2
    · exact ho.positive m hm'
  · intro st hst'
    have hback := ho.back st (hrot ▸ hst')
    refine ⟨fun m hm hmvk => ?_, hback.plain, hback.mode.trans hmode.symm⟩
    rcases hst m hm with hm' | hm'
    · exact absurd (hmvk.symm.trans (hb m hm').1) (ho.apart st (hrot ▸ hst'))
    · exact hback.upTo m hm' hmvk

/-- A state that stored nothing new and counts no lower is as good as before. -/
theorem Ordered.same (ho : Ordered h) (hst : ∀ m, h'.Holds m → h.Holds m) (hr : h'.Recorded)
    (hmvk : h'.mvk = h.mvk) (hrot : h'.rotation = h.rotation ∨ h'.rotation = none)
    (hmode : h'.deniable.isSome = h.deniable.isSome)
    (hgen : h.generation?.getD 0 ≤ h'.generation?.getD 0) (hplain : PlainInner h'.deniable) :
    Ordered h' := by
  have hback : ∀ st, h'.rotation = some st → h.rotation = some st := by
    intro st hst'
    rcases hrot with hrot | hrot
    · exact hrot ▸ hst'
    · rw [hrot] at hst'
      cases hst'
  refine ⟨⟨?_, ?_, hr, ?_⟩, ⟨?_, hplain⟩, ?_⟩
  · intro m n hm hn
    exact ho.unique m n (hst m hm) (hst n hn)
  · intro m hm
    exact ho.positive m (hst m hm)
  · intro st hst'
    have hb := ho.back st (hback st hst')
    exact ⟨fun m hm => hb.upTo m (hst m hm), hb.plain, hb.mode.trans hmode.symm⟩
  · intro m hm heq
    exact le_trans (ho.numbered.upTo m (hst m hm) (heq.trans hmvk)) hgen
  · intro st hst'
    rw [hmvk]
    exact ho.apart st (hback st hst')

/-- A header stored and counted. -/
theorem Ordered.of_write (ho : Ordered h)
    (hb : ∀ m, b.stamp = some m → m.mvk = h.mvk ∧ h.generation?.getD 0 < m.generation ∧
      m.generation ≤ h'.generation?.getD 0)
    (hst : ∀ m, h'.Holds m → b.stamp = some m ∨ h.Holds m) (hr : h'.Recorded)
    (hmvk : h'.mvk = h.mvk) (hrot : h'.rotation = h.rotation)
    (hmode : h'.deniable.isSome = h.deniable.isSome)
    (hgen : h.generation?.getD 0 ≤ h'.generation?.getD 0) (hplain : PlainInner h'.deniable) :
    Ordered h' := by
  refine ⟨ho.history_of_write (fun m hm => ⟨(hb m hm).1, (hb m hm).2.1⟩) hst hr hrot hmode,
    ⟨?_, hplain⟩, ?_⟩
  · intro m hm heq
    rcases hst m hm with hm' | hm'
    · exact (hb m hm').2.2
    · exact le_trans (ho.numbered.upTo m hm' (heq.trans hmvk)) hgen
  · intro st hst'
    rw [hmvk]
    exact ho.apart st (hrot ▸ hst')

end Growing

/-! ## `persist_header` -/

theorem nextHeaderGeneration_eq_some {g n : Nat} (h : nextHeaderGeneration g = some n) :
    n = g + 1 := by
  unfold nextHeaderGeneration at h
  split at h
  · injection h with h
    exact h.symm
  · cases h

/-- The header a persist writes. -/
def persistedBytes (h : Head) (nonce : Nat) : Option HeaderBytes :=
  match h.deniable with
  | some den => (den.resealed h.mvk nonce).toOption.map fun d => .deniable d.bytes
  | none =>
      if h.versionMajor ≥ versionMajorHeaderV3 then
        (nextHeaderGeneration h.headerGeneration).map fun g =>
          .standard { h.image with generation := g }
      else some (.standard h.image)

/-- The writes of a persist and what the first of them goes over. -/
def persistWrites (h : Head) : Nat := if h.deniable.isSome then 2 else h.standardWrites

def persistOld (h : Head) : Option HeaderBytes :=
  if h.deniable.isSome then h.files h.handle else h.standardOld

/-- A persist that succeeds, or fails before its new stamp has landed. -/
def SettledPersist (h : Head) (nonce : Nat) : Prop :=
  ∀ bytes, h.persistedBytes nonce = some bytes → SettledWrite h h.persistWrites h.persistOld bytes

/-- What a call leaves when it returns `Err`. -/
structure FailedCall (settled : Prop) (h h' : Head) : Prop where
  history : History h'
  rotation : h'.rotation = h.rotation
  ordered : settled → Ordered h'

theorem FailedCall.of_ordered {settled : Prop} (ho : Ordered h') (hrot : h'.rotation = h.rotation) :
    FailedCall settled h h' := ⟨ho.toHistory, hrot, fun _ => ho⟩

theorem persistStandard_spec {nonce : Nat} (ho : Ordered h) (hden : h.deniable = none) :
    wp persistStandard (fun _ h' => Ordered h' ∧ h'.rotation = h.rotation)
      (fun _ h' => FailedCall (h.SettledPersist nonce) h h') h := by
  unfold persistStandard
  rw [wp_bind, wp_get]
  have hplain : PlainInner h.deniable := ho.numbered.plain
  have hmode : h.deniable.isSome = false := by rw [hden]; rfl
  simp only
  split
  · next hv3 =>
      have hgen : h.generation? = some h.headerGeneration := by
        unfold generation?
        rw [hden]
        exact if_pos hv3
      cases hn : nextHeaderGeneration h.headerGeneration with
      | none => exact FailedCall.of_ordered ho rfl
      | some g =>
          obtain rfl := nextHeaderGeneration_eq_some hn
          -- the generation is up, nothing is written yet
          let h₁ : Head := { h with headerGeneration := h.headerGeneration + 1 }
          have hgen₁ : h₁.generation? = some (h.headerGeneration + 1) := by
            unfold generation?
            rw [show h₁.deniable = none from hden]
            exact if_pos hv3
          have hstamp : ∀ m, (HeaderBytes.standard h₁.image).stamp = some m →
              m.mvk = h.mvk ∧ m.generation = h.headerGeneration + 1 := by
            intro m hm
            unfold HeaderBytes.stamp at hm
            simp only at hm
            rw [if_pos (show h₁.image.versionMajor ≥ versionMajorHeaderV3 from hv3)] at hm
            injection hm with hm
            subst hm
            exact ⟨rfl, rfl⟩
          have hbytes : h.persistedBytes nonce = some (.standard h₁.image) := by
            unfold persistedBytes
            rw [hden]
            simp only
            rw [if_pos hv3, hn]
            rfl
          show wp (persistMoved h.headerGeneration) _ _ h₁
          unfold persistMoved
          rw [wp_bind, wp_attempt]
          refine wp_mono (writeStandardHeader_spec (show h₁.Recorded from ho.recorded)) ?_ ?_
          · intro _ h₂ hw
            have hg₂ : Head.generation? { h₂ with headerDirty := false } =
                some (h.headerGeneration + 1) := (hw.generation).trans hgen₁
            refine ⟨ho.of_write (b := .standard h₁.image) ?_ hw.stamps
              (hw.recorded ho.recorded) hw.mvk hw.rotation ?_ ?_ ?_, hw.rotation⟩
            · intro m hm
              rw [hg₂, hgen]
              have := (hstamp m hm).2
              exact ⟨(hstamp m hm).1, by simp only [Option.getD_some]; omega,
                by simp only [Option.getD_some]; omega⟩
            · show h₂.deniable.isSome = _
              rw [hw.deniable]
            · rw [hg₂, hgen]
              exact Nat.le_succ _
            · show PlainInner h₂.deniable
              rw [hw.deniable]
              exact hplain
          · intro e h₂ hw
            show FailedCall _ h { h₂ with headerGeneration := h.headerGeneration }
            have hback : Head.generation? { h₂ with headerGeneration := h.headerGeneration } =
                h.generation? := by
              rw [hw.1.same]
              rfl
            refine ⟨ho.history_of_write (b := .standard h₁.image) ?_ hw.1.stamps
              (hw.1.recorded ho.recorded) hw.1.rotation ?_, hw.1.rotation, fun hs => ?_⟩
            · intro m hm
              rw [hgen]
              have := (hstamp m hm).2
              exact ⟨(hstamp m hm).1, by simp only [Option.getD_some]; omega⟩
            · show h₂.deniable.isSome = _
              rw [hw.1.deniable]
            · have hset := hs _ hbytes
              unfold persistWrites persistOld at hset
              rw [hmode] at hset
              have hnot := hw.2 hset
              refine ho.same ?_ (hw.1.recorded ho.recorded) hw.1.mvk (.inl hw.1.rotation) ?_ ?_ ?_
              · intro m hm
                rcases hnot.stamps m hm with hf | hm
                · exact hf.elim
                · exact hm
              · show h₂.deniable.isSome = _
                rw [hw.1.deniable]
              · rw [hback]
              · show PlainInner h₂.deniable
                rw [hw.1.deniable]
                exact hplain
  · next hv3 =>
      have hstamp : ∀ m, (HeaderBytes.standard h.image).stamp = some m → False := by
        intro m hm
        unfold HeaderBytes.stamp at hm
        simp only at hm
        rw [if_neg (show ¬ h.image.versionMajor ≥ versionMajorHeaderV3 from hv3)] at hm
        cases hm
      have hsame : ∀ h₂ : Head, Wrote (fun m => (HeaderBytes.standard h.image).stamp = some m) h h₂ →
          ∀ d g, g = h.headerGeneration →
          Ordered { h₂ with headerDirty := d, headerGeneration := g } := by
        intro h₂ hw d g hg
        refine ho.same ?_ (hw.recorded ho.recorded) hw.mvk (.inl hw.rotation) ?_ ?_ ?_
        · intro m hm
          rcases hw.stamps m hm with hf | hm
          · exact (hstamp m hf).elim
          · exact hm
        · show h₂.deniable.isSome = _
          rw [hw.deniable]
        · rw [hw.same, hg]
          exact le_refl _
        · show PlainInner h₂.deniable
          rw [hw.deniable]
          exact hplain
      unfold persistMoved
      rw [wp_bind, wp_attempt]
      refine wp_mono (writeStandardHeader_spec ho.recorded) ?_ ?_
      · intro _ h₂ hw
        exact ⟨hsame h₂ hw false h₂.headerGeneration (by rw [hw.same]), hw.rotation⟩
      · intro e h₂ hw
        exact FailedCall.of_ordered (hsame h₂ hw.1 h₂.headerDirty _ rfl) hw.1.rotation

/-- A persist of a deniable header writes the next generation over its slots, or
a header older than v3 as it is. -/
theorem resealed_cases {den den' : DeniableState} {mvk nonce : Nat}
    (hp : PlainInner (some den)) (hr : den.resealed mvk nonce = .ok den') :
    (den.v3 = none ∧ den' = den ∧ (HeaderBytes.deniable den'.bytes).stamp = none) ∨
    ∃ v, den.v3 = some v ∧ den'.v3 = some ⟨v.headerGeneration + 1, den.bytes.slots⟩ ∧
      (HeaderBytes.deniable den'.bytes).stamp =
        some ⟨mvk, v.headerGeneration + 1, .inr den.bytes.slots⟩ := by
  unfold DeniableState.resealed at hr
  cases hv : den.v3 with
  | none =>
      rw [hv] at hr
      injection hr with hr
      subst hr
      exact .inl ⟨rfl, rfl, hp den rfl hv⟩
  | some v =>
      rw [hv] at hr
      simp only at hr
      split at hr
      · cases hr
      next g hg =>
      obtain rfl := nextHeaderGeneration_eq_some hg
      injection hr with hr
      subst hr
      exact .inr ⟨v, rfl, rfl, rfl⟩

theorem persistDeniable_spec {den : DeniableState} {nonce : Nat} (ho : Ordered h)
    (hden : h.deniable = some den) :
    wp (persistDeniable den nonce) (fun _ h' => Ordered h' ∧ h'.rotation = h.rotation)
      (fun _ h' => FailedCall (h.SettledPersist nonce) h h') h := by
  unfold persistDeniable
  rw [wp_bind, wp_get]
  cases hr : den.resealed h.mvk nonce with
  | error e => exact FailedCall.of_ordered ho rfl
  | ok den' =>
      have hplain : PlainInner (some den) := hden ▸ ho.numbered.plain
      have hcases := resealed_cases hplain hr
      have hmode : h.deniable.isSome = true := by rw [hden]; rfl
      have hgen : h.generation? = den.v3.map DeniableHeaderV3.headerGeneration := by
        unfold generation?
        rw [hden]
      have hbytes : h.persistedBytes nonce = some (.deniable den'.bytes) := by
        unfold persistedBytes
        rw [hden]
        simp only
        rw [hr]
        rfl
      have hstamp : ∀ m, (HeaderBytes.deniable den'.bytes).stamp = some m → m.mvk = h.mvk ∧
          h.generation?.getD 0 < m.generation ∧
          m.generation ≤ (den'.v3.map DeniableHeaderV3.headerGeneration).getD 0 := by
        intro m hm
        rcases hcases with ⟨-, -, hnone⟩ | ⟨v, hv, hv', hsome⟩
        · rw [hnone] at hm
          cases hm
        · rw [hsome] at hm
          injection hm with hm
          subst hm
          rw [hgen, hv, hv']
          exact ⟨rfl, Nat.lt_succ_self _, le_refl _⟩
      have hup : h.generation?.getD 0 ≤ (den'.v3.map DeniableHeaderV3.headerGeneration).getD 0 := by
        rw [hgen]
        rcases hcases with ⟨hv, rfl, -⟩ | ⟨v, hv, hv', -⟩
        · exact le_refl _
        · rw [hv, hv']
          exact Nat.le_succ _
      have hplain' : PlainInner (some den') := by
        intro d hd hv
        injection hd with hd
        subst hd
        rcases hcases with ⟨-, -, hnone⟩ | ⟨v, -, hv', -⟩
        · exact hnone
        · rw [hv'] at hv
          cases hv
      show wp (do
        writeLiveHeader (.deniable den'.bytes)
        ioStep
        modify fun h : Head => { h with deniable := some den', headerDirty := false }) _ _ h
      rw [← bind_assoc, wp_bind]
      refine wp_mono (writeLiveSync_spec ho.recorded) ?_ ?_
      · intro _ h₁ hw
        refine ⟨ho.of_write (b := .deniable den'.bytes) hstamp hw.stamps
          (hw.recorded ho.recorded) hw.mvk hw.rotation ?_ hup hplain', hw.rotation⟩
        rw [hmode]
        rfl
      · intro e h₁ hw
        have hmode' : h₁.deniable.isSome = h.deniable.isSome := by rw [hw.1.deniable]
        refine ⟨ho.history_of_write (b := .deniable den'.bytes)
          (fun m hm => ⟨(hstamp m hm).1, (hstamp m hm).2.1⟩) hw.1.stamps
          (hw.1.recorded ho.recorded) hw.1.rotation hmode', hw.1.rotation, fun hs => ?_⟩
        have hset := hs _ hbytes
        unfold persistWrites persistOld at hset
        rw [hmode] at hset
        have hnot := hw.2 hset
        refine ho.same ?_ (hw.1.recorded ho.recorded) hw.1.mvk (.inl hw.1.rotation) hmode' ?_ ?_
        · intro m hm
          rcases hnot.stamps m hm with hf | hm
          · exact hf.elim
          · exact hm
        · rw [hw.1.generation]
        · rw [hw.1.deniable]
          exact ho.numbered.plain

theorem persistHeader_spec {nonce : Nat} (ho : Ordered h) :
    wp (persistHeader nonce) (fun _ h' => Ordered h' ∧ h'.rotation = h.rotation)
      (fun _ h' => FailedCall (h.SettledPersist nonce) h h') h := by
  unfold persistHeader
  rw [wp_bind, wp_get]
  split
  · exact ⟨ho, rfl⟩
  cases hden : h.deniable with
  | none => exact persistStandard_spec ho hden
  | some den => exact persistDeniable_spec ho hden

/-! ## `restore_header_as_new_state` -/

/-- The header a restore writes. -/
def restoredBytes (h : Head) (versionMajor generation : Nat) (keyslots : KeyTable) :
    Option HeaderBytes :=
  if h.deniable.isSome then none
  else if h.generation?.isSome ∨ versionMajor ≥ versionMajorHeaderV3 then
    (nextHeaderGeneration (max (h.generation?.getD 0)
      (if versionMajor ≥ versionMajorHeaderV3 then generation else 0))).map fun g =>
        .standard ⟨h.mvk, max versionMajor versionMajorHeaderV3, g, keyslots⟩
  else some (.standard ⟨h.mvk, versionMajor, 0, keyslots⟩)

def SettledRestore (h : Head) (versionMajor generation : Nat) (keyslots : KeyTable) : Prop :=
  ∀ bytes, h.restoredBytes versionMajor generation keyslots = some bytes →
    SettledWrite h 2 (h.files h.handle) bytes

theorem restoreHeader_spec {versionMajor generation : Nat} {keyslots : KeyTable}
    (ho : Ordered h) :
    wp (restoreHeaderAsNewState versionMajor generation keyslots) (fun _ h' => Ordered h')
      (fun _ h' => FailedCall (h.SettledRestore versionMajor generation keyslots) h h') h := by
  unfold restoreHeaderAsNewState
  rw [wp_bind, wp_get]
  split
  · exact FailedCall.of_ordered ho rfl
  next hden =>
  have hden : h.deniable = none := by simpa using hden
  -- the write, for an image that carries this stamp or none
  have hwrite : ∀ image : HeaderImage, ∀ f : Head → Head,
      h.restoredBytes versionMajor generation keyslots = some (.standard image) →
      (∀ m, (HeaderBytes.standard image).stamp = some m → m.mvk = h.mvk ∧
        h.generation?.getD 0 < m.generation) →
      (∀ h₂, Wrote (fun m => (HeaderBytes.standard image).stamp = some m) h h₂ →
        Ordered (f { h₂ with headerDirty := false })) →
      wp (do
        restoreHeaderBytes image
        modify f) (fun _ h' => Ordered h')
        (fun _ h' => FailedCall (h.SettledRestore versionMajor generation keyslots) h h') h := by
    intro image f hbytes hstamp hf
    unfold restoreHeaderBytes
    rw [← bind_assoc, bind_assoc, wp_bind]
    refine wp_mono (writeLiveSync_spec ho.recorded) (fun _ h₂ hw => hf h₂ hw) ?_
    intro e h₂ hw
    have hmode' : h₂.deniable.isSome = h.deniable.isSome := by rw [hw.1.deniable]
    refine ⟨ho.history_of_write hstamp hw.1.stamps (hw.1.recorded ho.recorded) hw.1.rotation hmode',
      hw.1.rotation, fun hs => ?_⟩
    have hnot := hw.2 (hs _ hbytes)
    refine ho.same ?_ (hw.1.recorded ho.recorded) hw.1.mvk (.inl hw.1.rotation) hmode' ?_ ?_
    · intro m hm
      rcases hnot.stamps m hm with hf | hm
      · exact hf.elim
      · exact hm
    · rw [hw.1.generation]
    · rw [hw.1.deniable]
      exact ho.numbered.plain
  split
  · next hv3 =>
      simp only
      split
      · exact FailedCall.of_ordered ho rfl
      next g hg =>
      have hlt : h.generation?.getD 0 < g := by
        rw [nextHeaderGeneration_eq_some hg]
        exact Nat.lt_succ_of_le (le_max_left _ _)
      have hstamp : ∀ m, (HeaderBytes.standard
          ⟨h.mvk, max versionMajor versionMajorHeaderV3, g, keyslots⟩).stamp = some m →
          m.mvk = h.mvk ∧ m.generation = g := by
        intro m hm
        unfold HeaderBytes.stamp at hm
        simp only at hm
        rw [if_pos (le_max_right _ _)] at hm
        injection hm with hm
        subst hm
        exact ⟨rfl, rfl⟩
      apply hwrite
      · unfold restoredBytes
        rw [hden]
        simp only [Option.isSome_none, Bool.false_eq_true, if_false]
        rw [if_pos hv3, hg]
        rfl
      · intro m hm
        exact ⟨(hstamp m hm).1, by rw [(hstamp m hm).2]; exact hlt⟩
      · intro h₂ hw
        have hgen : Head.generation? { h₂ with
            headerDirty := false
            versionMajor := max versionMajor versionMajorHeaderV3
            headerGeneration := g
            keyslots := keyslots } = some g := by
          unfold generation?
          simp only
          rw [hw.deniable, hden]
          exact if_pos (le_max_right _ _)
        refine ho.of_write (b := .standard
          ⟨h.mvk, max versionMajor versionMajorHeaderV3, g, keyslots⟩) ?_ hw.stamps
          (hw.recorded ho.recorded) hw.mvk hw.rotation ?_ ?_ ?_
        · intro m hm
          rw [hgen, (hstamp m hm).2]
          exact ⟨(hstamp m hm).1, hlt, le_refl _⟩
        · show h₂.deniable.isSome = _
          rw [hw.deniable]
        · rw [hgen]
          exact le_of_lt hlt
        · show PlainInner h₂.deniable
          rw [hw.deniable]
          exact ho.numbered.plain
  · next hv3 =>
      rw [not_or] at hv3
      have hnone : h.generation? = none := by simpa using hv3.1
      have hstamp : ∀ m, (HeaderBytes.standard ⟨h.mvk, versionMajor, 0, keyslots⟩).stamp = some m →
          False := by
        intro m hm
        unfold HeaderBytes.stamp at hm
        simp only at hm
        rw [if_neg hv3.2] at hm
        cases hm
      apply hwrite
      · unfold restoredBytes
        rw [hden]
        simp only [Option.isSome_none, Bool.false_eq_true, if_false]
        rw [if_neg (not_or.2 hv3)]
      · exact fun m hm => (hstamp m hm).elim
      · intro h₂ hw
        refine ho.same ?_ (hw.recorded ho.recorded) hw.mvk (.inl hw.rotation) ?_ ?_ ?_
        · intro m hm
          rcases hw.stamps m hm with hf | hm
          · exact (hstamp m hf).elim
          · exact hm
        · show h₂.deniable.isSome = _
          rw [hw.deniable]
        · rw [hnone]
          exact Nat.zero_le _
        · show PlainInner h₂.deniable
          rw [hw.deniable]
          exact ho.numbered.plain

/-! ## Keyslots -/

/-- Nothing but the tables in memory has changed. -/
structure Mutated (h h' : Head) : Prop where
  mvk : h'.mvk = h.mvk
  files : h'.files = h.files
  mirrors : h'.mirrors = h.mirrors
  stored : h'.stored = h.stored
  rotation : h'.rotation = h.rotation
  mode : h'.deniable.isSome = h.deniable.isSome
  generation : h.generation?.getD 0 ≤ h'.generation?.getD 0
  plain : PlainInner h.deniable → PlainInner h'.deniable

theorem Mutated.refl : Mutated h h := ⟨rfl, rfl, rfl, rfl, rfl, rfl, le_refl _, id⟩

theorem holds_congr (hs : h'.stored = h.stored) {m : HeaderStamp} : h'.Holds m ↔ h.Holds m := by
  unfold Holds
  rw [hs]

theorem recorded_congr (hs : h'.stored = h.stored)
    (hp : ∀ p b, h'.files p = some b ∨ h'.mirrors p = some b →
      ∃ q, h.files q = some b ∨ h.mirrors q = some b) (hr : h.Recorded) : h'.Recorded := by
  intro p b hb m hm
  obtain ⟨q, hq⟩ := hp p b hb
  exact (holds_congr hs).2 (hr q b hq m hm)

theorem Ordered.mutated (ho : Ordered h) (hm : Mutated h h') : Ordered h' := by
  refine ho.same (fun m => (holds_congr hm.stored).1) ?_ hm.mvk (.inl hm.rotation) hm.mode
    hm.generation (hm.plain ho.numbered.plain)
  refine recorded_congr hm.stored (fun p b hb => ⟨p, ?_⟩) ho.recorded
  rw [hm.files, hm.mirrors] at hb
  exact hb

abbrev Mutating {α : Type} (m : HeadM α) (h : Head) : Prop :=
  wp m (fun _ h' => Mutated h h') (fun _ h' => Mutated h h') h

theorem setSlot_mutating {idx : Nat} {slot : Option Keyslot} : Mutating (setSlot idx slot) h := by
  unfold setSlot
  split
  · exact ⟨rfl, rfl, rfl, rfl, rfl, rfl, le_refl _, id⟩
  · exact Mutated.refl

theorem guardStandard_mutating {α : Type} {m : HeadM α} (hm : Mutating m h) :
    Mutating (do guardStandard; m) h := by
  unfold guardStandard
  rw [Mutating, wp_bind, wp_bind, wp_get]
  split
  · exact Mutated.refl
  · exact hm

theorem enroll_mutating {credential salt : Nat} {derivedMvk : Bool} :
    Mutating (enroll credential salt derivedMvk) h := by
  apply guardStandard_mutating
  rw [Mutating, wp_bind, wp_get]
  split
  · exact Mutated.refl
  · exact setSlot_mutating

theorem updateAt_mutating {idx credential salt : Nat} {derivedMvk : Bool} :
    Mutating (updateAt idx credential salt derivedMvk) h := by
  apply guardStandard_mutating
  rw [Mutating, wp_bind, wp_get]
  exact setSlot_mutating

theorem swapSlots_mutating {a b : Nat} : Mutating (swapSlots a b) h := by
  apply guardStandard_mutating
  split
  · split
    · exact Mutated.refl
    · exact ⟨rfl, rfl, rfl, rfl, rfl, rfl, le_refl _, id⟩
  · exact Mutated.refl

/-- A deniable state with other slots and the same inner header. -/
theorem mutated_slots {den den' : DeniableState} (hden : h.deniable = some den)
    (hv3 : den'.v3 = den.v3) (hinner : den'.bytes.inner = den.bytes.inner) :
    Mutated h { h with deniable := some den', headerDirty := true } where
  mvk := rfl
  files := rfl
  mirrors := rfl
  stored := rfl
  rotation := rfl
  mode := by rw [hden]; rfl
  generation := by
    unfold generation?
    rw [hden]
    simp only
    rw [hv3]
  plain := by
    intro hp d hd hv
    injection hd with hd
    subst hd
    rw [stamp_of_inner_eq hinner]
    exact hp den hden (hv3 ▸ hv)

theorem enrollDeniable_mutating {accepts : Argon2idParams → Bool} {slotIdx : Nat}
    {credential : DeniableCredential} {material : DeniableMaterial} {seed : SlotSeed} :
    Mutating (enrollDeniable accepts slotIdx credential material seed) h := by
  unfold enrollDeniable
  rw [Mutating, wp_bind, wp_get]
  cases hden : h.deniable with
  | none => exact Mutated.refl
  | some den =>
      simp only
      split
      · exact Mutated.refl
      next den' hr =>
      unfold DeniableState.enroll at hr
      split at hr
      · cases hr
      split at hr
      · cases hr
      obtain ⟨bytes, hi, hr⟩ := except_bind_eq_ok.1 hr
      injection hr with hr
      subst hr
      refine mutated_slots hden rfl ?_
      unfold installSlotV2 at hi
      split at hi
      · obtain ⟨slot, -, hi⟩ := except_bind_eq_ok.1 hi
        injection hi with hi
        subst hi
        rfl
      · cases hi

theorem clearDeniableSlot_mutating {slotIdx fill : Nat} :
    Mutating (clearDeniableSlot slotIdx fill) h := by
  unfold clearDeniableSlot
  rw [Mutating, wp_bind, wp_get]
  cases hden : h.deniable with
  | none => exact Mutated.refl
  | some den =>
      simp only
      split
      · exact Mutated.refl
      next den' hr =>
      unfold DeniableState.clear at hr
      split at hr
      · cases hr
      split at hr
      · cases hr
      obtain ⟨bytes, hi, hr⟩ := except_bind_eq_ok.1 hr
      injection hr with hr
      subst hr
      refine mutated_slots hden rfl ?_
      unfold clearSlot at hi
      split at hi
      · injection hi with hi
        subst hi
        rfl
      · cases hi

theorem upgradeHeaderToV3_mutating : Mutating upgradeHeaderToV3 h := by
  unfold upgradeHeaderToV3
  rw [Mutating, wp_bind, wp_get]
  split
  · exact Mutated.refl
  split
  · exact Mutated.refl
  next hnone =>
  have hnone : h.generation? = none := by simpa using hnone
  have hzero : h.generation?.getD 0 = 0 := by rw [hnone]; rfl
  cases hden : h.deniable with
  | some den =>
      refine ⟨rfl, rfl, rfl, rfl, rfl, ?_, ?_, ?_⟩
      · rw [hden]
        rfl
      · rw [hzero]
        exact Nat.zero_le _
      · intro _ d hd hv
        injection hd with hd
        subst hd
        unfold DeniableState.upgrade at hv
        split at hv
        · next hs => rw [hs] at hv; cases hv
        · cases hv
  | none =>
      simp only
      split
      · exact Mutated.refl
      · refine ⟨rfl, rfl, rfl, rfl, rfl, rfl, ?_, id⟩
        rw [hzero]
        exact Nat.zero_le _

/-! ## Rotation -/

/-- A new master key no stored header was sealed under. -/
def FreshKey (h : Head) (newMvk : Nat) : Prop := newMvk ≠ h.mvk ∧ ∀ m, h.Holds m → m.mvk ≠ newMvk

theorem restored_generation {st : RotationState} (hmode : st.savedDeniable.isSome = h.deniable.isSome) :
    (h.restored st).generation? = savedGeneration? st := by
  unfold generation? savedGeneration?
  show (match st.savedDeniable.or h.deniable with
    | some den => den.v3.map DeniableHeaderV3.headerGeneration
    | none => _) = _
  cases hs : st.savedDeniable with
  | some den => rfl
  | none =>
      rw [hs] at hmode
      have : h.deniable = none := by simpa using hmode.symm
      rw [this]
      rfl

/-- An abort leads back to a numbered state. -/
theorem History.aborted (hh : History h) {st : RotationState} (hrot : h.rotation = some st) :
    Ordered (h.restored st) := by
  have hback := hh.back st hrot
  have hstored : (h.restored st).stored = h.stored := rfl
  have hdel : ∀ f : Place → Option HeaderBytes, ∀ p b,
      Function.update f .rotating none p = some b → f p = some b := by
    intro f p b hb
    by_cases hp : p = .rotating
    · rw [hp, Function.update_self] at hb
      cases hb
    · rwa [Function.update_of_ne hp] at hb
  refine ⟨⟨hh.unique, hh.positive, ?_, nofun⟩, ⟨?_, ?_⟩, nofun⟩
  · refine recorded_congr hstored (fun p b hb => ⟨p, ?_⟩) hh.recorded
    exact hb.imp (hdel h.files p b) (hdel h.mirrors p b)
  · intro m hm hmvk
    rw [restored_generation hback.mode]
    exact hback.upTo m hm hmvk
  · intro d hd hv
    have hmode := hback.mode
    have hsaved : st.savedDeniable = some d := by
      cases hs : st.savedDeniable with
      | some e =>
          have : (h.restored st).deniable = some e := by
            show st.savedDeniable.or h.deniable = some e
            rw [hs]
            rfl
          rw [← hd, this]
      | none =>
          rw [hs] at hmode
          have hn : h.deniable = none := by simpa using hmode.symm
          have : (h.restored st).deniable = none := by
            show st.savedDeniable.or h.deniable = none
            rw [hs, hn]
            rfl
          rw [this] at hd
          cases hd
    exact hback.plain d hsaved hv

/-- What the calls of a commit can do: no header is written, and the rotation
ends or stays. -/
structure Moved (h h' : Head) : Prop where
  mvk : h'.mvk = h.mvk
  versionMajor : h'.versionMajor = h.versionMajor
  headerGeneration : h'.headerGeneration = h.headerGeneration
  deniable : h'.deniable = h.deniable
  stored : h'.stored = h.stored
  rotation : h'.rotation = h.rotation ∨ h'.rotation = none
  places : ∀ p b, h'.files p = some b ∨ h'.mirrors p = some b →
    ∃ q, h.files q = some b ∨ h.mirrors q = some b

theorem Moved.trans (hm : Moved h h₁) (hm' : Moved h₁ h') : Moved h h' where
  mvk := hm'.mvk.trans hm.mvk
  versionMajor := hm'.versionMajor.trans hm.versionMajor
  headerGeneration := hm'.headerGeneration.trans hm.headerGeneration
  deniable := hm'.deniable.trans hm.deniable
  stored := hm'.stored.trans hm.stored
  rotation := by
    rcases hm'.rotation with hr | hr
    · rw [hr]
      exact hm.rotation
    · exact .inr hr
  places := by
    intro p b hb
    obtain ⟨q, hq⟩ := hm'.places p b hb
    exact hm.places q b hq

theorem Moved.of_fields {io : List HeaderFault} {rotation : Option RotationState} {d : Bool}
    {handle path : Place} (hr : rotation = h.rotation ∨ rotation = none) :
    Moved h { h with io := io, rotation := rotation, headerDirty := d, handle := handle, path := path } :=
  ⟨rfl, rfl, rfl, rfl, rfl, hr, fun p _ hb => ⟨p, hb⟩⟩

theorem Moved.renamed : Moved h h.renamed := by
  refine ⟨rfl, rfl, rfl, rfl, rfl, .inl rfl, fun p b hb => ?_⟩
  rcases hb with hb | hb
  · cases p with
    | committed => exact ⟨.rotating, .inl hb⟩
    | rotating => cases hb
  · exact ⟨p, .inr hb⟩

theorem Moved.unmirrored {p : Place} :
    Moved h { h with mirrors := Function.update h.mirrors p none } := by
  refine ⟨rfl, rfl, rfl, rfl, rfl, .inl rfl, fun q b hb => ⟨q, ?_⟩⟩
  rcases hb with hb | hb
  · exact .inl hb
  · by_cases hq : q = p
    · subst hq
      have : Function.update h.mirrors q none q = some b := hb
      rw [Function.update_self] at this
      cases this
    · have : Function.update h.mirrors p none q = some b := hb
      rw [Function.update_of_ne hq] at this
      exact .inr this

theorem Ordered.moved (ho : Ordered h) (hm : Moved h h') : Ordered h' := by
  have hgen : h'.generation? = h.generation? := by
    unfold generation?
    rw [hm.deniable, hm.versionMajor, hm.headerGeneration]
  refine ho.same (fun m => (holds_congr hm.stored).1)
    (recorded_congr hm.stored hm.places ho.recorded) hm.mvk hm.rotation ?_ ?_ ?_
  · rw [hm.deniable]
  · rw [hgen]
  · rw [hm.deniable]
    exact ho.numbered.plain

theorem wp_step {Q : Unit → Head → Prop} {E : Failure → Head → Prop}
    (hq : Q () { h with io := h.io.tail }) (he : E ioFailed { h with io := h.io.tail }) :
    wp ioStep Q E h := by
  unfold ioStep
  rw [wp_bind]
  apply wp_fault
  split
  · exact hq
  · exact he

theorem commitAtomicRotation_moved :
    wp commitAtomicRotation (fun _ h' => Moved h h') (fun _ h' => Moved h h') h := by
  unfold commitAtomicRotation
  rw [wp_bind, wp_get]
  split
  · exact Moved.of_fields (.inl rfl)
  next st hst =>
  rw [wp_bind, wp_modify, wp_bind]
  apply wp_step
  · rw [wp_bind]
    apply wp_step
    · rw [wp_bind, wp_attempt]
      apply wp_step
      · simp only
        rw [wp_bind, wp_modify, wp_bind]
        have hren : Moved h (renamed { h with
            rotation := none, io := h.io.tail.tail.tail }) :=
          (Moved.of_fields (.inr rfl)).trans Moved.renamed
        apply wp_step
        · rw [wp_bind, wp_modify, wp_bind]
          unfold removeStaleMirror
          rw [wp_bind]
          apply wp_fault
          split
          · exact ((((hren.trans (Moved.of_fields (.inl rfl))).trans Moved.unmirrored).trans
              (Moved.of_fields (.inl rfl))).trans Moved.unmirrored).trans (Moved.of_fields (.inl rfl))
          · exact (((hren.trans (Moved.of_fields (.inl rfl))).trans Moved.unmirrored).trans
              (Moved.of_fields (.inl rfl))).trans (Moved.of_fields (.inl rfl))
        · exact hren.trans (Moved.of_fields (.inl rfl))
      · -- a failed rename puts the rotation back
        exact Moved.of_fields (.inl hst.symm)
    · exact Moved.of_fields (.inr rfl)
  · exact Moved.of_fields (.inr rfl)

/-- The copy is made: nothing has been written and the way back is saved. -/
structure Begun (h h₁ : Head) : Prop where
  history : History h₁
  mvk : h₁.mvk = h.mvk
  stored : h₁.stored = h.stored
  deniable : h₁.deniable = h.deniable
  rotation : h₁.rotation = some h.saved

theorem beginAtomicRotation_spec (ho : Ordered h) :
    wp beginAtomicRotation (fun _ h₁ => Begun h h₁) (fun _ h₁ => Ordered h₁) h := by
  unfold beginAtomicRotation
  rw [wp_bind, wp_get]
  split
  · exact ho
  split
  · exact ho
  rw [wp_bind]
  apply wp_step
  · refine ⟨⟨ho.unique, ho.positive, ?_, ?_⟩, rfl, rfl, rfl, rfl⟩
    · refine recorded_congr (h := h) rfl (fun p b hb => ?_) ho.recorded
      rcases hb with hb | hb
      · cases p with
        | committed => exact ⟨.committed, .inl hb⟩
        | rotating => exact ⟨h.handle, .inl hb⟩
      · exact ⟨p, .inr hb⟩
    · intro st hst
      injection hst with hst
      subst hst
      exact ⟨ho.numbered.upTo, ho.numbered.plain, rfl⟩
  · exact ho.moved (Moved.of_fields (.inl rfl))

/-- New slots under a fresh key: the key has no stamps yet. -/
theorem Begun.installed {newMvk : Nat} (hb : Begun h h₁) (hf : h.FreshKey newMvk)
    (hmvk : h'.mvk = newMvk) (hfiles : h'.files = h₁.files) (hmirrors : h'.mirrors = h₁.mirrors)
    (hstored : h'.stored = h₁.stored) (hrot : h'.rotation = h₁.rotation)
    (hmode : h'.deniable.isSome = h₁.deniable.isSome) (hplain : PlainInner h'.deniable) :
    Ordered h' := by
  have hholds : ∀ m, h'.Holds m → h₁.Holds m := fun m => (holds_congr hstored).1
  refine ⟨⟨?_, ?_, ?_, ?_⟩, ⟨?_, hplain⟩, ?_⟩
  · intro m n hm hn
    exact hb.history.unique m n (hholds m hm) (hholds n hn)
  · intro m hm
    exact hb.history.positive m (hholds m hm)
  · refine recorded_congr hstored (fun p b hp => ⟨p, ?_⟩) hb.history.recorded
    rw [hfiles, hmirrors] at hp
    exact hp
  · intro st hst
    have hback := hb.history.back st (hrot ▸ hst)
    exact ⟨fun m hm => hback.upTo m (hholds m hm), hback.plain, hback.mode.trans hmode.symm⟩
  · intro m hm heq
    have := (holds_congr hb.stored).1 (hholds m hm)
    exact absurd (heq.trans hmvk) (hf.2 m this)
  · intro st hst
    rw [hrot, hb.rotation] at hst
    injection hst with hst
    subst hst
    rw [hmvk]
    exact Ne.symm hf.1

theorem installRotatedMvk_begun {newMvk : Nat} {table : KeyTable} (ho : Ordered h)
    (hb : Begun h h₁) (hf : h.FreshKey newMvk) :
    wp (installRotatedMvk newMvk table) (fun _ h' => Ordered h' ∧ h'.rotation = h₁.rotation)
      (fun _ h' => History h' ∧ h'.rotation = h₁.rotation) h₁ := by
  refine ⟨hb.installed hf rfl rfl rfl rfl rfl rfl ?_, rfl⟩
  show PlainInner h₁.deniable
  rw [hb.deniable]
  exact ho.numbered.plain

/-- A rebuilt header is sealed without v3 fields; the persist adds them. -/
theorem rotate_plain {accepts : Argon2idParams → Bool} {den den' : DeniableState}
    {newSalt newMvk nonce : Nat} {fill : Fin deniableSlotCount → Nat} {keep : List KeepSlot}
    (hr : den.rotate accepts newSalt newMvk nonce fill keep = .ok den') :
    (HeaderBytes.deniable den'.bytes).stamp = none := by
  unfold DeniableState.rotate at hr
  obtain ⟨bytes, hbytes, hr⟩ := except_bind_eq_ok.1 hr
  injection hr with hr
  subst hr
  unfold rotateMvkV2 at hbytes
  obtain ⟨-, -, hbytes⟩ := except_bind_eq_ok.1 hbytes
  obtain ⟨-, -, hbytes⟩ := except_bind_eq_ok.1 hbytes
  obtain ⟨table, -, hbytes⟩ := except_bind_eq_ok.1 hbytes
  injection hbytes with hbytes
  subst hbytes
  rfl

theorem rotateDeniableEnvelope_begun {accepts : Argon2idParams → Bool} {newSalt newMvk nonce : Nat}
    {fill : Fin deniableSlotCount → Nat} {keep : List KeepSlot} (hb : Begun h h₁)
    (hf : h.FreshKey newMvk) :
    wp (rotateDeniableEnvelope accepts newSalt newMvk nonce fill keep)
      (fun _ h' => Ordered h' ∧ h'.rotation = h₁.rotation)
      (fun _ h' => History h' ∧ h'.rotation = h₁.rotation) h₁ := by
  unfold rotateDeniableEnvelope
  rw [wp_bind, wp_get]
  cases hden : h₁.deniable with
  | none => exact ⟨hb.history, rfl⟩
  | some den =>
      simp only
      split
      · exact ⟨hb.history, rfl⟩
      next den' hr =>
      refine ⟨hb.installed hf rfl rfl rfl rfl rfl ?_ ?_, rfl⟩
      · rw [hden]
        rfl
      · intro d hd _
        injection hd with hd
        subst hd
        exact rotate_plain hr

theorem rotateHeader_spec {install : HeadM Unit} {fails : Bool} {nonce : Nat}
    {commit : List HeaderFault} (ho : Ordered h)
    (hinst : ∀ h₁, Begun h h₁ → wp install (fun _ h' => Ordered h' ∧ h'.rotation = h₁.rotation)
      (fun _ h' => History h' ∧ h'.rotation = h₁.rotation) h₁) :
    wp (rotateHeader install fails nonce commit) (fun _ h' => Ordered h') (fun _ h' => Ordered h')
      h := by
  unfold rotateHeader
  rw [wp_bind]
  refine wp_mono (beginAtomicRotation_spec ho) ?_ fun _ _ ho' => ho'
  intro _ h₁ hb
  -- whatever makes the body give up, the way back is still there
  have hbody : wp (do
      install
      if fails then throw refused
      persistHeader nonce) (fun _ h' => Ordered h')
      (fun _ h' => History h' ∧ h'.rotation = h₁.rotation) h₁ := by
    rw [wp_bind]
    refine wp_mono (hinst h₁ hb) ?_ fun _ _ hh => hh
    intro _ h₂ ⟨ho₂, hrot₂⟩
    cases fails with
    | true => exact ⟨ho₂.toHistory, hrot₂⟩
    | false =>
        refine wp_mono (persistHeader_spec ho₂) (fun _ h' ho' => ho'.1) ?_
        exact fun _ h' hf => ⟨hf.history, hf.rotation.trans hrot₂⟩
  rw [wp_bind, wp_attempt]
  refine wp_mono hbody ?_ ?_
  · intro _ h₂ ho₂
    show wp (do modify fun h : Head => { h with io := commit }; commitAtomicRotation) _ _ h₂
    rw [wp_bind, wp_modify]
    have ho₃ : Ordered { h₂ with io := commit } := ho₂.moved (Moved.of_fields (.inl rfl))
    exact wp_mono commitAtomicRotation_moved (fun _ _ hm => ho₃.moved hm) fun _ _ hm => ho₃.moved hm
  · rintro e h₂ ⟨hh, hrot⟩
    show wp (do abortAtomicRotation; throw e) _ _ h₂
    unfold abortAtomicRotation
    rw [wp_bind, wp_bind, wp_get, hrot, hb.rotation]
    exact hh.aborted (hrot.trans hb.rotation)

/-! ## Runs -/

/-- The random key of a rotation is a new one. -/
def FreshFor (h : Head) : Op → Prop
  | .rotateMvk newMvk _ _ _ => h.FreshKey newMvk
  | .rotateMvkDeniable _ _ newMvk _ _ _ _ _ => h.FreshKey newMvk
  | _ => True

/-- A header write that fails does so before its stamp has landed. -/
def SettledCall (h : Head) : Op → Prop
  | .persistHeader nonce => h.SettledPersist nonce
  | .restoreHeader versionMajor generation keyslots =>
      h.SettledRestore versionMajor generation keyslots
  | _ => True

theorem exec_spec {op : Op} (ho : Ordered h) (hf : h.FreshFor op) :
    wp (exec op) (fun _ h' => Ordered h')
      (fun _ h' => History h' ∧ (h.SettledCall op → Ordered h')) h := by
  have hmut : ∀ m : HeadM Unit, Mutating m h → wp m (fun _ h' => Ordered h')
      (fun _ h' => History h' ∧ (h.SettledCall op → Ordered h')) h := by
    intro m hm
    exact wp_mono hm (fun _ _ hm => ho.mutated hm)
      fun _ _ hm => ⟨(ho.mutated hm).toHistory, fun _ => ho.mutated hm⟩
  cases op with
  | enroll credential salt derivedMvk => exact hmut _ enroll_mutating
  | updateAt idx credential salt derivedMvk => exact hmut _ updateAt_mutating
  | revokeSlot idx => exact hmut _ (guardStandard_mutating setSlot_mutating)
  | swapSlots a b => exact hmut _ swapSlots_mutating
  | enrollDeniable accepts slotIdx credential material seed => exact hmut _ enrollDeniable_mutating
  | clearDeniableSlot slotIdx fill => exact hmut _ clearDeniableSlot_mutating
  | upgradeHeaderToV3 =>
      apply hmut
      show Mutating ((fun _ => ()) <$> upgradeHeaderToV3) h
      rw [Mutating, wp_map]
      exact upgradeHeaderToV3_mutating
  | persistHeader nonce =>
      exact wp_mono (persistHeader_spec ho) (fun _ _ h => h.1)
        fun _ _ hf => ⟨hf.history, hf.ordered⟩
  | restoreHeader versionMajor generation keyslots =>
      exact wp_mono (restoreHeader_spec ho) (fun _ _ h => h) fun _ _ hf => ⟨hf.history, hf.ordered⟩
  | rotateMvk newMvk table fails commit =>
      refine wp_mono (rotateHeader_spec ho fun h₁ hb => installRotatedMvk_begun ho hb hf)
        (fun _ _ h => h) fun _ _ h => ⟨h.toHistory, fun _ => h⟩
  | rotateMvkDeniable accepts newSalt newMvk nonce fill keep fails commit =>
      refine wp_mono (rotateHeader_spec ho fun h₁ hb => rotateDeniableEnvelope_begun hb hf)
        (fun _ _ h => h) fun _ _ h => ⟨h.toHistory, fun _ => h⟩
  | abortRotation =>
      show wp abortAtomicRotation _ _ h
      unfold abortAtomicRotation
      rw [wp_bind, wp_get]
      split
      · exact ho
      · next st hst => exact ho.aborted hst

theorem after_spec {op : Op} {io : List HeaderFault} (ho : Ordered h) (hf : h.FreshFor op) :
    History (h.after op io) ∧ (SettledCall { h with io := io } op → Ordered (h.after op io)) := by
  have ho' : Ordered { h with io := io } := ho.moved (Moved.of_fields (.inl rfl))
  have hf' : FreshFor { h with io := io } op := by cases op <;> exact hf
  have hspec := exec_spec ho' hf'
  unfold after
  cases hr : exec op { h with io := io } with
  | ok a h' =>
      have h1 := wp_ok hspec hr
      exact ⟨h1.toHistory, fun _ => h1⟩
  | error e h' =>
      have h1 := wp_error hspec hr
      exact h1

/-- Open comes up with a header at or above every one stored under its key. -/
def LoadsNewest (h h' : Head) : Prop :=
  ∀ m, h.Holds m → m.mvk = h'.mvk → m.generation ≤ h'.generation?.getD 0

/-- What a session opened on `bytes` knows of its header. -/
theorem opened_spec {bytes : HeaderBytes} (hop : h.opened bytes = some h') :
    h'.generation? = bytes.stamp.map HeaderStamp.generation ∧
      (∀ m, bytes.stamp = some m → m.mvk = h'.mvk) ∧ h'.stored = h.stored ∧ h'.files = h.files ∧
      h'.mirrors = h.mirrors ∧ h'.rotation = none ∧ PlainInner h'.deniable := by
  cases bytes with
  | standard image =>
      injection hop with hop
      subst hop
      have hplain : PlainInner (none : Option DeniableState) := nofun
      by_cases hv : image.versionMajor ≥ versionMajorHeaderV3
      · have hst : (HeaderBytes.standard image).stamp =
            some ⟨image.mvk, image.generation, .inl image.keyslots⟩ := if_pos hv
        rw [hst]
        refine ⟨?_, ?_, rfl, rfl, rfl, rfl, hplain⟩
        · unfold generation?
          simp only
          rw [if_pos hv, if_pos hv]
          rfl
        · intro m hm
          injection hm with hm
          subst hm
          rfl
      · have hst : (HeaderBytes.standard image).stamp = none := if_neg hv
        rw [hst]
        refine ⟨?_, nofun, rfl, rfl, rfl, rfl, hplain⟩
        unfold generation?
        simp only
        rw [if_neg hv]
        rfl
  | deniable header =>
      unfold opened at hop
      simp only at hop
      split at hop
      · next salt b hsalt hinner =>
          split at hop
          · injection hop with hop
            subst hop
            have hst : (HeaderBytes.deniable header).stamp =
                b.v3.map fun v => ⟨b.mvk, v.headerGeneration, .inr v.slotTableDigest⟩ := by
              unfold HeaderBytes.stamp
              simp only
              rw [hinner]
            rw [hst]
            refine ⟨?_, ?_, rfl, rfl, rfl, rfl, ?_⟩
            · show b.v3.map DeniableHeaderV3.headerGeneration = _
              rw [Option.map_map]
              rfl
            · intro m hm
              obtain ⟨v, -, hv⟩ := Option.map_eq_some_iff.1 hm
              subst hv
              rfl
            · intro d hd hv
              injection hd with hd
              subst hd
              have hv : b.v3 = none := hv
              show (HeaderBytes.deniable header).stamp = none
              rw [hst, hv]
              rfl
          · cases hop
      · cases hop
  | unparsable => cases hop
  | unauthentic => cases hop

theorem reopen_ordered (hh : History h) (hre : h.reopen = some h') (hn : LoadsNewest h h') :
    Ordered h' := by
  unfold reopen at hre
  obtain ⟨bytes, -, hop⟩ := Option.bind_eq_some_iff.1 hre
  obtain ⟨-, -, hstored, hfiles, hmirrors, hrot, hplain⟩ := opened_spec hop
  have hnone : ∀ st, h'.rotation ≠ some st := by
    intro st hst
    rw [hrot] at hst
    cases hst
  refine ⟨⟨?_, ?_, ?_, fun st hst => (hnone st hst).elim⟩, ⟨?_, hplain⟩,
    fun st hst => (hnone st hst).elim⟩
  · intro m n hm hn'
    exact hh.unique m n ((holds_congr hstored).1 hm) ((holds_congr hstored).1 hn')
  · intro m hm
    exact hh.positive m ((holds_congr hstored).1 hm)
  · refine recorded_congr hstored (fun p b hp => ⟨p, ?_⟩) hh.recorded
    rw [hfiles, hmirrors] at hp
    exact hp
  · intro m hm
    exact hn m ((holds_congr hstored).1 hm)

/-- A call must not fail once its stamp has landed, and an open after a crash
must not come up with an older header. -/
def SafeStep (h : Head) : Step → Prop
  | .call op io => h.FreshFor op ∧ SettledCall { h with io := io } op
  | .crash op io => h.FreshFor op ∧
      ∀ h', (h.after op io).reopen = some h' → LoadsNewest (h.after op io) h'

def SafeRun : Head → List Step → Prop
  | _, [] => True
  | h, s :: rest => h.SafeStep s ∧ ∀ h', h.next s = some h' → SafeRun h' rest

theorem Ordered.next {s : Step} (ho : Ordered h) (hs : h.SafeStep s) (hn : h.next s = some h') :
    Ordered h' := by
  cases s with
  | call op io =>
      injection hn with hn
      subst hn
      exact (after_spec ho hs.1).2 hs.2
  | crash op io => exact reopen_ordered (after_spec ho hs.1).1 hn (hs.2 h' hn)

theorem Ordered.run {steps : List Step} (ho : Ordered h) (hs : SafeRun h steps)
    (hr : h.run steps = some h') : Ordered h' := by
  induction steps generalizing h with
  | nil =>
      injection hr with hr
      exact hr ▸ ho
  | cons s rest ih =>
      obtain ⟨h₁, hn, hr⟩ := Option.bind_eq_some_iff.1 hr
      exact ih (ho.next hs.1 hn) (hs.2 h₁ hn) hr

/-- A new vault, standard or deniable. -/
inductive Created : Head → Prop
  | standard (mvk headerSalt : Nat) (luksbox2 : Bool) (keyslots : KeyTable) :
      Created (created mvk headerSalt luksbox2 keyslots)
  | deniable {accepts : Argon2idParams → Bool} {credential : DeniableCredential}
      {material : DeniableMaterial} {slotIdx salt mvk nonce : Nat} {inner : DeniableInnerHeader}
      {fill : Fin deniableSlotCount → Nat} {seed : SlotSeed} {header : DeniableHeader}
      (hcreate : createWithCredentialV2 accepts credential material slotIdx inner salt mvk nonce
        fill seed = .ok header) : Created (createdDeniable header salt mvk slotIdx inner)

theorem Ordered.of_unstamped {bytes : HeaderBytes} (hb : bytes.stamp = none)
    (hs : h.stored = [bytes]) (hf : ∀ p b, h.files p = some b → b = bytes)
    (hm : ∀ p, h.mirrors p = none) (hr : h.rotation = none) (hp : PlainInner h.deniable) :
    Ordered h := by
  have hnone : ∀ m, ¬ h.Holds m := by
    rintro m ⟨b, hbs, hbm⟩
    rw [hs, List.mem_singleton] at hbs
    rw [hbs, hb] at hbm
    cases hbm
  refine ⟨⟨fun m _ hm => (hnone m hm).elim, fun m hm => (hnone m hm).elim, ?_, ?_⟩,
    ⟨fun m hm => (hnone m hm).elim, hp⟩, ?_⟩
  · intro p b hpb m hbm
    rcases hpb with hpb | hpb
    · rw [hf p b hpb, hb] at hbm
      cases hbm
    · rw [hm p] at hpb
      cases hpb
  · intro st hst
    rw [hr] at hst
    cases hst
  · intro st hst
    rw [hr] at hst
    cases hst

theorem created_stamp {accepts : Argon2idParams → Bool} {credential : DeniableCredential}
    {material : DeniableMaterial} {slotIdx salt mvk nonce : Nat} {inner : DeniableInnerHeader}
    {fill : Fin deniableSlotCount → Nat} {seed : SlotSeed} {header : DeniableHeader}
    (hcreate : createWithCredentialV2 accepts credential material slotIdx inner salt mvk nonce
      fill seed = .ok header) : (HeaderBytes.deniable header).stamp = none := by
  unfold createWithCredentialV2 at hcreate
  split at hcreate
  · obtain ⟨slot, -, hcreate⟩ := except_bind_eq_ok.1 hcreate
    injection hcreate with hcreate
    subst hcreate
    rfl
  · cases hcreate

theorem Created.ordered (hc : Created h) : Ordered h := by
  have hone : ∀ (bytes : HeaderBytes) p b,
      Function.update (fun _ : Place => none) .committed (some bytes) p = some b → b = bytes := by
    intro bytes p b hb
    rcases update_some hb with rfl | hb
    · rfl
    · cases hb
  cases hc with
  | standard mvk headerSalt luksbox2 keyslots =>
      refine Ordered.of_unstamped ?_ rfl (hone _) (fun _ => rfl) rfl nofun
      cases luksbox2 <;> rfl
  | deniable hcreate =>
      refine Ordered.of_unstamped (created_stamp hcreate) rfl (hone _) (fun _ => rfl) rfl ?_
      intro d hd _
      injection hd with hd
      subst hd
      exact created_stamp hcreate

/-! ## What the anchor and the digest then give -/

/-- Headers with different keyslot tables never share key and generation. -/
def OneTableEach (stored : List HeaderBytes) : Prop :=
  ∀ a ∈ stored, ∀ b ∈ stored, ∀ m n, a.stamp = some m → b.stamp = some n → m.mvk = n.mvk →
    m.generation = n.generation → m.table = n.table

theorem History.oneTableEach (hh : History h) : OneTableEach h.stored :=
  fun a ha b hb m n hm hn => hh.unique m n ⟨a, ha, hm⟩ ⟨b, hb, hn⟩

/-- Against an anchor that recorded the session's generation, every header stored
so far under its key is a rollback, but for the one committed with it. -/
theorem Ordered.rollback_detected (ho : Ordered h) {g : Nat} {table : HeaderTable}
    (hg : h.generation? = some g) (hc : h.Holds ⟨h.mvk, g, table⟩) {b : HeaderBytes}
    (hb : b ∈ h.stored) (hop : h.opened b = some h₁) (hmvk : h₁.mvk = h.mvk) :
    headerRollbackDetected (some g) h₁ = true ∨ b.stamp = some ⟨h.mvk, g, table⟩ := by
  obtain ⟨hgen, hkey, -⟩ := opened_spec hop
  unfold headerRollbackDetected
  simp only [decide_eq_true_eq]
  rw [hgen]
  cases hst : b.stamp with
  | none => exact .inl (ho.positive _ hc)
  | some m =>
      have hm : h.Holds m := ⟨b, hb, hst⟩
      have hkeym : m.mvk = h.mvk := (hkey m hst).trans hmvk
      have hle := ho.numbered.upTo m hm hkeym
      rw [hg] at hle
      rcases lt_or_eq_of_le hle with hlt | heq
      · exact .inl hlt
      · right
        have htable := ho.unique m _ hm hc hkeym heq
        obtain ⟨k, n, t⟩ := m
        simp only [Option.getD_some] at hkeym heq htable
        rw [hkeym, heq, htable]

/-- Phase 1 hands the inner region and the digest of the slots over as they are. -/
theorem tryOpenEnvelope_regions {accepts : Argon2idParams → Bool} {header : DeniableHeader}
    {c : DeniableCredential} {want : Option DeniableKindTag} {e : OpenedDeniableEnvelope}
    (he : tryOpenEnvelopeV2 accepts header c want = .ok e) :
    e.innerHeaderRegion = header.inner ∧ e.slotTableDigest = header.slots := by
  unfold tryOpenEnvelopeV2 at he
  split at he
  · cases he
  split at he
  · cases he
  simp only at he
  split at he
  · cases he
  split at he
  · cases he
  split at he
  · cases he
  injection he with he
  subst he
  exact ⟨rfl, rfl⟩

/-- An inner header that opens next to foreign slots vouches for them. -/
theorem splice_opens {accepts : Argon2idParams → Bool} {c : DeniableCredential}
    {want : Option DeniableKindTag} {salt : Option Nat} {slots : SlotTable} {b : DeniableHeader}
    {o : OpenedDeniableEnvelope × OpenedDeniableHeader} {m : HeaderStamp}
    (hopen : deniableOpen accepts ⟨salt, slots, b.inner⟩ c want = .ok o)
    (hm : (HeaderBytes.deniable b).stamp = some m) : m.table = .inr slots := by
  unfold deniableOpen at hopen
  obtain ⟨e, he, hopen⟩ := except_bind_eq_ok.1 hopen
  obtain ⟨o', ho', -⟩ := except_bind_eq_ok.1 hopen
  obtain ⟨box, hbox, hdig⟩ := completeOpen_inner ho'
  have hpass := tryOpenEnvelope_regions he
  rw [hpass.1] at hbox
  rw [hpass.2] at hdig
  unfold HeaderBytes.stamp at hm
  simp only at hm
  rw [hbox] at hm
  obtain ⟨v, hv, rfl⟩ := Option.map_eq_some_iff.1 hm
  exact congrArg Sum.inr (checkSlotDigest_eq_ok.1 hdig v hv)

/-- No two header tables are stored under one key and one generation after a safe run,
nor wherever the next call is interrupted; an older header than the one loaded is
reported as rolled back, and a deniable header opens with the table its inner region
was written with. -/
theorem header_generation_names_one_state {h₀ h : Head} {steps : List Step} (hc : Created h₀)
    (hs : SafeRun h₀ steps) (hr : h₀.run steps = some h) :
    -- in the state reached, and wherever the next call is interrupted
    OneTableEach h.stored ∧
    (∀ op io, h.FreshFor op → OneTableEach (h.after op io).stored) ∧
    (∀ g table, h.generation? = some g → h.Holds ⟨h.mvk, g, table⟩ →
      ∀ b ∈ h.stored, ∀ h₁, h.opened b = some h₁ → h₁.mvk = h.mvk →
        headerRollbackDetected (some g) h₁ = true ∨ b.stamp = some ⟨h.mvk, g, table⟩) ∧
    (∀ a b : DeniableHeader, .deniable a ∈ h.stored → .deniable b ∈ h.stored →
      ∀ m, (HeaderBytes.deniable b).stamp = some m →
      ∀ accepts c want salt o, deniableOpen accepts ⟨salt, a.slots, b.inner⟩ c want = .ok o →
        m.table = .inr a.slots ∧ ((HeaderBytes.deniable b).whole → a.slots = b.slots)) := by
  have ho := (Created.ordered hc).run hs hr
  refine ⟨ho.toHistory.oneTableEach, ?_, ?_, ?_⟩
  · intro op io hf
    exact (after_spec ho hf).1.oneTableEach
  · intro g table hg hcom b hb h₁ hop hmvk
    exact ho.rollback_detected hg hcom hb hop hmvk
  · intro a b _ _ m hm accepts c want salt o hopen
    have htable := splice_opens hopen hm
    refine ⟨htable, fun hw => ?_⟩
    unfold HeaderBytes.stamp at hm
    simp only at hm
    split at hm
    · next box hbox =>
        obtain ⟨v, hv, rfl⟩ := Option.map_eq_some_iff.1 hm
        rw [← hw box hbox v hv]
        injection htable with htable
        exact htable.symm
    · cases hm

/-- A LUKSBOX2 vault with one passphrase, upgraded and written as generation 1. -/
def oneSlotVault : Head := created 7 0 true (Function.update (fun _ => none) 0 (some ⟨1, false, 0, 7⟩))

def upgradedSteps : List Step :=
  [.call .upgradeHeaderToV3 [], .call (.persistHeader 0) []]

/-- A second passphrase whose persist fails between the mirror and the live
header, then a third. -/
def retriedSteps : List Step :=
  upgradedSteps ++
    [.call (.enroll 2 1 false) [], .call (.persistHeader 0) [.ok, .before],
      .call (.enroll 3 2 false) [], .call (.persistHeader 0) []]

theorem retried_persist_reuses_generation :
    ∃ h, oneSlotVault.run retriedSteps = some h ∧ ¬ OneTableEach h.stored := by
  refine ⟨_, rfl, fun hone => ?_⟩
  let first : KeyTable := Function.update
    (Function.update (fun _ => none) 0 (some ⟨1, false, 0, 7⟩)) 1 (some ⟨2, false, 1, 7⟩)
  let second : KeyTable := Function.update first 2 (some ⟨3, false, 2, 7⟩)
  have heq := hone (.standard ⟨7, 3, 2, first⟩) (by decide) (.standard ⟨7, 3, 2, second⟩) (by decide)
    _ _ rfl rfl rfl rfl
  exact absurd heq (by decide)

/-- A second passphrase whose first persist fails before the mirror is written, and
is tried again. -/
def secondTableSteps : List Step :=
  upgradedSteps ++
    [.call (.enroll 2 1 false) [], .call (.persistHeader 0) [.before], .call (.persistHeader 0) []]

/-- Two tables are stored in the end, each under its own generation. -/
theorem fault_free_persists_numbered :
    Created oneSlotVault ∧ SafeRun oneSlotVault secondTableSteps ∧
      ∃ h, oneSlotVault.run secondTableSteps = some h ∧ OneTableEach h.stored ∧
        (h.stored.filterMap HeaderBytes.stamp).map HeaderStamp.generation = [2, 2, 1, 1] := by
  have hc : Created oneSlotVault := .standard _ _ _ _
  have hs : SafeRun oneSlotVault secondTableSteps := by
    have hquiet : ∀ (h : Head) (nonce : Nat), SettledCall { h with io := [] }
        (.persistHeader nonce) := by
      intro h nonce bytes _
      refine .inl fun f hf => ?_
      simp at hf
    refine ⟨⟨trivial, trivial⟩, fun h₁ _ => ⟨⟨trivial, hquiet h₁ 0⟩, fun h₂ _ =>
      ⟨⟨trivial, trivial⟩, fun h₃ _ => ⟨⟨trivial, fun _ _ => .inr ?_⟩, fun h₄ _ =>
        ⟨⟨trivial, hquiet h₄ 0⟩, fun _ _ => trivial⟩⟩⟩⟩⟩
    -- the fault comes before the first byte
    rintro ⟨m, -, hfalse⟩
    exact hfalse
  exact ⟨hc, hs, _, rfl, (header_generation_names_one_state hc hs rfl).1, by decide +kernel⟩

end Head

end Luksbox
