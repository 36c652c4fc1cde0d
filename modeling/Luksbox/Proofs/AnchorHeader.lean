import Luksbox.Proofs.HeaderRuns

/-!
# The header an anchor has seen

The anchor records the generation of the header in memory, and an open compares
it with the header it finds. For the comparison never to fail on an untouched
vault, the header in the vault file has to be at least as new as the one in
memory: `OnDisk` says that whatever an open finds there reaches a generation.

A persist writes the next generation and counts it in memory only once the write
has succeeded, so memory is never ahead. A torn write sends the open to the
mirror, which was written first.
-/

namespace Luksbox

open Lib

/-- If the header can be opened, its generation is at least `g`. -/
def HeaderBytes.Reaches (g : Nat) : HeaderBytes → Prop
  | .standard image =>
      g ≤ if image.versionMajor ≥ versionMajorHeaderV3 then image.generation else 0
  | .deniable header => ∀ b, header.inner = .box b →
      g ≤ (b.v3.map DeniableHeaderV3.headerGeneration).getD 0
  | .unparsable => True
  | .unauthentic => True

theorem HeaderBytes.Reaches.mono {g g' : Nat} {b : HeaderBytes} (h : b.Reaches g) (hg : g' ≤ g) :
    b.Reaches g' := by
  cases b with
  | standard image => exact hg.trans h
  | deniable header => exact fun box hbox => hg.trans (h box hbox)
  | unparsable => exact trivial
  | unauthentic => exact trivial

theorem HeaderBytes.reaches_zero {b : HeaderBytes} : b.Reaches 0 := by
  cases b with
  | standard image => exact Nat.zero_le _
  | deniable header => exact fun _ _ => Nat.zero_le _
  | unparsable => exact trivial
  | unauthentic => exact trivial

theorem tornBytes_reaches {g : Nat} {applied : Nat → Bool} {parses : Bool}
    {old : Option HeaderBytes} {new : HeaderBytes} (ho : ∀ b, old = some b → b.Reaches g)
    (hn : new.Reaches g) : (Head.tornBytes applied parses old new).Reaches g := by
  unfold Head.tornBytes
  split
  · next o n =>
      intro box hbox
      rcases torn_inner_cases applied o n with heq | heq | heq
      · exact ho _ rfl box (heq ▸ hbox)
      · exact hn box (heq ▸ hbox)
      · rw [heq] at hbox
        cases hbox
  · split
    · exact trivial
    · exact trivial

namespace Head

variable {h h' h₁ : Head} {g : Nat}

/-- The generation in memory, 0 for a header older than v3. -/
def counted (h : Head) : Nat := h.generation?.getD 0

/-- Whatever an open finds at the vault's path reaches `g`. -/
structure OnDisk (g : Nat) (h : Head) : Prop where
  file : ∀ b, h.files .committed = some b → b.Reaches g
  mirror : h.files .committed = some .unparsable → ∀ b, h.mirrors .committed = some b → b.Reaches g

theorem OnDisk.mono {g' : Nat} (ho : OnDisk g h) (hg : g' ≤ g) : OnDisk g' h :=
  ⟨fun b hb => (ho.file b hb).mono hg, fun hu b hb => (ho.mirror hu b hb).mono hg⟩

theorem onDisk_zero : OnDisk 0 h :=
  ⟨fun _ _ => HeaderBytes.reaches_zero, fun _ _ _ => HeaderBytes.reaches_zero⟩

theorem OnDisk.congr (ho : OnDisk g h) (hf : h'.files .committed = h.files .committed)
    (hm : h'.mirrors .committed = h.mirrors .committed) : OnDisk g h' :=
  ⟨fun b hb => ho.file b (hf ▸ hb), fun hu b hb => ho.mirror (hf ▸ hu) b (hm ▸ hb)⟩

/-! ## Writing -/

/-- What writes of `b` may have done to the storage when one of them failed. A
torn file has the mirror written before it, where there are mirrors. -/
structure Laid (b : HeaderBytes) (h h' : Head) : Prop where
  same : h' = { h with
    files := h'.files, mirrors := h'.mirrors, io := h'.io, stored := h'.stored }
  others : ∀ p, p ≠ h.handle → h'.files p = h.files p
  otherMirrors : ∀ p, p ≠ h.path → h'.mirrors p = h.mirrors p
  file : h'.files h.handle = h.files h.handle ∨ h'.files h.handle = some b ∨
    ((∃ applied parses, h'.files h.handle = some (tornBytes applied parses (h.files h.handle) b)) ∧
      (h.isV2Format = true → h'.mirrors h.path = some b))
  mirror : h'.mirrors h.path = h.mirrors h.path ∨ h'.mirrors h.path = some b

theorem laid_io {b : HeaderBytes} {io : List HeaderFault} : Laid b h { h with io := io } :=
  ⟨rfl, fun _ _ => rfl, fun _ _ => rfl, .inl rfl, .inl rfl⟩

/-- The write of the live header, after the mirror where there is one. -/
theorem writeLiveHeader_laid {b : HeaderBytes} (hl : Laid b h h₁)
    (hfile : h₁.files h.handle = h.files h.handle)
    (hmirror : h.isV2Format = true → h₁.mirrors h.path = some b) :
    wp (writeLiveHeader b) (fun _ h' => Laid b h h' ∧ h'.files h.handle = some b)
      (fun _ h' => Laid b h h') h₁ := by
  have hhandle : h₁.handle = h.handle := by rw [hl.same]
  have hstore : ∀ {io : List HeaderFault} {x : HeaderBytes}, (x = b ∨
      ∃ applied parses, x = tornBytes applied parses (h.files h.handle) b) →
      Laid b h (storeHeader { h₁ with io := io } x) := by
    intro io x hx
    have hself : (storeHeader { h₁ with io := io } x).files h.handle = some x := by
      show Function.update h₁.files h₁.handle (some x) h.handle = some x
      rw [hhandle, Function.update_self]
    refine ⟨?_, fun p hp => ?_, hl.otherMirrors, .inr ?_, hl.mirror⟩
    · have := hl.same
      unfold storeHeader
      rw [this]
    · show Function.update h₁.files h₁.handle (some x) p = h.files p
      rw [hhandle, Function.update_of_ne hp]
      exact hl.others p hp
    · rw [hself]
      rcases hx with rfl | ⟨applied, parses, rfl⟩
      · exact .inl rfl
      · exact .inr ⟨⟨applied, parses, rfl⟩, hmirror⟩
  have hio : ∀ {io : List HeaderFault}, Laid b h { h₁ with io := io } := by
    intro io
    refine ⟨?_, hl.others, hl.otherMirrors, hl.file, hl.mirror⟩
    have := hl.same
    rw [this]
  unfold writeLiveHeader
  rw [wp_bind]
  apply wp_fault
  split
  · refine ⟨hstore (.inl rfl), ?_⟩
    show Function.update h₁.files h₁.handle (some b) h.handle = some b
    rw [hhandle, Function.update_self]
  · exact hio
  · rename_i applied parses _
    refine hstore (.inr ⟨applied, parses, ?_⟩)
    show tornBytes applied parses (h₁.files h₁.handle) b = _
    rw [hhandle, hfile]
  · exact hstore (.inl rfl)

theorem Laid.withIo {b : HeaderBytes} {io : List HeaderFault} (hl : Laid b h h₁) :
    Laid b h { h₁ with io := io } := by
  refine ⟨?_, hl.others, hl.otherMirrors, hl.file, hl.mirror⟩
  have := hl.same
  rw [this]

theorem writeHeaderMirror_laid {b : HeaderBytes} :
    wp (writeHeaderMirror b) (fun _ h' => Laid b h h' ∧ h'.files h.handle = h.files h.handle ∧
      h'.mirrors h.path = some b) (fun _ h' => Laid b h h') h := by
  have hstore : ∀ {io : List HeaderFault}, Laid b h (storeMirror { h with io := io } b) ∧
      (storeMirror { h with io := io } b).mirrors h.path = some b := by
    intro io
    have hself : (storeMirror { h with io := io } b).mirrors h.path = some b := by
      show Function.update h.mirrors h.path (some b) h.path = some b
      rw [Function.update_self]
    refine ⟨⟨rfl, fun _ _ => rfl, fun p hp => ?_, .inl rfl, .inr hself⟩, hself⟩
    show Function.update h.mirrors h.path (some b) p = h.mirrors p
    rw [Function.update_of_ne hp]
  unfold writeHeaderMirror
  rw [wp_bind]
  apply wp_fault
  split
  · exact ⟨hstore.1, rfl, hstore.2⟩
  · exact hstore.1
  · exact laid_io

theorem ioStep_laid {b : HeaderBytes} (hl : Laid b h h₁) (hf : h₁.files h.handle = some b) :
    wp ioStep (fun _ h' => Laid b h h' ∧ h'.files h.handle = some b) (fun _ h' => Laid b h h') h₁ :=
  wp_step ⟨hl.withIo, hf⟩ hl.withIo

theorem writeStandardHeader_laid :
    wp writeStandardHeader
      (fun _ h' => Laid (.standard h.image) h h' ∧ h'.files h.handle = some (.standard h.image))
      (fun _ h' => Laid (.standard h.image) h h') h := by
  unfold writeStandardHeader
  rw [wp_bind, wp_get]
  have hrest : ∀ {h₁ : Head}, Laid (.standard h.image) h h₁ →
      h₁.files h.handle = h.files h.handle →
      (h.isV2Format = true → h₁.mirrors h.path = some (.standard h.image)) →
      wp (do writeLiveHeader (.standard h.image); ioStep; ioStep)
        (fun _ h' => Laid (.standard h.image) h h' ∧ h'.files h.handle = some (.standard h.image))
        (fun _ h' => Laid (.standard h.image) h h') h₁ := by
    intro h₁ hl hf hm
    rw [wp_bind]
    refine wp_mono (writeLiveHeader_laid hl hf hm) ?_ fun _ _ hl => hl
    rintro _ h₂ ⟨hl₂, hf₂⟩
    rw [wp_bind]
    refine wp_mono (ioStep_laid hl₂ hf₂) ?_ fun _ _ hl => hl
    rintro _ h₃ ⟨hl₃, hf₃⟩
    exact ioStep_laid hl₃ hf₃
  split
  · rw [wp_bind]
    refine wp_mono writeHeaderMirror_laid ?_ fun _ _ hl => hl
    rintro _ h₁ ⟨hl, hf, hm⟩
    exact hrest hl hf fun _ => hm
  · next hv => exact hrest laid_io rfl fun hv' => absurd hv' hv

/-! ## `persist_header` -/

/-- The fields of a session that its header writes leave alone. -/
structure Seated (h h' : Head) : Prop where
  handle : h'.handle = h.handle
  path : h'.path = h.path
  rotation : h'.rotation = h.rotation
  versionMajor : h'.versionMajor = h.versionMajor
  mode : h'.deniable.isSome = h.deniable.isSome

theorem Laid.seated {b : HeaderBytes} (hl : Laid b h h') : Seated h h' := by
  rw [hl.same]
  exact ⟨rfl, rfl, rfl, rfl, rfl⟩

/-- A header of the kind the session writes. -/
structure Fits (b : HeaderBytes) (h : Head) : Prop where
  reaches : b.Reaches h.counted
  parses : b ≠ .unparsable
  deniable : h.deniable.isSome = true → ∃ d, b = .deniable d
  standard : h.deniable = none → h.versionMajor < versionMajorHeaderV2 → h.counted = 0

/-- A persist that returned. -/
structure Persisted (b : HeaderBytes) (h h' : Head) : Prop where
  seated : Seated h h'
  others : ∀ p, p ≠ h.handle → h'.files p = h.files p
  otherMirrors : ∀ p, p ≠ h.path → h'.mirrors p = h.mirrors p
  file : h'.files h.handle = some b
  fits : Fits b h'
  grows : h.counted ≤ h'.counted

/-- A persist that failed: it is as if it had not been, but for what it wrote. -/
structure Unpersisted (b : HeaderBytes) (h h' : Head) : Prop where
  laid : Laid b h { h' with headerGeneration := h.headerGeneration }
  counted : h'.counted = h.counted
  fits : Fits b h

theorem counted_standard (hden : h.deniable = none) :
    h.counted = if h.versionMajor ≥ versionMajorHeaderV3 then h.headerGeneration else 0 := by
  unfold counted generation?
  rw [hden]
  simp only
  split
  · rfl
  · rfl

theorem fits_standard {image : HeaderImage} (hden : h.deniable = none)
    (hver : image.versionMajor = h.versionMajor) (hgen : h.headerGeneration ≤ image.generation) :
    Fits (.standard image) h := by
  refine ⟨?_, nofun, fun hd => ?_, fun _ hv => ?_⟩
  · show h.counted ≤ if image.versionMajor ≥ versionMajorHeaderV3 then image.generation else 0
    rw [counted_standard hden, hver]
    split
    · exact hgen
    · exact le_refl _
  · rw [hden] at hd
    cases hd
  · rw [counted_standard hden, if_neg]
    intro hv3
    exact absurd (lt_of_lt_of_le (by decide : versionMajorHeaderV2 < versionMajorHeaderV3) hv3)
      (Nat.lt_asymm hv)

/-- What follows once the generation to be written is in memory. -/
theorem writeCounted_spec {n : Nat} (hden : h.deniable = none) (hn : h.headerGeneration ≤ n) :
    wp (do
        match ← attempt writeStandardHeader with
        | .error e => do
            modify fun h' : Head => { h' with headerGeneration := h.headerGeneration }
            throw e
        | .ok _ => modify fun h' : Head => { h' with headerDirty := false })
      (fun _ h' => ∃ b, Persisted b h h') (fun _ h' => ∃ b, Unpersisted b h h')
      { h with headerGeneration := n } := by
  rw [wp_bind, wp_attempt]
  refine wp_mono writeStandardHeader_laid ?_ ?_
  · rintro _ h₂ ⟨hl, hf⟩
    rw [wp_modify]
    have hs := hl.seated
    have hden₂ : h₂.deniable = none := by
      rw [hl.same]
      exact hden
    have hgen₂ : h₂.headerGeneration = n := by rw [hl.same]
    refine ⟨_, ⟨hs.handle, hs.path, hs.rotation, hs.versionMajor, hs.mode⟩, hl.others,
      hl.otherMirrors, hf, fits_standard hden₂ hs.versionMajor.symm (le_of_eq hgen₂), ?_⟩
    show h.counted ≤ h₂.counted
    rw [counted_standard hden, counted_standard hden₂, hs.versionMajor, hgen₂]
    split
    · exact hn
    · exact le_refl _
  · intro e h₂ hl
    rw [wp_bind, wp_modify, wp_throw]
    refine ⟨_, ⟨?_, hl.others, hl.otherMirrors, hl.file, hl.mirror⟩, ?_, fits_standard hden rfl hn⟩
    · have := hl.same
      rw [this]
    · show ({ h₂ with headerGeneration := h.headerGeneration } : Head).counted = h.counted
      rw [hl.same]
      rfl

theorem persistStandard_counts (hden : h.deniable = none) :
    wp persistStandard (fun _ h' => ∃ b, Persisted b h h')
      (fun _ h' => h' = h ∨ ∃ b, Unpersisted b h h') h := by
  unfold persistStandard
  rw [wp_bind, wp_get]
  simp only
  split
  · cases hn : nextHeaderGeneration h.headerGeneration with
    | none => exact .inl rfl
    | some n =>
        simp only
        rw [wp_bind, wp_modify]
        have hle : h.headerGeneration ≤ n := by
          rw [nextHeaderGeneration_eq_some hn]
          exact Nat.le_succ _
        exact wp_mono (writeCounted_spec hden hle) (fun _ _ hp => hp) fun _ _ hp => .inr hp
  · exact wp_mono (writeCounted_spec hden (le_refl _)) (fun _ _ hp => hp) fun _ _ hp => .inr hp

theorem counted_deniable {den : DeniableState} (hden : h.deniable = some den) :
    h.counted = (den.v3.map DeniableHeaderV3.headerGeneration).getD 0 := by
  unfold counted generation?
  rw [hden]

/-- A resealed header carries the generation that will be counted, which is not
below the one before. -/
theorem resealed_reaches {den den' : DeniableState} {mvk nonce : Nat}
    (hr : den.resealed mvk nonce = .ok den') :
    (HeaderBytes.deniable den'.bytes).Reaches
        ((den'.v3.map DeniableHeaderV3.headerGeneration).getD 0) ∧
      (den.v3.map DeniableHeaderV3.headerGeneration).getD 0 ≤
        (den'.v3.map DeniableHeaderV3.headerGeneration).getD 0 := by
  unfold DeniableState.resealed at hr
  cases hv : den.v3 with
  | none =>
      rw [hv] at hr
      injection hr with hr
      rw [← hr, hv]
      exact ⟨HeaderBytes.reaches_zero, le_refl _⟩
  | some v =>
      rw [hv] at hr
      simp only at hr
      split at hr
      · cases hr
      next n hn =>
      injection hr with hr
      rw [← hr, nextHeaderGeneration_eq_some hn]
      refine ⟨fun box hbox => ?_, Nat.le_succ _⟩
      injection hbox with hbox
      rw [← hbox]
      exact le_refl _

theorem persistDeniable_counts {den : DeniableState} {nonce : Nat} (hden : h.deniable = some den) :
    wp (persistDeniable den nonce) (fun _ h' => ∃ b, Persisted b h h')
      (fun _ h' => h' = h ∨ ∃ b, Unpersisted b h h') h := by
  unfold persistDeniable
  rw [wp_bind, wp_get]
  cases hr : den.resealed h.mvk nonce with
  | error e => exact .inl rfl
  | ok den' =>
      obtain ⟨hreach, hgrow⟩ := resealed_reaches hr
      have hmode : ∀ h₁ : Head, h₁.deniable.isSome = true →
          ∃ d, HeaderBytes.deniable den'.bytes = .deniable d := fun _ _ => ⟨_, rfl⟩
      have hfits : Fits (.deniable den'.bytes) h := by
        refine ⟨?_, nofun, hmode h, fun hno => ?_⟩
        · rw [counted_deniable hden]
          exact hreach.mono hgrow
        · rw [hden] at hno
          cases hno
      have hnov2 : h.isV2Format = true → h.mirrors h.path = some (.deniable den'.bytes) := by
        intro hv
        unfold isV2Format at hv
        rw [hden] at hv
        simp only [Option.isNone_some, Bool.and_false, Bool.false_and, Bool.false_eq_true] at hv
      have hstart : Laid (.deniable den'.bytes) h h := ⟨rfl, fun _ _ => rfl, fun _ _ => rfl,
        .inl rfl, .inl rfl⟩
      simp only
      rw [wp_bind]
      refine wp_mono (writeLiveHeader_laid hstart rfl hnov2) ?_ ?_
      · rintro _ h₁ ⟨hl, hf⟩
        rw [wp_bind]
        refine wp_mono (ioStep_laid hl hf) ?_ ?_
        · rintro _ h₂ ⟨hl₂, hf₂⟩
          rw [wp_modify]
          have hs := hl₂.seated
          refine ⟨_, ⟨hs.handle, hs.path, hs.rotation, hs.versionMajor, ?_⟩, hl₂.others,
            hl₂.otherMirrors, hf₂, ⟨?_, nofun, hmode _, nofun⟩, ?_⟩
          · rw [hden]
            rfl
          · exact hreach
          · rw [counted_deniable hden]
            exact hgrow
        · intro e h₂ hl₂
          refine .inr ⟨_, ?_, ?_, hfits⟩
          · rw [hl₂.same]
            exact ⟨rfl, hl₂.others, hl₂.otherMirrors, hl₂.file, hl₂.mirror⟩
          · rw [hl₂.same]
            rfl
      · intro e h₁ hl
        refine .inr ⟨_, ?_, ?_, hfits⟩
        · rw [hl.same]
          exact ⟨rfl, hl.others, hl.otherMirrors, hl.file, hl.mirror⟩
        · rw [hl.same]
          rfl

theorem persistHeader_counts {nonce : Nat} :
    wp (persistHeader nonce) (fun _ h' => (h.headerDirty = false ∧ h' = h) ∨ ∃ b, Persisted b h h')
      (fun _ h' => h' = h ∨ ∃ b, Unpersisted b h h') h := by
  unfold persistHeader
  rw [wp_bind, wp_get]
  split
  · next hd => exact .inl ⟨hd, rfl⟩
  · cases hden : h.deniable with
    | some den =>
        exact wp_mono (persistDeniable_counts hden) (fun _ _ hp => .inr hp) fun _ _ hp => hp
    | none => exact wp_mono (persistStandard_counts hden) (fun _ _ hp => .inr hp) fun _ _ hp => hp

/-! ## On the vault file -/

/-- The container works on the vault file and its mirrors. -/
structure Home (h : Head) : Prop where
  handle : h.handle = .committed
  path : h.path = .committed
  rotation : h.rotation = none

def atHome (h : Head) : Bool :=
  decide (h.handle = .committed) && decide (h.path = .committed) && h.rotation.isNone

theorem atHome_iff : h.atHome = true ↔ Home h := by
  unfold atHome
  simp only [Bool.and_eq_true, decide_eq_true_eq, Option.isNone_iff_eq_none]
  exact ⟨fun ⟨⟨hh, hp⟩, hr⟩ => ⟨hh, hp, hr⟩, fun hh => ⟨⟨hh.handle, hh.path⟩, hh.rotation⟩⟩

/-- The header in the vault file is as new as the one in memory. A deniable
session writes no mirror: its file is a deniable header, or what is in the
mirror will do. -/
structure Kept (h : Head) : Prop where
  onDisk : OnDisk h.counted h
  kind : h.deniable.isSome = true → (∃ d, h.files .committed = some (.deniable d)) ∨
    ∀ b, h.mirrors .committed = some b → b.Reaches h.counted

theorem Persisted.kept {b : HeaderBytes} (hp : Persisted b h h') (hh : h.handle = .committed) :
    Kept h' := by
  have hfile : h'.files .committed = some b := hh ▸ hp.file
  refine ⟨⟨fun b' hb' => ?_, fun hu => ?_⟩, fun hd => ?_⟩
  · rw [hfile] at hb'
    injection hb' with hb'
    exact hb' ▸ hp.fits.reaches
  · rw [hfile] at hu
    injection hu with hu
    exact absurd hu hp.fits.parses
  · obtain ⟨d, hd⟩ := hp.fits.deniable hd
    exact .inl ⟨d, hd ▸ hfile⟩

theorem Unpersisted.kept {b : HeaderBytes} (hp : Unpersisted b h h') (hk : Kept h) (hh : Home h) :
    Kept h' := by
  have hseat := hp.laid.seated
  have hmode : h'.deniable.isSome = h.deniable.isSome := hseat.mode
  have hfile := hp.laid.file
  have hmirror := hp.laid.mirror
  rw [hh.handle] at hfile
  rw [hh.path] at hfile hmirror
  have hmir : (∀ b', h.mirrors .committed = some b' → b'.Reaches h.counted) →
      ∀ b', h'.mirrors .committed = some b' → b'.Reaches h.counted := by
    intro hold b' hb'
    rcases hmirror with hm | hm
    · exact hold b' (hm ▸ hb')
    · have hm : h'.mirrors .committed = some b := hm
      rw [hm] at hb'
      injection hb' with hb'
      exact hb' ▸ hp.fits.reaches
  have hreach : ∀ b', h'.files .committed = some b' → b'.Reaches h.counted := by
    intro b' hb'
    rcases hfile with hf | hf | ⟨⟨applied, parses, hf⟩, -⟩
    · exact hk.onDisk.file b' (hf ▸ hb')
    · have hf : h'.files .committed = some b := hf
      rw [hf] at hb'
      injection hb' with hb'
      exact hb' ▸ hp.fits.reaches
    · have hf : h'.files .committed = some (tornBytes applied parses (h.files .committed) b) := hf
      rw [hf] at hb'
      injection hb' with hb'
      exact hb' ▸ tornBytes_reaches hk.onDisk.file hp.fits.reaches
  refine ⟨⟨fun b' hb' => ?_, fun hu b' hb' => ?_⟩, fun hd => ?_⟩
  · rw [hp.counted]
    exact hreach b' hb'
  · -- a torn file sends the open to the mirror
    rw [hp.counted]
    rcases hfile with hf | hf | ⟨⟨applied, parses, hf⟩, hm⟩
    · exact hmir (hk.onDisk.mirror (hf ▸ hu)) b' hb'
    · have hf : h'.files .committed = some b := hf
      rw [hf] at hu
      injection hu with hu
      exact absurd hu hp.fits.parses
    · by_cases hv : h.isV2Format = true
      · have hm : h'.mirrors .committed = some b := hm hv
        rw [hm] at hb'
        injection hb' with hb'
        exact hb' ▸ hp.fits.reaches
      · -- no mirrors: the header is deniable or older than v3
        cases hden : h.deniable with
        | some den =>
            have hsome : h.deniable.isSome = true := by
              rw [hden]
              rfl
            obtain ⟨n, hn⟩ := hp.fits.deniable hsome
            rcases hk.kind hsome with ⟨o, ho⟩ | hold
            · have hf : h'.files .committed =
                some (tornBytes applied parses (h.files .committed) b) := hf
              rw [ho, hn] at hf
              rw [hf] at hu
              cases hu
            · exact hmir hold b' hb'
        | none =>
            have hlow : h.versionMajor < versionMajorHeaderV2 := by
              by_contra hge
              apply hv
              unfold isV2Format
              rw [hden, hh.rotation]
              simp only [Option.isNone_none, Bool.and_true, decide_eq_true_eq]
              exact Nat.not_lt.mp hge
            rw [hp.fits.standard hden hlow]
            exact HeaderBytes.reaches_zero
  · rw [hmode] at hd
    obtain ⟨n, hn⟩ := hp.fits.deniable hd
    rcases hk.kind hd with ⟨o, ho⟩ | hold
    · rcases hfile with hf | hf | ⟨⟨applied, parses, hf⟩, -⟩
      · exact .inl ⟨o, hf.trans ho⟩
      · exact .inl ⟨n, hf.trans (congrArg some hn)⟩
      · have hf : h'.files .committed = some (tornBytes applied parses (h.files .committed) b) := hf
        rw [ho, hn] at hf
        exact .inl ⟨_, hf⟩
    · rw [hp.counted]
      exact .inr (hmir hold)

theorem persistHeader_kept {nonce : Nat} (hk : Kept h) (hh : Home h) :
    wp (persistHeader nonce) (fun _ h' => Kept h' ∧ h.counted ≤ h'.counted)
      (fun _ h' => Kept h' ∧ h.counted ≤ h'.counted) h := by
  refine wp_mono persistHeader_counts ?_ ?_
  · rintro _ h' (⟨-, rfl⟩ | ⟨b, hp⟩)
    · exact ⟨hk, le_refl _⟩
    · exact ⟨hp.kept hh.handle, hp.grows⟩
  · rintro _ h' (rfl | ⟨b, hp⟩)
    · exact ⟨hk, le_refl _⟩
    · exact ⟨hp.kept hk hh, le_of_eq hp.counted.symm⟩

/-- The upgrade starts the count at 0, in memory. -/
theorem upgradeHeaderToV3_kept (P : Head → Prop)
    (hP : ∀ h', h'.files = h.files → h'.mirrors = h.mirrors → h'.counted = h.counted →
      h'.deniable.isSome = h.deniable.isSome → P h') :
    wp upgradeHeaderToV3 (fun _ h' => P h') (fun _ h' => P h') h := by
  have hself : P h := hP h rfl rfl rfl rfl
  unfold upgradeHeaderToV3
  rw [wp_bind, wp_get]
  split
  · exact hself
  split
  · exact hself
  · next hgen =>
      have hzero : h.counted = 0 := by
        unfold counted
        rw [Option.not_isSome_iff_eq_none.mp hgen]
        rfl
      cases hden : h.deniable with
      | some den =>
          refine hP _ rfl rfl ?_ (by rw [hden]; rfl)
          have hv : den.v3 = none := by
            unfold generation? at hgen
            rw [hden] at hgen
            simp only at hgen
            cases hv : den.v3 with
            | none => rfl
            | some v =>
                rw [hv] at hgen
                exact absurd rfl hgen
          show (den.upgrade.v3.map DeniableHeaderV3.headerGeneration).getD 0 = h.counted
          unfold DeniableState.upgrade
          rw [hv, hzero]
          rfl
      | none =>
          simp only
          split
          · exact hself
          · refine hP _ rfl rfl ?_ rfl
            rw [hzero]
            unfold counted generation?
            rw [hden]
            rfl

/-! ## In flight -/

/-- A rotation is in flight and `h₀` is what it started from. -/
structure Aloft (h₀ h : Head) : Prop where
  handle : h.handle = .rotating
  path : h.path = .rotating
  files : h.files .committed = h₀.files .committed
  mirrors : h.mirrors .committed = h₀.mirrors .committed
  rotation : h.rotation = some h₀.saved
  mode : h.deniable.isSome = h₀.deniable.isSome
  grows : h₀.counted ≤ h.counted

/-- The copy has its header. -/
structure Ready (h₀ h : Head) : Prop extends Aloft h₀ h where
  copied : ∃ b, h.files .rotating = some b ∧ Fits b h

variable {h₀ : Head}

theorem Aloft.persisted {b : HeaderBytes} (ha : Aloft h₀ h) (hp : Persisted b h h') :
    Ready h₀ h' := by
  have hne : (Place.committed : Place) ≠ h.handle := by
    rw [ha.handle]
    decide
  have hnep : (Place.committed : Place) ≠ h.path := by
    rw [ha.path]
    decide
  have hs := hp.seated
  exact ⟨⟨hs.handle.trans ha.handle, hs.path.trans ha.path, (hp.others _ hne).trans ha.files,
    (hp.otherMirrors _ hnep).trans ha.mirrors, hs.rotation.trans ha.rotation,
    hs.mode.trans ha.mode, ha.grows.trans hp.grows⟩, b, ha.handle ▸ hp.file, hp.fits⟩

theorem Aloft.unpersisted {b : HeaderBytes} (ha : Aloft h₀ h) (hp : Unpersisted b h h') :
    Aloft h₀ h' := by
  have hne : (Place.committed : Place) ≠ h.handle := by
    rw [ha.handle]
    decide
  have hnep : (Place.committed : Place) ≠ h.path := by
    rw [ha.path]
    decide
  have hs := hp.laid.seated
  exact ⟨hs.handle.trans ha.handle, hs.path.trans ha.path, (hp.laid.others _ hne).trans ha.files,
    (hp.laid.otherMirrors _ hnep).trans ha.mirrors, hs.rotation.trans ha.rotation,
    hs.mode.trans ha.mode, ha.grows.trans (le_of_eq hp.counted.symm)⟩

theorem persistHeader_aloft {nonce : Nat} (ha : Aloft h₀ h) (hd : h.headerDirty = true) :
    wp (persistHeader nonce) (fun _ h' => Ready h₀ h') (fun _ h' => Aloft h₀ h') h := by
  refine wp_mono persistHeader_counts ?_ ?_
  · rintro _ h' (⟨hno, -⟩ | ⟨b, hp⟩)
    · rw [hd] at hno
      cases hno
    · exact ha.persisted hp
  · rintro _ h' (rfl | ⟨b, hp⟩)
    · exact ha
    · exact ha.unpersisted hp

theorem beginAtomicRotation_aloft :
    wp beginAtomicRotation (fun _ h' => Aloft h h')
      (fun _ h' => h'.files = h.files ∧ h'.mirrors = h.mirrors ∧ h'.counted = h.counted ∧
        h'.deniable = h.deniable) h := by
  unfold beginAtomicRotation
  rw [wp_bind, wp_get]
  split
  · exact ⟨rfl, rfl, rfl, rfl⟩
  split
  · exact ⟨rfl, rfl, rfl, rfl⟩
  rw [wp_bind]
  apply wp_step
  · rw [wp_modify]
    refine ⟨rfl, rfl, ?_, rfl, rfl, rfl, le_refl _⟩
    show Function.update h.files .rotating (h.files h.handle) .committed = _
    rw [Function.update_of_ne (by decide)]
  · exact ⟨rfl, rfl, rfl, rfl⟩

theorem Aloft.restored (ha : Aloft h₀ h) (hk : Kept h₀) :
    Kept (h.restored h₀.saved) ∧ (h.restored h₀.saved).counted = h₀.counted := by
  have hmode : h₀.saved.savedDeniable.isSome = h.deniable.isSome := ha.mode.symm
  have hcount : (h.restored h₀.saved).counted = h₀.counted := by
    unfold counted
    rw [restored_generation hmode]
    rfl
  have hfile : (h.restored h₀.saved).files .committed = h₀.files .committed := by
    show Function.update h.files .rotating none .committed = _
    rw [Function.update_of_ne (by decide), ha.files]
  have hmirror : (h.restored h₀.saved).mirrors .committed = h₀.mirrors .committed := by
    show Function.update h.mirrors .rotating none .committed = _
    rw [Function.update_of_ne (by decide), ha.mirrors]
  refine ⟨⟨hcount ▸ hk.onDisk.congr hfile hmirror, fun hd => ?_⟩, hcount⟩
  have hd₀ : h₀.deniable.isSome = true := by
    have hd : (h₀.deniable.or h.deniable).isSome = true := hd
    rw [Option.isSome_or, ha.mode, Bool.or_self] at hd
    exact hd
  rcases hk.kind hd₀ with ⟨d, hf⟩ | hold
  · exact .inl ⟨d, hfile.trans hf⟩
  · right
    rw [hmirror, hcount]
    exact hold

/-- What a commit may leave: the copy has become the vault file, or nothing has
happened to it. -/
def Ended (h₀ h h' : Head) : Prop :=
  h'.counted = h.counted ∧ h'.deniable = h.deniable ∧
    ((h'.handle = .committed ∧ h'.files .committed = h.files .rotating) ∨
      (h'.handle ≠ .committed ∧ h'.files .committed = h₀.files .committed ∧
        h'.mirrors .committed = h₀.mirrors .committed))

theorem commitAtomicRotation_ended (ha : Aloft h₀ h) :
    wp commitAtomicRotation
      (fun _ h' => Ended h₀ h h' ∧ h'.handle = .committed) (fun _ h' => Ended h₀ h h') h := by
  have hstay : ∀ {rotation : Option RotationState} {io : List HeaderFault},
      Ended h₀ h { h with rotation := rotation, io := io } := by
    intro rotation io
    refine ⟨rfl, rfl, .inr ⟨?_, ha.files, ha.mirrors⟩⟩
    show h.handle ≠ .committed
    rw [ha.handle]
    decide
  have hrenamed : ∀ {io : List HeaderFault} {mirrors : Place → Option HeaderBytes} {d : Bool}
      {path : Place}, Ended h₀ h { renamed { h with rotation := none } with
        io := io, mirrors := mirrors, headerDirty := d, path := path } := by
    intro io mirrors d path
    refine ⟨rfl, rfl, .inl ⟨rfl, ?_⟩⟩
    show Function.update (Function.update h.files .committed (h.files .rotating)) .rotating none
      .committed = _
    rw [Function.update_of_ne (by decide), Function.update_self]
  unfold commitAtomicRotation
  rw [wp_bind, wp_get, ha.rotation]
  simp only
  rw [wp_bind, wp_modify, wp_bind]
  apply wp_step
  · rw [wp_bind]
    apply wp_step
    · rw [wp_bind, wp_attempt]
      apply wp_step
      · simp only
        rw [wp_bind, wp_modify, wp_bind]
        apply wp_step
        · rw [wp_bind, wp_modify, wp_bind]
          unfold removeStaleMirror
          rw [wp_bind]
          apply wp_fault
          split
          · exact ⟨hrenamed, rfl⟩
          · exact ⟨hrenamed, rfl⟩
        · exact hrenamed
      · exact hstay
    · exact hstay
  · exact hstay

theorem Ready.ended (hr : Ready h₀ h) (he : Ended h₀ h h') (hh : h'.handle = .committed) :
    Kept h' ∧ h₀.counted ≤ h'.counted := by
  obtain ⟨b, hb, hfits⟩ := hr.copied
  obtain ⟨hcount, hden, ⟨-, hf⟩ | ⟨hno, -⟩⟩ := he
  · rw [hb] at hf
    refine ⟨⟨⟨fun b' hb' => ?_, fun hu => ?_⟩, fun hd => ?_⟩, hr.grows.trans (le_of_eq hcount.symm)⟩
    · rw [hf] at hb'
      injection hb' with hb'
      rw [hcount, ← hb']
      exact hfits.reaches
    · rw [hf] at hu
      injection hu with hu
      exact absurd hu hfits.parses
    · rw [hden] at hd
      obtain ⟨d, hd⟩ := hfits.deniable hd
      exact .inl ⟨d, hd ▸ hf⟩
  · exact absurd hh hno

/-! ## Opening -/

/-- An open comes up with a header that reaches what the disk reached, and that
the disk reaches. -/
theorem OnDisk.reopen (ho : OnDisk g h) (hre : h.reopen = some h') : g ≤ h'.counted ∧ Kept h' := by
  unfold Head.reopen at hre
  obtain ⟨bytes, hload, hopen⟩ := Option.bind_eq_some_iff.mp hre
  -- what was loaded is in the file, or in the mirror of a file that does not parse
  have hplace : h.files .committed = some bytes ∨
      (h.files .committed = some .unparsable ∧ h.mirrors .committed = some bytes) := by
    unfold loaded at hload
    split at hload
    · next hu => exact .inr ⟨hu, hload⟩
    · exact .inl hload
  have hreach : bytes.Reaches g := by
    rcases hplace with hf | ⟨hu, hm⟩
    · exact ho.file bytes hf
    · exact ho.mirror hu bytes hm
  have hdisk : bytes.Reaches h'.counted → h'.files = h.files → h'.mirrors = h.mirrors →
      OnDisk h'.counted h' := by
    intro hown hfiles hmirrors
    rcases hplace with hf | ⟨hu, hm⟩
    · refine ⟨fun b hb => ?_, fun hu b hb => ?_⟩
      · rw [hfiles, hf] at hb
        injection hb with hb
        exact hb ▸ hown
      · rw [hfiles, hf] at hu
        injection hu with hu
        rw [hu] at hopen
        cases hopen
    · refine ⟨fun b hb => ?_, fun _ b hb => ?_⟩
      · rw [hfiles, hu] at hb
        injection hb with hb
        rw [← hb]
        exact trivial
      · rw [hmirrors, hm] at hb
        injection hb with hb
        exact hb ▸ hown
  unfold opened at hopen
  split at hopen
  · next image =>
      injection hopen with hopen
      have hcount : h'.counted =
          if image.versionMajor ≥ versionMajorHeaderV3 then image.generation else 0 := by
        rw [← hopen]
        unfold counted generation?
        simp only
        split
        · rfl
        · rfl
      refine ⟨hcount ▸ hreach, hdisk (le_of_eq hcount) ?_ ?_, fun hd => ?_⟩
      · rw [← hopen]
      · rw [← hopen]
      · rw [← hopen] at hd
        cases hd
  · next header =>
      split at hopen
      · next salt b hs hb =>
          split at hopen
          · injection hopen with hopen
            have hcount : h'.counted = (b.v3.map DeniableHeaderV3.headerGeneration).getD 0 := by
              rw [← hopen]
              rfl
            have hown : (HeaderBytes.deniable header).Reaches h'.counted := by
              intro box hbox
              rw [hb] at hbox
              injection hbox with hbox
              rw [← hbox, hcount]
            refine ⟨hcount ▸ hreach b hb, hdisk hown ?_ ?_, fun _ => ?_⟩
            · rw [← hopen]
            · rw [← hopen]
            · rcases hplace with hf | ⟨hu, hm⟩
              · refine .inl ⟨header, ?_⟩
                rw [← hopen]
                exact hf
              · refine .inr fun b' hb' => ?_
                rw [← hopen] at hb'
                have hb' : h.mirrors .committed = some b' := hb'
                rw [hm] at hb'
                injection hb' with hb'
                exact hb' ▸ hown
          · cases hopen
      · cases hopen
  · cases hopen
  · cases hopen

end Head

end Luksbox
