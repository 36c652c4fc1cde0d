import Luksbox.Proofs.GenerationRuns

/-!
# No false alarm

What the anchor has recorded of an untouched vault is never ahead of what an
open finds there: neither the generation of the metadata, which
`Proofs/GenerationRuns.lean` follows, nor that of the header, which is followed
here. A flush records the header generation in memory, a persist and a rotation
record the one they have just written.
-/

namespace Luksbox

open Lib

/-! ## Calls on the VFS -/

/-- What a call on the VFS may do to what the container knows of its header: an
upgrade to LUKSBOX2 in memory, and an anchor that records the current
generation. -/
def Container.Noted (hg a : Option Nat) (version : Nat) (c : Container) : Prop :=
  c.headerGeneration = hg ∧ (c.anchorHeader = a ∨ c.anchorHeader = hg) ∧
    (c.header.versionMajor = version ∨
      (version = versionMajorV1 ∧ c.header.versionMajor = versionMajorV2))

namespace Vfs

variable {hg a : Option Nat} {version : Nat}

/-- The same of the container of a VFS. -/
def Noted (hg a : Option Nat) (version : Nat) (s : Vfs) : Prop := s.container.Noted hg a version

theorem noted_unhurt : Unhurt (Noted hg a version) := by
  intro s s' h hs
  unfold Noted Container.Noted at hs ⊢
  rw [h.container]
  exact hs

theorem onContainer_noted {α : Type} {m : ContainerM α}
    (hm : Keeps (Container.Noted hg a version) m) : Keeps (Noted hg a version) (onContainer m) :=
  Keeps.zoom fun s h => hm s.container h

theorem syncAll_noted : Keeps (Container.Noted hg a version) Container.syncAll := fun _ h =>
  Container.syncAll_spec (fun _ => h) (fun _ => h) fun _ => h

theorem ioCall_noted : Keeps (Container.Noted hg a version) Container.ioCall := fun _ h =>
  Container.ioCall_spec (fun _ => h) fun _ => h

theorem writeLive_noted {m : Metadata} :
    Keeps (Container.Noted hg a version) (Container.writeLive m) := by
  intro c h
  unfold Container.writeLive
  rw [wp_bind]
  refine Container.nextFault_spec fun fault io => ?_
  cases fault with
  | ok => exact h
  | before => exact h
  | torn left written => exact h
  | after => exact h

theorem writeMetadata_noted {m : Metadata} :
    Keeps (Container.Noted hg a version) (Container.writeMetadata m) := by
  have hrest : Keeps (Container.Noted hg a version) (do
      Container.writeLive m
      Container.syncAll
      Container.ioCall) :=
    Keeps.bind writeLive_noted fun _ => Keeps.bind syncAll_noted fun _ => ioCall_noted
  refine Keeps.bind Keeps.get fun _ => Keeps.ite Keeps.throw (Keeps.ite ?_ hrest)
  refine Keeps.bind (fun c h => ?_) fun _ => hrest
  unfold Container.writeMetadataMirror
  rw [wp_bind]
  refine Container.nextFault_spec fun fault io => ?_
  cases fault with
  | ok => exact h
  | before => exact h
  | torn left written => exact h
  | after => exact h

theorem writeAnchor_noted {g : Nat} :
    Keeps (Container.Noted hg a version) (Container.writeAnchor g) := by
  refine Keeps.bind Keeps.get fun c => ?_
  split
  · exact Keeps.pure
  · exact Keeps.bind ioCall_noted fun _ => Keeps.modify fun c h => ⟨h.1, .inr h.1, h.2.2⟩

theorem publishMetadata_noted {blob : Metadata} :
    Keeps (Noted hg a version) (publishMetadata blob) := by
  refine Keeps.bind (onContainer_noted syncAll_noted) fun _ => ?_
  refine Keeps.bind (Keeps.modify fun _ h => h) fun _ => ?_
  refine Keeps.bind (onContainer_noted writeMetadata_noted) fun _ => ?_
  refine Keeps.bind (Keeps.modify fun _ h => h) fun _ => Keeps.bind (Keeps.modify fun _ h => h) fun _ => ?_
  refine Keeps.bind (onContainer_noted (Keeps.modify fun _ h => h)) fun _ => ?_
  refine Keeps.bind Keeps.get fun _ => Keeps.bind Keeps.fromExcept fun _ => ?_
  exact Keeps.bind (onContainer_noted writeAnchor_noted) fun _ => Keeps.modify fun _ h => h

theorem upgradeHeader_noted {s : Vfs} (h : Noted hg a version s) :
    Noted hg a version (upgradeHeader s) := by
  unfold upgradeHeader
  split
  · next hup =>
      refine ⟨h.1, h.2.1, .inr ⟨?_, rfl⟩⟩
      rcases h.2.2 with hv | ⟨hv, -⟩
      · exact hv.symm.trans hup.1
      · exact hv
  · exact h

theorem upgradeToV4_noted {s : Vfs} (h : Noted hg a version s) :
    Noted hg a version (upgradeToV4 s) := by
  unfold upgradeToV4
  split
  · exact h
  · exact h

theorem flush_noted : Keeps (Noted hg a version) flush := by
  refine Keeps.bind Keeps.get fun _ => Keeps.ite (Keeps.ite Keeps.throw Keeps.pure) ?_
  refine Keeps.ite Keeps.pure ?_
  refine Keeps.bind (Keeps.modify fun _ h => h) fun _ => Keeps.bind Keeps.get fun _ => ?_
  refine Keeps.bind Keeps.fromExcept fun _ => Keeps.bind (allocChunkGen_keeps noted_unhurt.unmoved) fun _ => ?_
  refine Keeps.bind (Keeps.modify fun _ h => upgradeHeader_noted h) fun _ => ?_
  refine Keeps.bind (Keeps.modify fun _ h => upgradeToV4_noted h) fun _ => ?_
  have henc : Keeps (Noted hg a version) encodeMetadata :=
    encodeMetadata_keeps noted_unhurt.unmoved (writeExternalChainFor_keeps noted_unhurt)
  exact Keeps.bind henc fun _ => publishMetadata_noted

theorem truncateDataFile_noted {len : Nat} :
    Keeps (Noted hg a version) (onContainer (Container.truncateDataFile len)) := by
  refine onContainer_noted (Keeps.bind Keeps.get fun _ => Keeps.ite Keeps.throw ?_)
  intro c h
  rw [wp_bind]
  refine Container.nextFault_spec fun fault io => ?_
  cases fault with
  | ok => exact wp_bind.mpr (syncAll_noted _ h)
  | before => exact h
  | torn left written => exact h
  | after => exact h

theorem reopen_noted : Keeps (Noted hg a version) reopen := by
  refine Keeps.bind flush_noted fun _ => Keeps.get_bind fun s h => ?_
  rw [wp_bind, wp_fromExcept]
  refine ⟨fun s' hopen => ?_, fun _ _ => h⟩
  show s'.container.Noted hg a version
  rw [(open_generation hopen).1]
  exact h

theorem step_noted {s : Vfs} {call : Call} (h : Noted hg a version s) :
    Noted hg a version (s.step call) := by
  have hk : Keeps (Noted hg a version) (exec call.op) :=
    exec_keeps noted_unhurt.unmoved (writes_of_unhurt noted_unhurt flush_noted)
      (fun _ => truncateDataFile_noted) call.op fun _ => reopen_noted
  exact step_of_wp (hk (s.withEnv call.env) h)

end Vfs

namespace Vault

variable {v v' : Vault} {α : Type}

/-! ## The account of the header -/

/-- The header half of the record: what the anchor has seen of the header, an
open still finds; and on the vault's own file memory is not ahead of the disk. -/
structure Accounted (v : Vault) : Prop where
  same : v.vfs.container.headerGeneration = v.headOf.generation?
  seen : ∀ a, v.vfs.container.anchorHeader = some a → Head.OnDisk a v.head
  kept : v.Idle → Head.Kept v.headOf ∧
    ∀ a, v.vfs.container.anchorHeader = some a → a ≤ v.headOf.counted

/-- The header halves of a vault before and after a call differ in what has no
bearing on the generation. -/
theorem counted_congr {h h' : Head} (hden : h'.deniable = h.deniable)
    (hgen : h'.headerGeneration = h.headerGeneration)
    (hver : h'.versionMajor = h.versionMajor ∨
      (h.versionMajor = versionMajorV1 ∧ h'.versionMajor = versionMajorV2)) :
    h'.generation? = h.generation? := by
  unfold Head.generation?
  rw [hden, hgen]
  rcases hver with hver | ⟨h1, h2⟩
  · rw [hver]
  · rw [h1, h2]
    rfl

theorem Kept.congr {h h' : Head} (hk : Head.Kept h) (hfiles : h'.files = h.files)
    (hmirrors : h'.mirrors = h.mirrors) (hcount : h'.counted = h.counted)
    (hmode : h'.deniable.isSome = h.deniable.isSome) : Head.Kept h' := by
  refine ⟨?_, fun hd => ?_⟩
  · rw [hcount]
    exact hk.onDisk.congr (by rw [hfiles]) (by rw [hmirrors])
  · rw [hfiles, hmirrors, hcount]
    exact hk.kind (hmode ▸ hd)

theorem vfs_accounted {call : Call} (h : Accounted v) (hidle : v.Idle) :
    Accounted { v with vfs := v.vfs.step call } := by
  have hn : Vfs.Noted v.vfs.container.headerGeneration v.vfs.container.anchorHeader
      v.vfs.container.header.versionMajor (v.vfs.step call) :=
    Vfs.step_noted ⟨rfl, .inl rfl, .inl rfl⟩
  obtain ⟨hg, ha, hver⟩ := hn
  have hgen : ({ v with vfs := v.vfs.step call } : Vault).headOf.generation? =
      v.headOf.generation? := counted_congr rfl rfl hver
  have hcount : ({ v with vfs := v.vfs.step call } : Vault).headOf.counted = v.headOf.counted := by
    unfold Head.counted
    rw [hgen]
  obtain ⟨hkept, hbound⟩ := h.kept hidle
  -- the anchor is where it was, or at the generation in memory
  have hnew : ∀ a, (v.vfs.step call).container.anchorHeader = some a → a ≤ v.headOf.counted := by
    intro a hsome
    rcases ha with ha | ha
    · exact hbound a (ha ▸ hsome)
    · rw [ha, h.same] at hsome
      unfold Head.counted
      rw [hsome]
      exact le_refl _
  refine ⟨hg.trans (h.same.trans hgen.symm), fun a hsome => ?_, fun _ => ⟨?_, fun a hsome => ?_⟩⟩
  · exact (hkept.onDisk.mono (hnew a hsome)).congr rfl rfl
  · exact Kept.congr hkept rfl rfl hcount rfl
  · rw [hcount]
    exact hnew a hsome

/-! ## Header writes -/

theorem Accounted.putHead {h : Head} (hv : Accounted v)
    (hseen : ∀ a, v.vfs.container.anchorHeader = some a → Head.OnDisk a h)
    (hkept : v.Idle → Head.Kept h ∧ v.headOf.counted ≤ h.counted) : Accounted (v.putHead h) :=
  ⟨rfl, hseen, fun hidle => ⟨(hkept hidle).1, fun a ha =>
    ((hv.kept hidle).2 a ha).trans (hkept hidle).2⟩⟩

theorem Accounted.withHeaderIo {io : List HeaderFault} (h : Accounted v) :
    Accounted (v.withHeaderIo io) :=
  ⟨h.same, fun a ha => (h.seen a ha).congr rfl rfl, fun hidle =>
    ⟨Kept.congr (h.kept hidle).1 rfl rfl rfl rfl, (h.kept hidle).2⟩⟩

/-- The anchor records the generation in memory. -/
theorem writeAnchor_accounted {g : Nat} {io : List Fault} (h : Accounted v) (hidle : v.Idle) :
    wp (onContainer do
        modify fun c => { c with env := { c.env with io := io } }
        Container.writeAnchor g) (fun _ v' => Accounted v') (fun _ v' => Accounted v') v := by
  obtain ⟨hkept, hbound⟩ := h.kept hidle
  have hio : ∀ {io : List Fault}, Accounted { v with
      vfs := { v.vfs with container := v.vfs.container.withIo io } } :=
    fun {io} => ⟨h.same, h.seen, fun _ => ⟨hkept, hbound⟩⟩
  unfold onContainer onVfs Vfs.onContainer Container.writeAnchor
  rw [wp_zoom, wp_zoom, wp_bind, wp_modify, wp_bind, wp_get]
  split
  · exact hio
  · rw [wp_bind]
    refine Container.ioCall_spec (fun io' => ?_) fun io' => hio
    rw [wp_modify]
    have hnew : ∀ a, v.vfs.container.headerGeneration = some a → a ≤ v.headOf.counted := by
      intro a ha
      rw [h.same] at ha
      unfold Head.counted
      rw [ha]
      exact le_refl _
    exact ⟨h.same, fun a ha => (hkept.onDisk.mono (hnew a ha)).congr rfl rfl,
      fun _ => ⟨hkept, hnew⟩⟩

theorem persistHeader_accounted {nonce : Nat} {anchor : Fault} (h : Accounted v)
    (hidle : v.Idle) (hhome : v.head.Home) :
    wp (persistHeader nonce anchor) (fun _ v' => Accounted v') (fun _ v' => Accounted v') v := by
  have hkept := (h.kept hidle).1
  have hhome' : v.headOf.Home := ⟨hhome.handle, hhome.path, hhome.rotation⟩
  have hput : ∀ h', Head.Kept h' ∧ v.headOf.counted ≤ h'.counted → Accounted (v.putHead h') := by
    rintro h' ⟨hk, hle⟩
    refine h.putHead (fun a ha => ?_) fun _ => ⟨hk, hle⟩
    exact hk.onDisk.mono (((h.kept hidle).2 a ha).trans hle)
  unfold persistHeader onHead
  rw [wp_bind, wp_get, wp_bind, wp_zoom]
  refine wp_mono (Head.persistHeader_kept hkept hhome') ?_ fun _ h' hk => hput h' hk
  intro _ h' hk
  rw [wp_ite]
  refine ⟨fun _ => ?_, fun _ => hput h' hk⟩
  unfold refreshAnchorAfterHeaderWrite
  rw [wp_bind, wp_get]
  split
  · exact hput h' hk
  split
  · exact hput h' hk
  · exact writeAnchor_accounted (hput h' hk) hidle

theorem upgradeHeaderToV3_accounted (h : Accounted v) :
    wp (onHead Head.upgradeHeaderToV3) (fun _ v' => Accounted v') (fun _ v' => Accounted v') v := by
  unfold onHead
  rw [wp_zoom]
  refine Head.upgradeHeaderToV3_kept (fun h' => Accounted (v.putHead h')) ?_
  intro h' hfiles hmirrors hcount hmode
  refine h.putHead (fun a ha => (h.seen a ha).congr (by rw [hfiles]; rfl) (by rw [hmirrors]; rfl))
    fun hidle => ⟨Kept.congr (h.kept hidle).1 hfiles hmirrors hcount hmode, le_of_eq hcount.symm⟩

/-! ## Rotations -/

/-- A rotation in flight, `h₀` and `a₀` being the header and what the anchor had
seen of it when it began. With `p`, there is a header to be written. -/
structure InAir (p : Prop) (h₀ : Head) (a₀ : Option Nat) (v : Vault) : Prop where
  busy : v.otherData ≠ none
  same : v.vfs.container.headerGeneration = v.headOf.generation?
  anchor : v.vfs.container.anchorHeader = a₀
  aloft : Head.Aloft h₀ v.headOf
  dirty : p → v.head.headerDirty = true

/-- What the container knows of its header. -/
def FixedTo (c₀ c : Container) : Prop :=
  c.headerGeneration = c₀.headerGeneration ∧ c.anchorHeader = c₀.anchorHeader ∧
    c.header = c₀.header

variable {p : Prop} {h₀ : Head} {a₀ : Option Nat}

theorem InAir.fixed {c : Container} (h : InAir p h₀ a₀ v) (hc : FixedTo v.vfs.container c) :
    InAir p h₀ a₀ { v with vfs := { v.vfs with container := c } } := by
  obtain ⟨hg, ha, hh⟩ := hc
  have hver : c.header.versionMajor = v.vfs.container.header.versionMajor := by rw [hh]
  have hgen : ({ v with vfs := { v.vfs with container := c } } : Vault).headOf.generation? =
      v.headOf.generation? := counted_congr rfl rfl (.inl hver)
  have hf := h.aloft
  refine ⟨h.busy, hg.trans (h.same.trans hgen.symm), ha.trans h.anchor,
    ⟨hf.handle, hf.path, hf.files, hf.mirrors, hf.rotation, hf.mode, ?_⟩, h.dirty⟩
  unfold Head.counted
  rw [hgen]
  exact hf.grows

theorem onContainer_aloft {m : ContainerM α} (hm : ∀ c, Keeps (FixedTo c) m) :
    Keeps (InAir p h₀ a₀) (onContainer m) := by
  refine Keeps.zoom fun v h => ?_
  unfold Vfs.onContainer
  rw [wp_zoom]
  exact wp_mono (hm v.vfs.container v.vfs.container ⟨rfl, rfl, rfl⟩) (fun _ _ hc => h.fixed hc)
    fun _ _ hc => h.fixed hc

theorem slots_aloft {m : ContainerM α} (hm : ∀ c, Keeps (Vfs.SlotsOnly c) m) :
    Keeps (InAir p h₀ a₀) (onContainer m) := by
  have hfixed : ∀ {c c' : Container}, Vfs.SlotsOnly c c' → FixedTo c c' := by
    intro c c' hc
    unfold FixedTo
    rw [hc]
    exact ⟨rfl, rfl, rfl⟩
  refine Keeps.zoom fun v h => ?_
  unfold Vfs.onContainer
  rw [wp_zoom]
  exact wp_mono (hm v.vfs.container v.vfs.container rfl) (fun _ _ hc => h.fixed (hfixed hc))
    fun _ _ hc => h.fixed (hfixed hc)

theorem scrub_aloft : Keeps (InAir p h₀ a₀) scrubUnreferencedChunkSlots :=
  Keeps.bind Keeps.get fun _ => slots_aloft fun _ => scrubSlots_slots _

theorem writeMetadataInFlight_fixed {c₀ : Container} {m : Metadata} :
    Keeps (FixedTo c₀) (Container.writeMetadataInFlight m) := by
  refine Keeps.bind Keeps.get fun _ => Keeps.ite Keeps.throw (Keeps.bind (fun c h => ?_) fun _ => ?_)
  · unfold Container.writeLive
    rw [wp_bind]
    refine Container.nextFault_spec fun fault io => ?_
    cases fault with
    | ok => exact h
    | before => exact h
    | torn left written => exact h
    | after => exact h
  · refine Keeps.bind (fun c h => ?_) fun _ c h => ?_
    · exact Container.syncAll_spec (fun _ => h) (fun _ => h) fun _ => h
    · exact Container.ioCall_spec (fun _ => h) fun _ => h

theorem readMetadata_fixed {c₀ : Container} : Keeps (FixedTo c₀) Container.readMetadata := by
  have hio : Keeps (FixedTo c₀) Container.ioCall :=
    fun c h => Container.ioCall_spec (fun _ => h) fun _ => h
  refine Keeps.bind hio fun _ => Keeps.bind Keeps.get fun c => ?_
  split
  · exact Keeps.pure
  split
  · exact Keeps.throw
  · refine Keeps.bind (Keeps.attempt hio) fun r => ?_
    split
    · exact Keeps.throw
    · exact Keeps.bind (Keeps.modify fun _ h => h) fun _ => Keeps.pure

theorem rekeyMetadata_fixed {c₀ : Container} {newMvk : Nat} :
    Keeps (FixedTo c₀) (Container.rekeyMetadata newMvk) := by
  refine Keeps.bind readMetadata_fixed fun _ => Keeps.bind Keeps.get fun _ => ?_
  refine Keeps.bind (Keeps.modify fun _ h => h) fun _ => ?_
  refine Keeps.bind (Keeps.attempt writeMetadataInFlight_fixed) fun r => ?_
  split
  · exact Keeps.pure
  · exact Keeps.bind (Keeps.modify fun _ h => h) fun _ => Keeps.throw

/-- The copy has its header. -/
def Landing (h₀ : Head) (a₀ : Option Nat) (v : Vault) : Prop :=
  InAir False h₀ a₀ v ∧ Head.Ready h₀ v.headOf

theorem InAir.weaken {q : Prop} (h : InAir p h₀ a₀ v) (hq : q → p) : InAir q h₀ a₀ v :=
  ⟨h.busy, h.same, h.anchor, h.aloft, fun hyes => h.dirty (hq hyes)⟩

theorem InAir.putHead {q : Prop} {h : Head} (hv : InAir p h₀ a₀ v) (ha : Head.Aloft h₀ h)
    (hd : q → h.headerDirty = true) : InAir q h₀ a₀ (v.putHead h) :=
  ⟨hv.busy, rfl, hv.anchor, ha, hd⟩

theorem persist_landing {nonce : Nat} (h : InAir True h₀ a₀ v) :
    wp (onHead (Head.persistHeader nonce)) (fun _ v' => Landing h₀ a₀ v')
      (fun _ v' => InAir False h₀ a₀ v') v := by
  unfold onHead
  rw [wp_zoom]
  have hd : v.headOf.headerDirty = true := h.dirty trivial
  refine wp_mono (Head.persistHeader_aloft h.aloft hd) ?_ ?_
  · intro _ h' hr
    exact ⟨h.putHead hr.toAloft nofun, hr⟩
  · intro _ h' ha
    exact h.putHead ha nofun

/-- The slots are rebuilt in memory: there is a header to write. -/
theorem Aloft.edited {h h' : Head} (ha : Head.Aloft h₀ h) (hfiles : h'.files = h.files)
    (hmirrors : h'.mirrors = h.mirrors) (hhandle : h'.handle = h.handle) (hpath : h'.path = h.path)
    (hrot : h'.rotation = h.rotation) (hmode : h'.deniable.isSome = h.deniable.isSome)
    (hcount : h'.counted = h.counted) : Head.Aloft h₀ h' :=
  ⟨hhandle.trans ha.handle, hpath.trans ha.path, (by rw [hfiles]; exact ha.files),
    (by rw [hmirrors]; exact ha.mirrors), hrot.trans ha.rotation, hmode.trans ha.mode,
    hcount.symm ▸ ha.grows⟩

theorem doRotation_landing {credentials : List SlotCredential} {newMvk nonce : Nat}
    (h : InAir False h₀ a₀ v) :
    wp (doRotation credentials newMvk nonce) (fun _ v' => Landing h₀ a₀ v')
      (fun _ v' => InAir False h₀ a₀ v') v := by
  unfold doRotation
  rw [wp_bind, wp_get, wp_bind]
  have hrekey : Keeps (InAir False h₀ a₀) (onContainer (Container.rekeyInodes
      v.vfs.container.fileKey (fun id => ⟨newMvk, v.vfs.container.headerSalt, id⟩)
        v.vfs.tree.inodes.entries)) := slots_aloft fun _ => rekeyInodes_slots _
  refine wp_mono (hrekey v h) ?_ fun _ _ h' => h'
  intro _ v₁ h₁
  rw [wp_bind]
  refine wp_mono (scrub_aloft v₁ h₁) ?_ fun _ _ h' => h'
  intro _ v₂ h₂
  have hmeta : Keeps (InAir False h₀ a₀) (onContainer (Container.rekeyMetadata newMvk)) :=
    onContainer_aloft fun _ => rekeyMetadata_fixed
  rw [wp_bind]
  refine wp_mono (hmeta v₂ h₂) ?_ fun _ _ h' => h'
  intro _ v₃ h₃
  rw [wp_bind]
  cases buildSlots newMvk credentials fun _ => none with
  | error e => exact h₃
  | ok table =>
      rw [wp_fromExcept_ok, wp_bind]
      unfold onHead
      rw [wp_zoom]
      unfold Head.installRotatedMvk
      rw [wp_modify]
      exact persist_landing (h₃.putHead
        (Aloft.edited h₃.aloft rfl rfl rfl rfl rfl rfl rfl) fun _ => rfl)

theorem rotateDeniableEnvelope_aloft {accepts : Argon2idParams → Bool} {newSalt newMvk nonce : Nat}
    {fill : Fin deniableSlotCount → Nat} {keep : List KeepSlot} (h : InAir False h₀ a₀ v) :
    wp (onHead (Head.rotateDeniableEnvelope accepts newSalt newMvk nonce fill keep))
      (fun _ v' => InAir True h₀ a₀ v') (fun _ v' => InAir False h₀ a₀ v') v := by
  unfold onHead
  rw [wp_zoom]
  unfold Head.rotateDeniableEnvelope
  rw [wp_bind, wp_get]
  have hself : InAir False h₀ a₀ (v.putHead v.headOf) := h.putHead h.aloft nofun
  cases hden : v.headOf.deniable with
  | none => exact hself
  | some den =>
      simp only
      split
      · exact hself
      · next den' hr =>
          rw [wp_modify]
          refine h.putHead (Aloft.edited h.aloft rfl rfl rfl rfl rfl (by rw [hden]; rfl) ?_) fun _ => rfl
          -- a rotation keeps the v3 fields in memory
          have hv3 : den'.v3 = den.v3 := by
            unfold DeniableState.rotate at hr
            obtain ⟨bytes, -, hr⟩ := except_bind_eq_ok.1 hr
            injection hr with hr
            rw [← hr]
          rw [Head.counted_deniable hden]
          show (den'.v3.map DeniableHeaderV3.headerGeneration).getD 0 = _
          rw [hv3]

theorem doRotationDeniable_landing {accepts : Argon2idParams → Bool} {newSalt newMvk nonce : Nat}
    {fill : Fin deniableSlotCount → Nat} {keep : List KeepSlot} {m : Metadata}
    {old : FileId → SubKey} (h : InAir False h₀ a₀ v) :
    wp (doRotationDeniable accepts newSalt newMvk nonce fill keep m old)
      (fun _ v' => Landing h₀ a₀ v') (fun _ v' => InAir False h₀ a₀ v') v := by
  unfold doRotationDeniable
  rw [wp_bind]
  refine wp_mono (rotateDeniableEnvelope_aloft h) ?_ fun _ _ h' => h'
  intro _ v₁ h₁
  rw [wp_bind, wp_get, wp_bind]
  have hrekey : Keeps (InAir True h₀ a₀) (onContainer (Container.rekeyInodes old
      v₁.vfs.container.fileKey v₁.vfs.tree.inodes.entries)) :=
    slots_aloft fun _ => rekeyInodes_slots _
  refine wp_mono (hrekey v₁ h₁) ?_ fun _ _ h' => h'.weaken nofun
  intro _ v₂ h₂
  rw [wp_bind]
  refine wp_mono (scrub_aloft v₂ h₂) ?_ fun _ _ h' => h'.weaken nofun
  intro _ v₃ h₃
  have hmeta : Keeps (InAir True h₀ a₀) (onContainer (Container.writeMetadataInFlight m)) :=
    onContainer_aloft fun _ => writeMetadataInFlight_fixed
  rw [wp_bind]
  refine wp_mono (hmeta v₃ h₃) ?_ fun _ _ h' => h'.weaken nofun
  intro _ v₄ h₄
  exact persist_landing h₄

theorem begin_aloft (h : Accounted v) :
    wp beginAtomicRotation
      (fun _ v' => InAir False v.headOf v.vfs.container.anchorHeader v')
      (fun _ v' => Accounted v') v := by
  unfold beginAtomicRotation onHead
  rw [wp_bind, wp_zoom]
  refine wp_mono Head.beginAtomicRotation_aloft ?_ ?_
  · intro _ h' ha
    rw [wp_modify]
    exact ⟨nofun, rfl, rfl, ha, nofun⟩
  · rintro _ h' ⟨hfiles, hmirrors, hcount, hden⟩
    refine h.putHead (fun a ha => (h.seen a ha).congr (by rw [hfiles]; rfl) (by rw [hmirrors]; rfl))
      fun hidle => ⟨Kept.congr (h.kept hidle).1 hfiles hmirrors hcount (by rw [hden]),
        le_of_eq hcount.symm⟩

theorem Landing.ended {h' : Head} (hl : Landing h₀ a₀ v)
    (hb : ∀ a, a₀ = some a → a ≤ h₀.counted) (he : Head.Ended h₀ v.headOf h')
    (hh : h'.handle = .committed) :
    Accounted (v.putHead h').afterRename ∧ (v.putHead h').afterRename.Idle := by
  obtain ⟨hkept, hle⟩ := hl.2.ended he hh
  have hbound : ∀ a, v.vfs.container.anchorHeader = some a → a ≤ h'.counted :=
    fun a ha => (hb a (hl.1.anchor ▸ ha)).trans hle
  exact ⟨⟨rfl, fun a ha => hkept.onDisk.mono (hbound a ha), fun _ => ⟨hkept, hbound⟩⟩, rfl⟩

theorem commit_accounted {io : CommitIo} (hl : Landing h₀ a₀ v) (hk : Head.Kept h₀)
    (hb : ∀ a, a₀ = some a → a ≤ h₀.counted) :
    wp (commitAtomicRotation io) (fun _ v' => Accounted v' ∧ v'.Idle) (fun _ v' => Accounted v') v := by
  unfold commitAtomicRotation
  rw [wp_bind, wp_modify, wp_bind, wp_attempt]
  have haloft : Head.Aloft h₀ ({ v with head := { v.head with io := io.steps } } : Vault).headOf :=
    Aloft.edited hl.1.aloft rfl rfl rfl rfl rfl rfl rfl
  have hio : Landing h₀ a₀ { v with head := { v.head with io := io.steps } } := by
    obtain ⟨b, hb, hfits⟩ := hl.2.copied
    exact ⟨⟨hl.1.busy, hl.1.same, hl.1.anchor, haloft, nofun⟩, haloft, b, hb,
      hfits.reaches, hfits.parses, hfits.deniable, hfits.standard⟩
  unfold onHead
  rw [wp_zoom]
  refine wp_mono (Head.commitAtomicRotation_ended haloft) ?_ ?_
  · rintro _ h' ⟨he, hh⟩
    exact hio.ended hb he hh
  · intro e h' he
    rw [wp_bind, wp_modify, wp_throw]
    split
    · next hh => exact (hio.ended hb he hh).1
    · next hh =>
        -- the container stays on the copy, and the vault file is as it was
        obtain ⟨-, -, ⟨hyes, -⟩ | ⟨-, hf, hm⟩⟩ := he
        · exact absurd hyes hh
        · refine ⟨rfl, fun a ha => ?_, fun hidle => absurd hidle hl.1.busy⟩
          have ha : v.vfs.container.anchorHeader = some a := ha
          rw [hl.1.anchor] at ha
          exact (hk.onDisk.mono (hb a ha)).congr hf hm

theorem afterRotation_accounted {anchor : Fault} (h : Accounted v) (hidle : v.Idle) :
    wp (afterRotation anchor) (fun _ v' => Accounted v') (fun _ v' => Accounted v') v := by
  unfold afterRotation
  rw [wp_bind, wp_modify, wp_bind, wp_get]
  have hmarked : Accounted { v with vfs := Vfs.markAllChunksDirty v.vfs } :=
    ⟨h.same, h.seen, h.kept⟩
  exact writeAnchor_accounted hmarked hidle

theorem abort_accounted (h : InAir p h₀ a₀ v) (hk : Head.Kept h₀)
    (hb : ∀ a, a₀ = some a → a ≤ h₀.counted) :
    wp abortAtomicRotation (fun _ v' => Accounted v') (fun _ v' => Accounted v') v := by
  have hrot : v.head.rotation = some h₀.saved := h.aloft.rotation
  unfold abortAtomicRotation
  rw [wp_bind, wp_get, hrot]
  simp only
  unfold onHead Head.abortAtomicRotation
  rw [wp_bind, wp_zoom, wp_bind, wp_get, h.aloft.rotation, wp_set, wp_modify]
  obtain ⟨hkept, hcount⟩ := h.aloft.restored hk
  have hbound : ∀ a, v.vfs.container.anchorHeader = some a →
      a ≤ (v.headOf.restored h₀.saved).counted := by
    intro a ha
    rw [h.anchor] at ha
    rw [hcount]
    exact hb a ha
  have hput : ∀ {v' : Vault}, v'.headOf = v.headOf.restored h₀.saved →
      v'.vfs.container.anchorHeader = v.vfs.container.anchorHeader →
      v'.vfs.container.headerGeneration = v'.headOf.generation? → Accounted v' := by
    intro v' hhead hanchor hsame
    refine ⟨hsame, fun a ha => ?_, fun _ => ?_⟩
    · have hdisk : Head.OnDisk a v'.headOf := by
        rw [hhead]
        exact hkept.onDisk.mono (hbound a (hanchor ▸ ha))
      exact hdisk.congr rfl rfl
    · rw [hhead]
      exact ⟨hkept, fun a ha => hbound a (hanchor ▸ ha)⟩
  split
  · exact hput rfl rfl rfl
  · exact hput rfl rfl rfl

theorem rotateWith_accounted {io : CommitIo} {body : VaultM Unit} (h : Accounted v) (hidle : v.Idle)
    (hbody : ∀ v', InAir False v.headOf v.vfs.container.anchorHeader v' →
      wp body (fun _ v'' => Landing v.headOf v.vfs.container.anchorHeader v'')
        (fun _ v'' => InAir False v.headOf v.vfs.container.anchorHeader v'') v') :
    wp (rotateWith io body) (fun _ v' => Accounted v') (fun _ v' => Accounted v') v := by
  obtain ⟨hk, hb⟩ := h.kept hidle
  unfold rotateWith
  rw [wp_bind]
  refine wp_mono (begin_aloft h) ?_ fun _ _ h' => h'
  intro _ v₁ h₁
  rw [wp_bind, wp_attempt]
  refine wp_mono (hbody v₁ h₁) ?_ ?_
  · intro _ v₂ h₂
    show wp (do commitAtomicRotation io; afterRotation io.anchor) _ _ v₂
    rw [wp_bind]
    exact wp_mono (commit_accounted h₂ hk hb) (fun _ _ h₃ => afterRotation_accounted h₃.1 h₃.2)
      fun _ _ h₃ => h₃
  · intro e v₂ h₂
    show wp (do abortAtomicRotation; throw e) _ _ v₂
    rw [wp_bind]
    exact wp_mono (abort_accounted h₂ hk hb) (fun _ _ h₃ => h₃) fun _ _ h₃ => h₃

/-- A vault that may rotate, with its account in order. -/
def Steadfast (v : Vault) : Prop := Accounted v ∧ v.Idle

theorem checkRotation_steadfast {credentials : List SlotCredential} :
    Keeps Steadfast (checkRotation credentials) := by
  refine Keeps.bind ?_ fun _ => Keeps.bind (Keeps.modify fun _ h =>
    ⟨⟨h.1.same, h.1.seen, h.1.kept⟩, h.2⟩) fun _ => ?_
  · exact Keeps.zoom fun v h => Vfs.wp_ensureWritable.mpr ⟨fun _ => h, fun _ => h⟩
  · refine Keeps.bind Keeps.get fun _ => Keeps.ite Keeps.throw (Keeps.ite Keeps.throw ?_)
    exact Keeps.fromExcept

theorem rotateMvk_accounted {credentials : List SlotCredential} {newMvk nonce : Nat} {io : CommitIo}
    (h : Steadfast v) :
    wp (rotateMvk credentials newMvk nonce io) (fun _ v' => Accounted v') (fun _ v' => Accounted v')
      v := by
  unfold rotateMvk
  rw [wp_bind]
  refine wp_mono (checkRotation_steadfast v h) ?_ fun _ _ h' => h'.1
  intro _ v₁ h₁
  exact rotateWith_accounted h₁.1 h₁.2 fun v' hv' => doRotation_landing hv'

theorem Accounted.fixed {c : Container} (h : Accounted v) (hc : FixedTo v.vfs.container c) :
    Accounted { v with vfs := { v.vfs with container := c } } := by
  obtain ⟨hg, ha, hh⟩ := hc
  have hver : c.header.versionMajor = v.vfs.container.header.versionMajor := by rw [hh]
  have hgen : ({ v with vfs := { v.vfs with container := c } } : Vault).headOf.generation? =
      v.headOf.generation? := counted_congr rfl rfl (.inl hver)
  have hcount : ({ v with vfs := { v.vfs with container := c } } : Vault).headOf.counted =
      v.headOf.counted := by
    unfold Head.counted
    rw [hgen]
  refine ⟨hg.trans (h.same.trans hgen.symm), fun a hsome => h.seen a (ha ▸ hsome), fun hidle => ?_⟩
  refine ⟨Kept.congr (h.kept hidle).1 rfl rfl hcount rfl, fun a hsome => ?_⟩
  rw [hcount]
  exact (h.kept hidle).2 a (ha ▸ hsome)

theorem checkRotationDeniable_steadfast : Keeps Steadfast checkRotationDeniable := by
  refine Keeps.bind ?_ fun _ => Keeps.bind (Keeps.modify fun _ h =>
    ⟨⟨h.1.same, h.1.seen, h.1.kept⟩, h.2⟩) fun _ => ?_
  · exact Keeps.zoom fun v h => Vfs.wp_ensureWritable.mpr ⟨fun _ => h, fun _ => h⟩
  · refine Keeps.bind Keeps.get fun _ => Keeps.ite Keeps.throw ?_
    refine Keeps.zoom fun v h => ?_
    unfold Vfs.onContainer
    rw [wp_zoom]
    exact wp_mono (readMetadata_fixed v.vfs.container ⟨rfl, rfl, rfl⟩)
      (fun _ _ hc => ⟨h.1.fixed hc, h.2⟩) fun _ _ hc => ⟨h.1.fixed hc, h.2⟩

theorem rotateMvkDeniable_accounted {accepts : Argon2idParams → Bool} {newSalt newMvk nonce : Nat}
    {fill : Fin deniableSlotCount → Nat} {keep : List KeepSlot} {io : CommitIo} (h : Steadfast v) :
    wp (rotateMvkDeniable accepts newSalt newMvk nonce fill keep io) (fun _ v' => Accounted v')
      (fun _ v' => Accounted v') v := by
  unfold rotateMvkDeniable
  rw [wp_bind]
  refine wp_mono (checkRotationDeniable_steadfast v h) ?_ fun _ _ h' => h'.1
  intro m v₁ h₁
  rw [wp_bind, wp_get]
  exact rotateWith_accounted h₁.1 h₁.2 fun v' hv' => doRotationDeniable_landing hv'

/-! ## Runs -/

theorem afterCrash_accounted {env : Env} {live : Nat} {slot : ChunkId → Nat} (h : Accounted v)
    (hcrash : v.afterCrash env live slot = some v') :
    Accounted v' ∧ v'.headOf.generation? = v'.head.generation? := by
  unfold afterCrash at hcrash
  split at hcrash
  · cases hcrash
  · next head hhead =>
      simp only at hcrash
      split at hcrash
      · cases hcrash
      · next vfs hopen =>
          injection hcrash with hcrash
          have hc := (Vfs.open_generation hopen).1
          have hgen : v'.headOf.generation? = head.generation? := by
            refine counted_congr ?_ ?_ (.inl ?_)
            · rw [← hcrash]
              rfl
            · rw [← hcrash]
              rfl
            · rw [← hcrash]
              show vfs.container.header.versionMajor = _
              rw [hc]
              rfl
          have hcount : v'.headOf.counted = head.counted := by
            unfold Head.counted
            rw [hgen]
          have hanchor : v'.vfs.container.anchorHeader = v.vfs.container.anchorHeader := by
            rw [← hcrash]
            show vfs.container.anchorHeader = _
            rw [hc]
            rfl
          have hkept : Head.Kept head := (Head.onDisk_zero.reopen hhead).2
          have hkept' : Head.Kept v'.headOf := by
            refine Kept.congr hkept ?_ ?_ hcount ?_
            · rw [← hcrash]
              rfl
            · rw [← hcrash]
              rfl
            · rw [← hcrash]
              rfl
          have hbound : ∀ a, v'.vfs.container.anchorHeader = some a → a ≤ v'.headOf.counted := by
            intro a ha
            rw [hcount]
            exact ((h.seen a (hanchor ▸ ha)).reopen hhead).1
          refine ⟨⟨?_, fun a ha => ?_, fun _ => ⟨hkept', hbound⟩⟩, ?_⟩
          · rw [hgen, ← hcrash]
            show vfs.container.headerGeneration = _
            rw [hc]
            rfl
          · exact (hkept'.onDisk.mono (hbound a ha)).congr rfl rfl
          · rw [hgen, ← hcrash]

theorem afterCrash_idle {env : Env} {live : Nat} {slot : ChunkId → Nat}
    (hcrash : v.afterCrash env live slot = some v') : v'.Idle := by
  unfold afterCrash at hcrash
  split at hcrash
  · cases hcrash
  · simp only at hcrash
    split at hcrash
    · cases hcrash
    · injection hcrash with hcrash
      rw [← hcrash]
      rfl

theorem act_accounted {a : Act} (h : Accounted v) (hsteady : Steady True v a)
    (hact : v.act a = some v') : Accounted v' := by
  have hfaults : ∀ {env : Env} {io : List HeaderFault},
      Accounted ((v.withEnv env).withHeaderIo io) :=
    fun {env io} => (Accounted.fixed h ⟨rfl, rfl, rfl⟩ : Accounted (v.withEnv env)).withHeaderIo
  cases a with
  | vfs call =>
      injection hact with hact
      rw [← hact]
      exact vfs_accounted h hsteady.1
  | persistHeader nonce io anchor =>
      injection hact with hact
      rw [← hact]
      obtain ⟨hidle, hhome⟩ := hsteady trivial
      exact left_of_wp (persistHeader_accounted h.withHeaderIo hidle
        ⟨hhome.handle, hhome.path, hhome.rotation⟩)
  | upgradeHeaderToV3 io =>
      injection hact with hact
      rw [← hact]
      exact left_of_wp (upgradeHeaderToV3_accounted h.withHeaderIo)
  | rotateMvk credentials newMvk nonce env io commit =>
      injection hact with hact
      rw [← hact]
      exact left_of_wp (rotateMvk_accounted ⟨hfaults, hsteady.1⟩)
  | rotateMvkDeniable accepts newSalt newMvk nonce fill keep env io commit =>
      injection hact with hact
      rw [← hact]
      exact left_of_wp (rotateMvkDeniable_accounted ⟨hfaults, hsteady.1⟩)
  | crash env live slot => exact (afterCrash_accounted h hact).1

theorem run_accounted {acts : List Act} (h : Accounted v) (hsteady : SteadyRun True v acts)
    (hrun : v.run acts = some v') : Accounted v' := by
  induction acts generalizing v with
  | nil =>
      injection hrun with hrun
      exact hrun ▸ h
  | cons a rest ih =>
      unfold run at hrun
      cases hact : v.act a with
      | none =>
          rw [hact] at hrun
          cases hrun
      | some v₁ =>
          rw [hact] at hrun
          exact ih (act_accounted h hsteady.1 hact) (hsteady.2 v₁ hact) hrun

theorem created_accounted {header : Header} {deniable : Bool} {format : MetadataFormat}
    {head : Head} {anchored : Bool} (hhead : Head.Created head) :
    Accounted (created header deniable format head anchored) := by
  have hzero : head.counted = 0 ∧ (head.deniable.isSome = true →
      ∃ d, head.files .committed = some (.deniable d)) := by
    cases hhead with
    | standard mvk headerSalt luksbox2 keyslots =>
        refine ⟨?_, nofun⟩
        cases luksbox2 <;> rfl
    | deniable hcreate => exact ⟨rfl, fun _ => ⟨_, rfl⟩⟩
  have hkept : Head.Kept head := by
    refine ⟨?_, fun hd => .inl (hzero.2 hd)⟩
    rw [hzero.1]
    exact Head.onDisk_zero
  have hbound : ∀ a, (created header deniable format head anchored).vfs.container.anchorHeader =
      some a → a ≤ head.counted := by
    intro a ha
    have ha : (if anchored = true then head.generation? else none) = some a := ha
    split at ha
    · unfold Head.counted
      rw [ha]
      exact le_refl _
    · cases ha
  exact ⟨rfl, fun a ha => hkept.onDisk.mono (hbound a ha), fun _ => ⟨hkept, hbound⟩⟩

end Vault

/-- On an untouched vault the anchor is never ahead: after any steady run and a
crash at its end, neither generation it recorded exceeds what the open finds. -/
theorem no_false_rollback_alarm {header : Header} {deniable : Bool} {format : MetadataFormat}
    {head : Head} {anchored : Bool} {acts : List Vault.Act} {v v' : Vault} {env : Env} {live : Nat}
    {slot : ChunkId → Nat} (hhead : Head.Created head)
    (hrun : (Vault.created header deniable format head anchored).run acts = some v)
    (hsteady : Vault.SteadyRun True (Vault.created header deniable format head anchored) acts)
    (hcrash : v.afterCrash env live slot = some v') :
    (∀ g, v'.vfs.container.anchor = some g → g ≤ v'.vfs.tree.nextChunkGen ∧
      Anchor.compare g v'.vfs.tree.nextChunkGen ≠
        .rollbackDetected g v'.vfs.tree.nextChunkGen) ∧
    (∀ a, v'.vfs.container.anchorHeader = some a → a ≤ v'.head.generation?.getD 0) ∧
    Head.headerRollbackDetected v'.vfs.container.anchorHeader v'.head = false := by
  have hlast := Vault.afterCrash_lasting (Vault.run_lasting Vault.created_lasting hsteady hrun) hcrash
  obtain ⟨hacc, hgen⟩ := Vault.afterCrash_accounted
    (Vault.run_accounted (Vault.created_accounted hhead) hsteady hrun) hcrash
  have hidle : v'.Idle := Vault.afterCrash_idle hcrash
  have hheader : ∀ a, v'.vfs.container.anchorHeader = some a → a ≤ v'.head.generation?.getD 0 := by
    intro a ha
    rw [← hgen]
    exact (hacc.kept hidle).2 a ha
  refine ⟨fun g hg => ?_, hheader, ?_⟩
  · have hle := hlast.next g (.inr ⟨trivial, hg⟩)
    refine ⟨hle, ?_⟩
    unfold Anchor.compare
    split
    · nofun
    · rw [if_neg (Nat.not_lt.mpr hle)]
      nofun
  · unfold Head.headerRollbackDetected
    split
    · next a ha => exact decide_eq_false (Nat.not_lt.mpr (hheader a ha))
    · rfl

/-! ## A rotation of an unflushed tree -/

/-- A LUKSBOX2 vault with an anchor and one passphrase. -/
def anchoredVault : Vault :=
  Vault.created ⟨2, false, false, 65536, 73728⟩ false .v5
    (Head.created 5 7 true (Function.update (fun _ => none) 0 (some ⟨1, false, 20, 5⟩))) true

/-- A file is created and flushed. -/
def flushedActs : List Vault.Act :=
  [.vfs ⟨.create 1 "f" 0o644, Env.quiet⟩, .vfs ⟨.flush, Env.quiet⟩]

/-- Its passphrase stays, its master key changes. -/
def rotateAct : Vault.Act :=
  .rotateMvk [⟨0, 1, 21, true⟩] 6 0 Env.quiet [] ⟨.ok, .ok, .ok, .ok, .ok, .ok⟩

/-- A byte is written and not flushed, and the key is rotated. The anchor is at
the counter in memory, 4; the metadata in the file is the flushed one, 2. -/
theorem unflushed_rotation_alarms :
    ∃ v v', anchoredVault.run (flushedActs ++ [.vfs ⟨.write 2 0 [7], Env.quiet⟩, rotateAct]) =
        some v ∧ v.afterCrash Env.quiet 0 (fun _ => 0) = some v' ∧
      v'.vfs.container.anchor = some 4 ∧ v'.vfs.tree.nextChunkGen = 2 ∧
      Anchor.compare 4 2 = .rollbackDetected 4 2 := by
  have hrun : ((anchoredVault.run (flushedActs ++ [.vfs ⟨.write 2 0 [7], Env.quiet⟩,
      rotateAct])).bind fun v => (v.afterCrash Env.quiet 0 fun _ => 0).map fun v' =>
        (v'.vfs.container.anchor, v'.vfs.tree.nextChunkGen)) = some (some 4, 2) := by
    decide +kernel
  obtain ⟨v, hv, hcrash⟩ := Option.bind_eq_some_iff.mp hrun
  obtain ⟨v', hv', hgens⟩ := Option.map_eq_some_iff.mp hcrash
  injection hgens with hanchor hnext
  exact ⟨v, v', hv, hv', hanchor, hnext, rfl⟩

/-- Rotated after the flush, the same vault raises no alarm. -/
theorem flushed_rotation_quiet :
    ∃ v v', anchoredVault.run (flushedActs ++ [rotateAct]) = some v ∧
      v.afterCrash Env.quiet 0 (fun _ => 0) = some v' ∧ v'.vfs.container.anchor = some 2 ∧
      Anchor.compare 2 v'.vfs.tree.nextChunkGen ≠ .rollbackDetected 2 v'.vfs.tree.nextChunkGen := by
  have hrun : ((anchoredVault.run (flushedActs ++ [rotateAct])).bind fun v =>
      (v.afterCrash Env.quiet 0 fun _ => 0).map fun v' => v'.vfs.container.anchor) =
        some (some 2) := by
    decide +kernel
  obtain ⟨v, hv, hcrash⟩ := Option.bind_eq_some_iff.mp hrun
  obtain ⟨v', hv', hanchor⟩ := Option.map_eq_some_iff.mp hcrash
  refine ⟨v, v', hv, hv', hanchor, ?_⟩
  exact ((no_false_rollback_alarm (Head.Created.standard _ _ _ _) hv
    (Vault.runsSteadily_steady (by decide +kernel)) hv').1 2 hanchor).2

end Luksbox
